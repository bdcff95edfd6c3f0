/-
  RobotLang.Text
  ──────────────
  **CHARACTERS, COLUMNS AND QUOTES.**

  Blanks follow the Unicode property `White_Space`.  Letters are those of
  English and of the Latin-1 supplement, which is all that a name can hold;
  lower-casing is the identity outside them.

  Text shorter than its column is filled up on one side; text that is too
  long stays whole.  Widths count characters.

  Dumps show source text between double quotes.  Quotes and backslashes are
  escaped, the common control characters by a letter, and everything that
  would not show on its own by its code point in braces: controls, format
  characters, blanks other than the space, private and unassigned places,
  and marks that join the character before them.
-/

namespace RobotLang.Text

/-! ## §1. Classes of characters. -/

/-- The code point of `c` lies in `lo … hi`, both included. -/
def inRange (lo hi : Nat) (c : Char) : Bool :=
  lo ≤ c.toNat && c.toNat ≤ hi

/-- Unicode `White_Space`. -/
def isBlank (c : Char) : Bool :=
  inRange 0x09 0x0D c || c == ' ' || c.toNat == 0x85 || c.toNat == 0xA0 || c.toNat == 0x1680
    || inRange 0x2000 0x200A c || c.toNat == 0x2028 || c.toNat == 0x2029 || c.toNat == 0x202F
    || c.toNat == 0x205F || c.toNat == 0x3000

/-- A decimal digit of ASCII. -/
def isDigit (c : Char) : Bool :=
  inRange 0x30 0x39 c

/-- A letter of ASCII. -/
def isAsciiLetter (c : Char) : Bool :=
  inRange 0x41 0x5A c || inRange 0x61 0x7A c

/-- A letter of ASCII or of the Latin-1 supplement; `×` and `÷` are none. -/
def isLatinLetter (c : Char) : Bool :=
  isAsciiLetter c || inRange 0xC0 0xD6 c || inRange 0xD8 0xF6 c || inRange 0xF8 0xFF c

/-- A capital letter whose small letter stands 32 places on. -/
def isCapital (c : Char) : Bool :=
  inRange 0x41 0x5A c || inRange 0xC0 0xD6 c || inRange 0xD8 0xDE c

/-- The small letter of a capital, any other character itself.  Capitals beyond the Latin-1
supplement, which no name can hold, stay as they are. -/
def lowerChar (c : Char) : Char :=
  if isCapital c then Char.ofNat (c.toNat + 0x20) else c

/-- Each character lower-cased. -/
def lower (s : String) : String :=
  String.ofList (s.toList.map lowerChar)

/-! ## §2. Columns. -/

/-- `n` times the character `c`. -/
def repeatChar (n : Nat) (c : Char) : String :=
  String.ofList (List.replicate n c)

/-- `s` at the right end of a column, the space before it filled with `c`. -/
def alignRight (width : Nat) (c : Char) (s : String) : String :=
  repeatChar (width - s.length) c ++ s

/-- `s` at the left end of a column, the space after it blank. -/
def alignLeft (width : Nat) (s : String) : String :=
  s ++ repeatChar (width - s.length) ' '

/-- A number written with at least `width` digits. -/
def zeroPadded (width n : Nat) : String :=
  alignRight width '0' (toString n)

/-- A number with its sign, which is `+` unless it is negative. -/
def signed (n : Int) : String :=
  if n < 0 then "-" ++ toString n.natAbs else "+" ++ toString n.natAbs

/-! ## §3. Quotes. -/

/-- The ranges of code points that do not show on their own.  They cover
controls, formats, blanks, surrogates, private use, noncharacters, and the
combining marks of the common scripts. -/
def hiddenRanges : List (Nat × Nat) :=
  [(0x00, 0x1F), (0x7F, 0xA0), (0xAD, 0xAD), (0x300, 0x36F), (0x483, 0x489), (0x591, 0x5BD),
    (0x5BF, 0x5BF), (0x5C1, 0x5C2), (0x5C4, 0x5C5), (0x5C7, 0x5C7), (0x600, 0x605),
    (0x610, 0x61A), (0x61C, 0x61C), (0x64B, 0x65F), (0x670, 0x670), (0x6D6, 0x6DD),
    (0x6DF, 0x6E4), (0x6E7, 0x6E8), (0x6EA, 0x6ED), (0x70F, 0x70F), (0x1680, 0x1680),
    (0x180B, 0x180F), (0x1AB0, 0x1ACE), (0x1DC0, 0x1DFF), (0x2000, 0x200F), (0x2028, 0x202F),
    (0x205F, 0x206F), (0x20D0, 0x20F0), (0x3000, 0x3000), (0x302A, 0x302F), (0x3099, 0x309A),
    (0xD800, 0xF8FF), (0xFDD0, 0xFDEF), (0xFE00, 0xFE0F), (0xFE20, 0xFE2F), (0xFEFF, 0xFEFF),
    (0xFFF0, 0xFFFB), (0xFFFE, 0xFFFF), (0xE0000, 0x10FFFF)]

/-- The character would not show on its own. -/
def isHidden (c : Char) : Bool :=
  hiddenRanges.any fun (lo, hi) => inRange lo hi c

/-- How a character stands between double quotes. -/
def quotedChar (c : Char) : List Char :=
  if c = '"' then ['\\', '"']
  else if c = '\\' then ['\\', '\\']
  else if c = '\x00' then ['\\', '0']
  else if c = '\t' then ['\\', 't']
  else if c = '\r' then ['\\', 'r']
  else if c = '\n' then ['\\', 'n']
  else if isHidden c then ['\\', 'u', '\x7b'] ++ Nat.toDigits 16 c.toNat ++ ['\x7d']
  else [c]

/-- The text between double quotes. -/
def quoted (s : String) : String :=
  String.ofList ('"' :: s.toList.flatMap quotedChar ++ ['"'])

end RobotLang.Text
