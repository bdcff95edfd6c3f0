/-
  RobotLang.Proofs.Braced.FirstImpossible
  ───────────────────────────────────────
  **A BRACED SOURCE IS REFUSED AT ITS FIRST IMPOSSIBLE TOKEN.**

  Words are possible when some accepted source starts with them.  Let the
  diagnostic of a refused source point at its token number `k`:

      (words source).take k             is possible
      (words source).take (k + 1)       is not
      (words source).take k ++ [word]   is possible again, for some word of
                                        each kind that was expected

  What was read before the token starts a way to write a program
  (`follows_program`), and the rest of that program can be written down, word
  by word with blanks between them (`tokenize_spaced`).  An accepted source
  that goes on with the same token would be given up at it as well, since
  nothing behind the token had been looked at (`lockstep_program`).
-/
import RobotLang.Proofs.Braced.Acceptance
import RobotLang.Proofs.Braced.ValidPrefix
import RobotLang.Proofs.Lexing.Spacing
import RobotLang.Proofs.Rule.Course

namespace RobotLang.Braced

open Rule

/-! ## §1. Accepted sources. -/

/-- The source is a program. -/
def Accepted (source : String) : Prop :=
  ∃ parsed, parse source = .ok parsed

/-- The tokens of a source as they are written, the end of input with them. -/
def words (source : String) : List (Kind × String) :=
  (lexicon.tokenize source).tokens.map Token.word

/-- The words spell a program and its literals can be held. -/
structure Forms (ws : List (Kind × String)) : Prop where
  derives : Derives grammar (.symbol .programClass) (ws.map (·.1))
  fits : ∀ w ∈ ws, w.1 = .integerLiteral → Holdable w.2

/-- Words spell a program if their kinds are derived and every literal among them can be held. -/
theorem forms_map_word {ts : List Token} :
    Forms (ts.map Token.word)
      ↔ Derives grammar (.symbol .programClass) (ts.map (·.kind)) ∧ ∀ t ∈ ts, t.LiteralFits := by
  have hkinds : (ts.map Token.word).map (·.1) = ts.map (·.kind) := by
    rw [List.map_map]
    rfl
  constructor
  · intro h
    exact ⟨hkinds ▸ h.derives, fun t ht => h.fits t.word (List.mem_map_of_mem ht)⟩
  · intro h
    exact ⟨hkinds ▸ h.1, List.forall_mem_map.mpr h.2⟩

/-- Whether tokens are read as a program is a matter of their words. -/
theorem exists_ends_program_iff {s : Setting} {ts : List Token} (hs : s.stop.kind = .eof)
    (hr : s.recovery = false) (hparens : s.sensorParens = true) (hts : ∀ t ∈ ts, t.kind ≠ .eof) :
    (∃ p, Ends program s ts p [] []) ↔ Forms (ts.map Token.word) := by
  rw [forms_map_word, ← exists_spelled_iff_derives]
  constructor
  · intro h
    obtain ⟨p, hp⟩ := h
    obtain ⟨hspelled, _, htokens, _⟩ := (ends_program_iff hs hr hparens hts).mp hp
    exact ⟨p, hspelled, htokens⟩
  · intro h
    obtain ⟨p, hspelled, htokens⟩ := h
    exact ⟨p.nearest, (ends_program_iff hs hr hparens hts).mpr ⟨Program.spelled_nearest hspelled,
      p.nearestElse_nearest, p.tokens_nearest.trans htokens, rfl, rfl⟩⟩

section Source

variable {source : String}

/-- How the tokens of a source are read. -/
def sourceSetting (source : String) : Setting :=
  .forTokens lexicon.label false true (lexicon.tokenize source).tokens

theorem kind_ne_eof {t : Token} (ht : t ∈ lexicon.bodyTokens source) : t.kind ≠ .eof :=
  Lexicon.kind_ne_eof_of_mem lexicon_emitsNoEnd ht

/-- Behind the tokens of a source stands the end of its text. -/
theorem sourceSetting_stop (source : String) :
    (sourceSetting source).stop = Lexicon.endOfText source.toList :=
  endToken_append_stop rfl fun _ => kind_ne_eof

theorem sourceSetting_stop_kind (source : String) : (sourceSetting source).stop.kind = .eof :=
  endToken_kind _

/-- Reading a whole source is reading its tokens, with the end behind them. -/
theorem run_source (source : String) :
    program.run lexicon.label false true (lexicon.tokenize source).tokens
      = program (sourceSetting source) (lexicon.bodyTokens source) := by
  unfold Rule.run
  rw [Lexicon.beforeEnd_tokens lexicon_emitsNoEnd]
  rfl

/-- A source without stray characters that is read to its end is accepted. -/
theorem parse_of_ends {p : Program} (hlexed : (lexicon.tokenize source).errors = [])
    (h : Ends program (sourceSetting source) (lexicon.bodyTokens source) p [] []) :
    parse source = .ok ⟨p, (lexicon.tokenize source).comments⟩ := by
  unfold Ends at h
  simp [parse, hlexed, parseTokens, run_source, h, Except.map]

/-- One at which reading gives up is refused with the complaints about it. -/
theorem parse_of_gives_up {rest : List Token} {cs : List Diagnostic}
    (hlexed : (lexicon.tokenize source).errors = [])
    (h : program (sourceSetting source) (lexicon.bodyTokens source) = ⟨none, rest, cs⟩) :
    parse source = .error ⟨.parsing, cs⟩ := by
  simp [parse, hlexed, parseTokens, run_source, h, Except.map]

/-- An accepted source has no stray characters. -/
theorem errors_eq_nil_of_accepted (h : Accepted source) :
    (lexicon.tokenize source).errors = [] := by
  obtain ⟨parsed, hparsed⟩ := h
  simp only [parse] at hparsed
  split at hparsed
  · assumption
  · cases hparsed

/-- **A source is accepted if it has no stray characters and its words spell a program.** -/
theorem accepted_iff :
    Accepted source ↔ (lexicon.tokenize source).errors = []
      ∧ Forms ((lexicon.bodyTokens source).map Token.word) := by
  constructor
  · intro h
    refine ⟨errors_eq_nil_of_accepted h, ?_⟩
    obtain ⟨parsed, hparsed⟩ := h
    exact forms_map_word.mpr (exists_spelled_iff_derives.mp ⟨_, spelled_of_parse hparsed⟩)
  · intro h
    obtain ⟨p, hp⟩ := (exists_ends_program_iff (sourceSetting_stop_kind source) rfl rfl
      fun _ => kind_ne_eof).mpr h.2
    exact ⟨_, parse_of_ends h.1 hp⟩

/-- The words of a source are those of its tokens, and one more for its end. -/
theorem words_eq (source : String) :
    words source = (lexicon.bodyTokens source).map Token.word ++ [(.eof, "")] := by
  unfold words
  rw [Lexicon.tokenize_tokens, List.map_append]
  rfl

end Source

/-! ## §2. Possible beginnings. -/

/-- Some accepted source starts with these words. -/
def Possible (ws : List (Kind × String)) : Prop :=
  ∃ source, Accepted source ∧ ws <+: words source

/-- What starts with possible words starts with fewer of them. -/
theorem Possible.shorter {vs ws : List (Kind × String)} (h : Possible ws) (hvs : vs <+: ws) :
    Possible vs := by
  obtain ⟨source, haccepted, hws⟩ := h
  exact ⟨source, haccepted, hvs.trans hws⟩

/-- One way to write a token of each kind. -/
def sample : Kind → String
  | .identifier => "x"
  | .integerLiteral => "0"
  | kind => label kind

/-- The kinds that the table has words for. -/
def vocabulary : List Kind :=
  lexicon.entries.filterMap fun entry =>
    match entry.action with
    | .emit kind => some kind
    | _ => none

/-- Every kind of the table can be written. -/
theorem next_sample : ∀ kind ∈ vocabulary,
    lexicon.next (sample kind).toList = some (.emit kind, (sample kind).toList.length) := by
  decide +kernel

/-- The grammar asks for nothing that the table has no words for. -/
theorem mem_vocabulary (name : Symbol) : ∀ kind ∈ (grammar name).kinds, kind ∈ vocabulary := by
  cases name with
  | expression e => cases e <;> decide
  | _ => decide

/-- The table of the braced dialect can be written with blanks between its words, so any words can
be put into a source. -/
theorem lexicon_separates :
    lexicon.Separates
      (keywords ++ [.emit .digits .integerLiteral, .emit .name .identifier] ++ signs)
      comments where
  entries := rfl
  words := by decide +kernel
  others := by simp [comments, Entry.comment]
  names := by decide

/-- Whatever is derived can be written, kind by kind. -/
theorem stands_sample {ks : List Kind} (h : Derives grammar (.symbol .programClass) ks) :
    ∀ kind ∈ ks, lexicon.Stands kind (sample kind).toList := by
  intro kind hkind
  have hnext : lexicon.next ((sample kind).toList ++ [])
      = some (.emit kind, (sample kind).toList.length) := by
    rw [List.append_nil]
    exact next_sample kind (h.forall_mem mem_vocabulary (by simp [Phrase.kinds]) kind hkind)
  exact Lexicon.stands_of_next lexicon_separates hnext

/-- A token of a source is what the table makes of its text. -/
theorem stands_of_mem {source : String} {t : Token} (h : t ∈ lexicon.bodyTokens source) :
    lexicon.Stands t.kind t.image.toList := by
  obtain ⟨_, text, _, kind, _, hnext, rfl⟩ := Lexicon.exists_lexeme_of_mem_bodyTokens h
  show lexicon.Stands kind (String.ofList text).toList
  rw [String.toList_ofList]
  exact Lexicon.stands_of_next lexicon_separates hnext

/-- Words that spell a program, and each of them a token, are those of a source. -/
theorem Forms.possible {ws : List (Kind × String)} (h : Forms ws)
    (hstands : ∀ w ∈ ws, lexicon.Stands w.1 w.2.toList) : Possible ws := by
  obtain ⟨source, herrors, hwords⟩ := Lexicon.tokenize_spaced lexicon_separates ws hstands
  refine ⟨source, accepted_iff.mpr ⟨herrors, by rwa [hwords]⟩, ?_⟩
  rw [words_eq, hwords]
  exact List.prefix_append _ _

/-- Tokens whose kinds start a program are possible, and so is what the grammar
has behind them. -/
theorem possible_of_starts {source : String} {used rest : List Token} {ks : List Kind}
    (hbody : lexicon.bodyTokens source = used ++ rest) (hfits : ∀ t ∈ used, t.LiteralFits)
    (h : Starts grammar (grammar .programClass) (used.map (·.kind) ++ ks)) :
    Possible (used.map Token.word ++ ks.map fun kind => (kind, sample kind)) := by
  obtain ⟨more, hmore⟩ := h
  have hderives := Derives.symbol hmore
  rw [List.append_assoc] at hderives
  have hforms : Forms
      (used.map Token.word ++ (ks ++ more).map fun kind => (kind, sample kind)) := by
    constructor
    · simpa [Token.word, Function.comp_def] using hderives
    · refine List.forall_mem_append.mpr ⟨List.forall_mem_map.mpr hfits, List.forall_mem_map.mpr ?_⟩
      intro kind _ hliteral
      obtain rfl : kind = .integerLiteral := hliteral
      exact (holdable_iff_of_isDigits (by decide)).mpr (by decide)
  -- words that stand alone can be printed and are read back as they are
  have hpossible := hforms.possible <| by
    refine List.forall_mem_append.mpr ⟨List.forall_mem_map.mpr ?_, List.forall_mem_map.mpr ?_⟩
    · intro t ht
      exact stands_of_mem (hbody ▸ List.mem_append_left rest ht)
    · intro kind hkind
      exact stands_sample hderives kind (List.mem_append_right _ hkind)
  refine hpossible.shorter ?_
  rw [List.map_append, ← List.append_assoc]
  exact List.prefix_append _ _

/-! ## §3. Impossible tokens. -/

/-- The words that a source starts with are followed by other words of it. -/
theorem exists_more_of_starts {source : String} {front : List Token}
    (hfront : ∀ t ∈ front, t.kind ≠ .eof) (h : front.map Token.word <+: words source) :
    ∃ more, (∀ t ∈ more, t.kind ≠ .eof)
      ∧ (lexicon.bodyTokens source).map Token.word = (front ++ more).map Token.word := by
  rw [words_eq, List.prefix_concat_iff] at h
  rcases h with hall | h
  · have hmem : (Kind.eof, "") ∈ front.map Token.word := by simp [hall]
    obtain ⟨t, ht, hword⟩ := List.mem_map.mp hmem
    exact absurd (congrArg Prod.fst hword) (hfront t ht)
  · obtain ⟨ws, hws⟩ := h
    obtain ⟨front', more, hbody, _, hmore⟩ := List.map_eq_append_iff.mp hws.symm
    have hmem : ∀ t ∈ more, t ∈ lexicon.bodyTokens source := by
      intro t ht
      rw [hbody]
      exact List.mem_append_right front' ht
    exact ⟨more, fun t ht => kind_ne_eof (hmem t ht), by rw [← hws, List.map_append, hmore]⟩

/-- What is given up at a token is given up at it whatever follows. -/
theorem not_possible_of_gives_up {s : Setting} {used rest : List Token} {t : Token}
    {cs : List Diagnostic} (hs : s.stop.kind = .eof) (hr : s.recovery = false)
    (hparens : s.sensorParens = true) (hused : ∀ u ∈ used ++ [t], u.kind ≠ .eof)
    (h : program s (used ++ t :: rest) = ⟨none, t :: rest, cs⟩) :
    ¬Possible ((used ++ [t]).map Token.word) := by
  intro hpossible
  obtain ⟨source, haccepted, hstart⟩ := hpossible
  obtain ⟨more, hmore, hwords⟩ := exists_more_of_starts hused hstart
  have hforms := (accepted_iff.mp haccepted).2
  rw [hwords] at hforms
  obtain ⟨p, hp⟩ := (exists_ends_program_iff hs hr hparens
    (List.forall_mem_append.mpr ⟨hused, hmore⟩)).mpr hforms
  -- both lists start with the used tokens and the one that was given up at
  have hparallel := (lockstep_program hr hs).agrees (used ++ [t]) rest more (Nat.le_refl _)
  rw [List.append_assoc, List.singleton_append, h] at hparallel
  have hresult := hparallel.result_eq (Nat.lt_succ_self rest.length)
  rw [hp] at hresult
  cases hresult

/-- A literal that cannot be held is in no accepted source. -/
theorem not_possible_of_not_fits {ws : List (Kind × String)} {t : Token} (ht : ¬t.LiteralFits)
    (hmem : t.word ∈ ws) : ¬Possible ws := by
  intro hpossible
  obtain ⟨source, haccepted, hstart⟩ := hpossible
  have hword := hstart.subset hmem
  rw [words_eq, List.mem_append] at hword
  rcases hword with hword | hword
  · exact ht ((accepted_iff.mp haccepted).2.fits t.word hword)
  · have hend : t.kind = .eof := congrArg Prod.fst (List.mem_singleton.mp hword)
    exact ht (Token.literalFits_of_kind hend (by decide))

/-- A source that is refused is not even the beginning of an accepted one, if
its end counts as a word. -/
theorem not_possible_words {source : String} (hlexed : (lexicon.tokenize source).errors = [])
    (h : ¬Accepted source) : ¬Possible (words source) := by
  intro hpossible
  obtain ⟨source', haccepted, hstart⟩ := hpossible
  rw [words_eq, words_eq, List.prefix_concat_iff] at hstart
  rcases hstart with hall | hstart
  · rw [List.append_left_inj] at hall
    exact h (accepted_iff.mpr ⟨hlexed, hall ▸ (accepted_iff.mp haccepted).2⟩)
  · have hmem := hstart.subset (List.mem_append_right _ List.mem_cons_self)
    obtain ⟨t, ht, hword⟩ := List.mem_map.mp hmem
    exact absurd (congrArg Prod.fst hword) (kind_ne_eof ht)

/-! ## §4. Refused sources. -/

/-- The diagnostic points at the token number `k` of the source, the words
before that token are possible and with it they are not; what was expected
instead of it would have been possible. -/
structure FirstImpossible (source : String) (d : Diagnostic) (k : Nat) : Prop where
  points : ∃ t, (lexicon.tokenize source).tokens[k]? = some t ∧ d.PointsAt t
  pointsOnly : ∀ i t, (lexicon.tokenize source).tokens[i]? = some t → d.PointsAt t → i = k
  possible : Possible ((words source).take k)
  impossible : ¬Possible ((words source).take (k + 1))
  expected : d.issue = .mismatchedToken → ∃ wanted : List Kind, wanted ≠ []
    ∧ d.expected = some (wanted.map lexicon.label)
    ∧ ∀ kind ∈ wanted, ∃ image, Possible ((words source).take k ++ [(kind, image)])

section Refused

variable {source : String} {used rest : List Token}

/-- Behind the tokens used stands the one at hand, or the end of input. -/
theorem tokens_getElem? (h : lexicon.bodyTokens source = used ++ rest) :
    (lexicon.tokenize source).tokens[used.length]? = some (front (sourceSetting source) rest) := by
  rw [Lexicon.tokenize_tokens, h, List.append_assoc, List.getElem?_append_right (Nat.le_refl _),
    Nat.sub_self]
  cases rest with
  | nil => rw [front_nil, sourceSetting_stop]; rfl
  | cons t rest => rfl

/-- The words used are the first ones of the source. -/
theorem take_words (h : lexicon.bodyTokens source = used ++ rest) :
    (words source).take used.length = used.map Token.word := by
  rw [words_eq, h, List.map_append, List.append_assoc]
  exact List.take_left' (List.length_map _)

/-- With the word at hand there is one more. -/
theorem take_succ_words (h : lexicon.bodyTokens source = used ++ rest) :
    (words source).take (used.length + 1)
      = (used ++ [front (sourceSetting source) rest]).map Token.word := by
  rw [List.take_add_one, take_words h, words, List.getElem?_map, tokens_getElem? h,
    List.map_append]
  rfl

/-- The tokens up to the one that is blamed tell where it stands.  No two tokens of a source share a
line and a column, so the diagnostic points at no other. -/
theorem FirstImpossible.of_split {issue : Issue} {words' : Option (List String)}
    (hbody : lexicon.bodyTokens source = used ++ rest)
    (hpossible : Possible (used.map Token.word))
    (himpossible : ¬Possible ((used ++ [front (sourceSetting source) rest]).map Token.word))
    (hexpected : issue = .mismatchedToken → ∃ wanted : List Kind, wanted ≠ []
      ∧ words' = some (wanted.map lexicon.label)
      ∧ ∀ kind ∈ wanted, ∃ image, Possible (used.map Token.word ++ [(kind, image)])) :
    FirstImpossible source (.atToken issue (front (sourceSetting source) rest) words')
      used.length where
  points := ⟨_, tokens_getElem? hbody, rfl, rfl, rfl⟩
  pointsOnly := by
    intro i t ht hpoints
    obtain ⟨-, hline, hcolumn⟩ := hpoints
    exact Lexicon.index_eq_of_place_eq ht (tokens_getElem? hbody) (Option.some.inj hline).symm
      (Option.some.inj hcolumn).symm
  possible := by rwa [take_words hbody]
  impossible := by rwa [take_succ_words hbody]
  expected := by
    rw [take_words hbody]
    exact hexpected

/-- Where a rule gives up there is an impossible token.  It is the token at hand, or the end of
input if all tokens were read. -/
theorem not_possible_of_refused {cs : List Diagnostic}
    (hlexed : (lexicon.tokenize source).errors = [])
    (hbody : lexicon.bodyTokens source = used ++ rest)
    (h : program (sourceSetting source) (lexicon.bodyTokens source) = ⟨none, rest, cs⟩) :
    ¬Possible ((used ++ [front (sourceSetting source) rest]).map Token.word) := by
  cases rest with
  | nil =>
    -- the whole source was read, so it is the end of input that is impossible
    have hall : words source = (used ++ [front (sourceSetting source) []]).map Token.word := by
      rw [← take_succ_words hbody, List.take_of_length_le]
      simp [words_eq, hbody]
    rw [← hall]
    refine not_possible_words hlexed fun haccepted => ?_
    obtain ⟨parsed, hparsed⟩ := haccepted
    rw [parse_of_gives_up hlexed h] at hparsed
    cases hparsed
  | cons t rest =>
    rw [hbody] at h
    refine not_possible_of_gives_up (sourceSetting_stop_kind source) rfl rfl ?_ h
    intro u hu
    have hmem : u ∈ lexicon.bodyTokens source := by
      rw [hbody, ← List.singleton_append, ← List.append_assoc]
      exact List.mem_append_left rest hu
    exact kind_ne_eof hmem

end Refused

/-- **A source is refused at its first impossible token.**  Of a source without
stray characters that is refused there is exactly one diagnostic.  The words
before the token that it points at start an accepted source, no accepted source
starts with these words and that token, and every word that was expected
instead is that of a kind that some accepted source goes on with. -/
theorem parse_stops_at_first_impossible_token (source : String) (failure : Failure)
    (hlexed : (lexicon.tokenize source).errors = []) (hfails : parse source = .error failure) :
    ∃ d k, failure = ⟨.parsing, [d]⟩ ∧ FirstImpossible source d k := by
  have hs := sourceSetting_stop_kind source
  have hfollows := follows_program hs rfl rfl (lexicon.bodyTokens source)
  generalize ho : program (sourceSetting source) (lexicon.bodyTokens source) = o at hfollows
  -- a rule that gave up refuses the source for what it complained about
  have hrefused {rest : List Token} {d : Diagnostic} (hnone : o = ⟨none, rest, [d]⟩) :
      failure = ⟨.parsing, [d]⟩ :=
    Except.error.inj (hfails.symm.trans (parse_of_gives_up hlexed (ho.trans hnone)))
  cases hfollows with
  | ends p used rest =>
    obtain ⟨-, -, -, hrest, -⟩ := (ends_program_iff hs rfl rfl fun _ => kind_ne_eof).mp ho
    rw [hrest] at ho
    rw [parse_of_ends hlexed ho] at hfails
    cases hfails
  | stops used rest d wanted hbody hfits hblames hstarts hwanted =>
    refine ⟨d, used.length, hrefused rfl, ?_⟩
    have himpossible := not_possible_of_refused hlexed hbody ho
    rw [← List.append_nil (used.map _)] at hstarts
    have hpossible := (possible_of_starts hbody hfits hstarts).shorter (List.prefix_append _ _)
    cases hblames with
    | mismatch _ hne =>
      refine .of_split hbody hpossible himpossible fun _ => ⟨wanted, hne, rfl, ?_⟩
      exact fun kind hkind => ⟨_, possible_of_starts hbody hfits (hwanted kind hkind)⟩
    | leftover => exact .of_split hbody hpossible himpossible nofun
  | tooLarge used t rest hbody hfits htoo hstarts =>
    refine ⟨_, used.length, hrefused rfl, ?_⟩
    have hpossible := (possible_of_starts hbody hfits hstarts).shorter (List.prefix_append _ _)
    show FirstImpossible source
      (.atToken .parseError (front (sourceSetting source) (t :: rest)) none) used.length
    exact .of_split hbody hpossible (not_possible_of_not_fits htoo (by simp)) nofun

/-- `class program { program() { move() } }` -/
def missingSemicolon : String :=
  "class program \x7b program() \x7b move() \x7d \x7d"

/-- The first brace in it that closes, where the `;` is missing. -/
def earlyBrace : Token :=
  ⟨.rightBrace, "\x7d", 1, 36, 1, 35, 35, false⟩

/-- It is refused at that brace, the token number 10. -/
theorem missingSemicolon_stops :
    (lexicon.tokenize missingSemicolon).errors = []
      ∧ parse missingSemicolon = .error ⟨.parsing, [.mismatch earlyBrace [";"]]⟩
      ∧ FirstImpossible missingSemicolon (.mismatch earlyBrace [";"]) 10 := by
  have hlexed : (lexicon.tokenize missingSemicolon).errors = []
      ∧ (lexicon.tokenize missingSemicolon).tokens[10]? = some earlyBrace := by decide +kernel
  have hfails : parse missingSemicolon = .error ⟨.parsing, [.mismatch earlyBrace [";"]]⟩ := by
    have hfailure : (match parse missingSemicolon with
        | .error failure => some failure
        | .ok _ => none) = some ⟨.parsing, [.mismatch earlyBrace [";"]]⟩ := by decide +kernel
    split at hfailure
    · next h => rw [h, Option.some.inj hfailure]
    · cases hfailure
  obtain ⟨_, k, hd, hfirst⟩ := parse_stops_at_first_impossible_token _ _ hlexed.1 hfails
  cases hd
  obtain rfl := hfirst.pointsOnly 10 _ hlexed.2 ⟨rfl, rfl, rfl⟩
  exact ⟨hlexed.1, hfails, hfirst⟩

end RobotLang.Braced
