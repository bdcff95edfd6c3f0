/-
  RobotLang.Proofs.Worded.NearestElse
  ───────────────────────────────────
  **WHICH `si` A `si-no` BELONGS TO.**

  As in the braced dialect, the tokens of a program do not always tell where a
  `si-no` belongs.  The commands in front of it that could take it are those
  that end in a `si` without one (`Code.endsOpen`); a `;` or a `fin` ends them
  all, so only commands can be open, never statements.

  Every program can be rearranged so that each `si-no` belongs to the nearest
  `si` that can take it, from the same tokens of the source:

      p.nearest.written = p.written     p.nearest.NearestElse
-/
import RobotLang.Proofs.Worded.Derivation

namespace RobotLang.Worded

/-! ## §1. Open commands. -/

/-- Whether the code ends in a `si` that could still take a `si-no`. -/
def Code.endsOpen {part : Part} : Code part → Bool
  | .cond .. => true
  | .condElse _ _ _ _ _ no => no.endsOpen
  | .whileDo _ _ _ body => body.endsOpen
  | .times _ _ _ body => body.endsOpen
  | .nil | .cons .. | .empty .. | .ended .. | .builtin .. | .call .. | .callWith ..
  | .block .. => false

/-- Every `si-no` belongs to the nearest `si` before it that can take it. -/
def Code.NearestElse {part : Part} : Code part → Prop
  | .nil | .empty .. | .builtin .. | .call .. | .callWith .. => True
  | .cons head tail => head.NearestElse ∧ tail.NearestElse
  | .ended command _ => command.NearestElse
  | .cond _ _ _ yes => yes.NearestElse
  | .condElse _ _ _ yes _ no => yes.endsOpen = false ∧ yes.NearestElse ∧ no.NearestElse
  | .whileDo _ _ _ body => body.NearestElse
  | .times _ _ _ body => body.NearestElse
  | .block _ body _ => body.NearestElse

/-- Every `si-no` in the definition belongs to the nearest `si`. -/
def Definition.NearestElse : Definition → Prop
  | .full _ _ _ _ body => body.NearestElse
  | .prototype .. => True

/-- Every `si-no` of the program belongs to the nearest `si` before it that can
take it. -/
def Program.NearestElse (p : Program) : Prop :=
  (∀ d ∈ p.definitions, d.NearestElse) ∧ p.main.body.NearestElse

/-! ## §2. Giving an open command its `si-no`. -/

/-- The code with a `si-no` for the `si` it ends in. -/
def Code.attachElse {part : Part} (c : Code part) (otherwise : Token) (no : Command) :
    Code part :=
  match c with
  | .cond keyword test then_ yes =>
    -- a `si` further in is nearer
    if yes.endsOpen then .cond keyword test then_ (yes.attachElse otherwise no)
    else .condElse keyword test then_ yes otherwise no
  | .condElse keyword test then_ yes otherwise' no' =>
    .condElse keyword test then_ yes otherwise' (no'.attachElse otherwise no)
  | .whileDo keyword test do_ body => .whileDo keyword test do_ (body.attachElse otherwise no)
  | .times keyword count unit body => .times keyword count unit (body.attachElse otherwise no)
  | c => c

section AttachElse

variable {part : Part} {c : Code part} {otherwise : Token} {no : Command}

/-- A `si-no` that is attached to what ends open is written at the end, with its branch. -/
theorem Code.written_attachElse (hc : c.endsOpen = true) :
    (c.attachElse otherwise no).written = c.written ++ otherwise :: no.written := by
  induction c with
  | nil | cons | empty | ended | builtin | call | callWith | block =>
    simp [Code.endsOpen] at hc
  | cond keyword test then_ yes ih =>
    unfold Code.attachElse
    split
    · next hyes => simp [Code.written, ih hyes]
    · simp [Code.written]
  | condElse keyword test then_ yes otherwise' no' _ ih =>
    simp [Code.attachElse, Code.written, ih hc]
  | whileDo keyword test do_ body ih => simp [Code.attachElse, Code.written, ih hc]
  | times keyword count unit body ih => simp [Code.attachElse, Code.written, ih hc]

/-- Attaching a branch keeps the whole lenient: no `;` is written between the two branches.  By
induction down the last parts of the command, to the `si` that takes the branch. -/
theorem Code.lenient_attachElse {parens : Bool} {closing : Option Token}
    (hc : c.Lenient parens closing) (ho : otherwise.kind = .else_)
    (hno : no.Lenient parens none) : (c.attachElse otherwise no).Lenient parens closing := by
  induction c generalizing closing with
  | nil | cons | empty | ended | builtin | call | callWith | block => exact hc
  | cond keyword test then_ yes ih =>
    obtain ⟨hk, ht, hth, hyes⟩ := hc
    unfold Code.attachElse
    split
    · exact ⟨hk, ht, hth, ih hyes⟩
    · exact ⟨hk, ht, hth, hyes, ho, hno⟩
  | condElse keyword test then_ yes otherwise' no' _ ih =>
    obtain ⟨hk, ht, hth, hyes, ho', hno'⟩ := hc
    exact ⟨hk, ht, hth, hyes, ho', ih hno'⟩
  | whileDo keyword test do_ body ih =>
    obtain ⟨hk, ht, hd, hbody⟩ := hc
    exact ⟨hk, ht, hd, ih hbody⟩
  | times keyword count unit body ih =>
    obtain ⟨hk, hn, hu, hbody⟩ := hc
    exact ⟨hk, hn, hu, ih hbody⟩

/-- The branch goes to the innermost command that can take it, so every `si-no` is with its nearest
`si` afterwards. -/
theorem Code.nearestElse_attachElse (hc : c.NearestElse) (hno : no.NearestElse) :
    (c.attachElse otherwise no).NearestElse := by
  induction c with
  | nil | cons | empty | ended | builtin | call | callWith | block => exact hc
  | cond keyword test then_ yes ih =>
    unfold Code.attachElse
    split
    · exact ih hc
    · next hyes => exact ⟨by simpa using hyes, hc, hno⟩
  | condElse keyword test then_ yes otherwise' no' _ ih =>
    obtain ⟨hopen, hyes, hno'⟩ := hc
    exact ⟨hopen, hyes, ih hno'⟩
  | whileDo keyword test do_ body ih => exact ih hc
  | times keyword count unit body ih => exact ih hc

end AttachElse

/-! ## §3. Rearranging. -/

/-- The code with every `si-no` at the nearest `si` that can take it. -/
def Code.nearest {part : Part} : Code part → Code part
  | .cons head tail => .cons head.nearest tail.nearest
  | .ended command semicolon => .ended command.nearest semicolon
  | .cond keyword test then_ yes => .cond keyword test then_ yes.nearest
  | .condElse keyword test then_ yes otherwise no =>
    -- the `si-no` moves into the branch in front of it
    if yes.nearest.endsOpen then
      .cond keyword test then_ (yes.nearest.attachElse otherwise no.nearest)
    else .condElse keyword test then_ yes.nearest otherwise no.nearest
  | .whileDo keyword test do_ body => .whileDo keyword test do_ body.nearest
  | .times keyword count unit body => .times keyword count unit body.nearest
  | .block opening body closing => .block opening body.nearest closing
  | c => c

/-- Regrouping moves no token. -/
@[simp] theorem Code.written_nearest {part : Part} (c : Code part) :
    c.nearest.written = c.written := by
  induction c with
  | nil | empty | builtin | call | callWith => rfl
  | condElse keyword test then_ yes otherwise no ihyes ihno =>
    unfold Code.nearest
    split
    · next hopen => simp [Code.written, Code.written_attachElse hopen, ihyes, ihno]
    · simp [Code.written, ihyes, ihno]
  | cons head tail ihhead ihtail => simp [Code.nearest, Code.written, ihhead, ihtail]
  | ended _ _ ih | cond _ _ _ _ ih | whileDo _ _ _ _ ih | times _ _ _ _ ih | block _ _ _ ih =>
    simp [Code.nearest, Code.written, ih]

/-- Regrouped code is lenient if the code was.  Something moves only where the first branch of a
conditional ends open. -/
theorem Code.lenient_nearest {part : Part} {parens : Bool} {closing : Option Token}
    {c : Code part} (hc : c.Lenient parens closing) : c.nearest.Lenient parens closing := by
  induction c generalizing closing with
  | nil | empty | builtin | call | callWith => exact hc
  | cons head tail ihhead ihtail =>
    rcases hc with ⟨hhead, htail⟩ | ⟨hhead, rfl⟩
    · exact .inl ⟨ihhead hhead, ihtail htail⟩
    · exact .inr ⟨ihhead hhead, rfl⟩
  | ended command semicolon ih => exact ⟨ih hc.1, hc.2⟩
  | cond keyword test then_ yes ih =>
    obtain ⟨hk, ht, hth, hyes⟩ := hc
    exact ⟨hk, ht, hth, ih hyes⟩
  | condElse keyword test then_ yes otherwise no ihyes ihno =>
    obtain ⟨hk, ht, hth, hyes, ho, hno⟩ := hc
    unfold Code.nearest
    split
    · exact ⟨hk, ht, hth, Code.lenient_attachElse (ihyes hyes) ho (ihno hno)⟩
    · exact ⟨hk, ht, hth, ihyes hyes, ho, ihno hno⟩
  | whileDo keyword test do_ body ih =>
    obtain ⟨hk, ht, hd, hbody⟩ := hc
    exact ⟨hk, ht, hd, ih hbody⟩
  | times keyword count unit body ih =>
    obtain ⟨hk, hn, hu, hbody⟩ := hc
    exact ⟨hk, hn, hu, ih hbody⟩
  | block opening body closing ih =>
    obtain ⟨ho, hbody, hc⟩ := hc
    exact ⟨ho, ih hbody, hc⟩

/-- Regrouped code has every `si-no` with its nearest `si`. -/
theorem Code.nearestElse_nearest {part : Part} (c : Code part) : c.nearest.NearestElse := by
  induction c with
  | nil | empty | builtin | call | callWith => trivial
  | cons head tail ihhead ihtail => exact ⟨ihhead, ihtail⟩
  | ended _ _ ih | cond _ _ _ _ ih | whileDo _ _ _ _ ih | times _ _ _ _ ih | block _ _ _ ih =>
    exact ih
  | condElse keyword test then_ yes otherwise no ihyes ihno =>
    unfold Code.nearest
    split
    · exact Code.nearestElse_attachElse ihyes ihno
    · next hopen => exact ⟨by simpa using hopen, ihyes, ihno⟩

/-- The definition with every `si-no` at the nearest `si`. -/
def Definition.nearest : Definition → Definition
  | .full keyword name parameter as_ body => .full keyword name parameter as_ body.nearest
  | .prototype keyword name parameter semicolon => .prototype keyword name parameter semicolon

/-- The program with every `si-no` at the nearest `si` that can take it. -/
def Program.nearest (p : Program) : Program :=
  { p with
    definitions := p.definitions.map (·.nearest)
    main := { p.main with body := p.main.body.nearest } }

theorem Program.written_nearest (p : Program) : p.nearest.written = p.written := by
  have hdefinition : ∀ d : Definition, d.nearest.written = d.written := by
    intro d
    cases d with
    | full => simp [Definition.nearest, Definition.written]
    | prototype => rfl
  simp [Program.written, Program.nearest, Main.written, List.flatMap_map, hdefinition]

theorem Program.lenient_nearest {parens : Bool} {p : Program} (hp : p.Lenient parens) :
    p.nearest.Lenient parens := by
  obtain ⟨ho, hd, ⟨hmo, hmb, hmc⟩, hc⟩ := hp
  refine ⟨ho, ?_, ⟨hmo, Code.lenient_nearest hmb, hmc⟩, hc⟩
  intro d' hd'
  obtain ⟨d, hmem, rfl⟩ := List.mem_map.mp hd'
  have hlenient := hd d hmem
  cases d with
  | full keyword name parameter as_ body =>
    obtain ⟨hk, hn, hp, ha, hb⟩ := hlenient
    exact ⟨hk, hn, hp, ha, Code.lenient_nearest hb⟩
  | prototype => exact hlenient

/-- **Every program has a reading in which each `si-no` belongs to its nearest `si`.** -/
theorem Program.nearestElse_nearest (p : Program) : p.nearest.NearestElse := by
  refine ⟨?_, Code.nearestElse_nearest _⟩
  intro d' hd'
  obtain ⟨d, _, rfl⟩ := List.mem_map.mp hd'
  cases d with
  | full => exact Code.nearestElse_nearest _
  | prototype => trivial

end RobotLang.Worded
