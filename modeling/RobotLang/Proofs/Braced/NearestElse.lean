/-
  RobotLang.Proofs.Braced.NearestElse
  ───────────────────────────────────
  **WHICH `if` AN `else` BELONGS TO.**

  The tokens of a program do not always tell where an `else` belongs:

      if (a) if (b) move(); else turnleft();

  is spelled by two trees.  In the one that is meant, an `else` belongs to the
  nearest `if` before it that can still take it, so no `if` with an `else` has
  a first branch that ends in an `if` without one (`Code.NearestElse`).

  Every spelled program can be rearranged into such a one with the same tokens:

      p.nearest.view.tokens = p.view.tokens     p.nearest.NearestElse
-/
import RobotLang.Proofs.Braced.Reading

namespace RobotLang.Braced

/-! ## §1. Open statements. -/

/-- Whether the code ends in an `if` that could still take an `else`. -/
def Code.endsOpen {part : Part} : Code part → Bool
  | .cond .. => true
  | .condElse _ _ _ _ _ _ no => no.endsOpen
  | .whileDo _ _ _ _ body => body.endsOpen
  | .times _ _ _ _ body => body.endsOpen
  | .nil | .cons .. | .empty .. | .builtin .. | .call .. | .block .. => false

/-- Every `else` belongs to the nearest `if` before it that can take it. -/
def Code.NearestElse {part : Part} : Code part → Prop
  | .nil | .empty .. | .builtin .. | .call .. => True
  | .cons head tail => head.NearestElse ∧ tail.NearestElse
  | .cond _ _ _ _ yes => yes.NearestElse
  | .condElse _ _ _ _ yes _ no => yes.endsOpen = false ∧ yes.NearestElse ∧ no.NearestElse
  | .whileDo _ _ _ _ body => body.NearestElse
  | .times _ _ _ _ body => body.NearestElse
  | .block _ body _ => body.NearestElse

/-- Every `else` in the definition belongs to the nearest `if`. -/
def Definition.NearestElse (d : Definition) : Prop :=
  d.block.body.NearestElse

/-- Every `else` of the program belongs to the nearest `if` before it that can
take it. -/
def Program.NearestElse (p : Program) : Prop :=
  (∀ d ∈ p.definitions, d.NearestElse) ∧ p.main.block.body.NearestElse

theorem Code.nearestElse_ofList {ss : List Statement} :
    (Code.ofList ss).NearestElse ↔ ∀ s ∈ ss, s.NearestElse := by
  induction ss with
  | nil => simp [Code.ofList, Code.NearestElse]
  | cons s ss ih => simp [Code.ofList, Code.NearestElse, ih]

/-! ## §2. Giving an open statement its `else`. -/

/-- The code with an `else` for the `if` it ends in. -/
def Code.attachElse {part : Part} (c : Code part) (otherwise : Token) (no : Statement) :
    Code part :=
  match c with
  | .cond keyword left test right yes =>
    -- an `if` further in is nearer
    if yes.endsOpen then .cond keyword left test right (yes.attachElse otherwise no)
    else .condElse keyword left test right yes otherwise no
  | .condElse keyword left test right yes otherwise' no' =>
    .condElse keyword left test right yes otherwise' (no'.attachElse otherwise no)
  | .whileDo keyword left test right body =>
    .whileDo keyword left test right (body.attachElse otherwise no)
  | .times keyword left count right body =>
    .times keyword left count right (body.attachElse otherwise no)
  | c => c

section AttachElse

variable {part : Part} {c : Code part} {otherwise : Token} {no : Statement}

/-- An "else" that is attached to what ends open stands at the end, with its branch. -/
theorem Code.tokens_attachElse (hc : c.endsOpen = true) :
    (c.attachElse otherwise no).children.tokens
      = c.children.tokens ++ otherwise :: no.children.tokens := by
  induction c with
  | nil | cons | empty | builtin | call | block => simp [Code.endsOpen] at hc
  | cond keyword left test right yes ih =>
    unfold Code.attachElse
    split
    · next hyes => simp [Code.children, ih hyes]
    · simp [Code.children]
  | condElse keyword left test right yes otherwise' no' _ ih =>
    simp [Code.attachElse, Code.children, ih hc]
  | whileDo keyword left test right body ih => simp [Code.attachElse, Code.children, ih hc]
  | times keyword left count right body ih => simp [Code.attachElse, Code.children, ih hc]

/-- Attaching a spelled branch keeps the whole spelled.  By induction down the last parts of the
code, to the `if` that takes the branch. -/
theorem Code.spelled_attachElse {parens : Bool} (hc : c.Spelled parens)
    (ho : otherwise.kind = .else_) (hno : no.Spelled parens) :
    (c.attachElse otherwise no).Spelled parens := by
  induction c with
  | nil | cons | empty | builtin | call | block => exact hc
  | cond keyword left test right yes ih =>
    obtain ⟨hk, hl, ht, hr, hyes⟩ := hc
    unfold Code.attachElse
    split
    · exact ⟨hk, hl, ht, hr, ih hyes⟩
    · exact ⟨hk, hl, ht, hr, hyes, ho, hno⟩
  | condElse keyword left test right yes otherwise' no' _ ih =>
    obtain ⟨hk, hl, ht, hr, hyes, ho', hno'⟩ := hc
    exact ⟨hk, hl, ht, hr, hyes, ho', ih hno'⟩
  | whileDo keyword left test right body ih =>
    obtain ⟨hk, hl, ht, hr, hbody⟩ := hc
    exact ⟨hk, hl, ht, hr, ih hbody⟩
  | times keyword left count right body ih =>
    obtain ⟨hk, hl, hn, hr, hbody⟩ := hc
    exact ⟨hk, hl, hn, hr, ih hbody⟩

/-- The branch goes to the innermost statement that can take it, so every "else" is with its nearest
"if" afterwards. -/
theorem Code.nearestElse_attachElse (hc : c.NearestElse) (hno : no.NearestElse) :
    (c.attachElse otherwise no).NearestElse := by
  induction c with
  | nil | cons | empty | builtin | call | block => exact hc
  | cond keyword left test right yes ih =>
    unfold Code.attachElse
    split
    · exact ih hc
    · next hyes => exact ⟨by simpa using hyes, hc, hno⟩
  | condElse keyword left test right yes otherwise' no' _ ih =>
    obtain ⟨hopen, hyes, hno'⟩ := hc
    exact ⟨hopen, hyes, ih hno'⟩
  | whileDo keyword left test right body ih => exact ih hc
  | times keyword left count right body ih => exact ih hc

end AttachElse

/-! ## §3. Rearranging. -/

/-- The code with every `else` at the nearest `if` that can take it. -/
def Code.nearest {part : Part} : Code part → Code part
  | .cons head tail => .cons head.nearest tail.nearest
  | .cond keyword left test right yes => .cond keyword left test right yes.nearest
  | .condElse keyword left test right yes otherwise no =>
    -- the `else` moves into the branch in front of it
    if yes.nearest.endsOpen then
      .cond keyword left test right (yes.nearest.attachElse otherwise no.nearest)
    else .condElse keyword left test right yes.nearest otherwise no.nearest
  | .whileDo keyword left test right body => .whileDo keyword left test right body.nearest
  | .times keyword left count right body => .times keyword left count right body.nearest
  | .block left body right => .block left body.nearest right
  | c => c

/-- Regrouping moves no token. -/
@[simp] theorem Code.tokens_nearest {part : Part} (c : Code part) :
    c.nearest.children.tokens = c.children.tokens := by
  induction c with
  | nil | empty | builtin | call => rfl
  | condElse keyword left test right yes otherwise no ihyes ihno =>
    unfold Code.nearest
    split
    · next hopen => simp [Code.children, Code.tokens_attachElse hopen, ihyes, ihno]
    · simp [Code.children, ihyes, ihno]
  | cons head tail ihhead ihtail => simp [Code.nearest, Code.children, ihhead, ihtail]
  | cond _ _ _ _ _ ih | whileDo _ _ _ _ _ ih | times _ _ _ _ _ ih | block _ _ _ ih =>
    simp [Code.nearest, Code.children, ih]

/-- Regrouped code is spelled if the code was.  Something moves only where the first branch of a
conditional ends open. -/
theorem Code.spelled_nearest {part : Part} {parens : Bool} {c : Code part}
    (hc : c.Spelled parens) : c.nearest.Spelled parens := by
  induction c with
  | nil | empty | builtin | call => exact hc
  | cons head tail ihhead ihtail => exact ⟨ihhead hc.1, ihtail hc.2⟩
  | cond keyword left test right yes ih =>
    obtain ⟨hk, hl, ht, hr, hyes⟩ := hc
    exact ⟨hk, hl, ht, hr, ih hyes⟩
  | condElse keyword left test right yes otherwise no ihyes ihno =>
    obtain ⟨hk, hl, ht, hr, hyes, ho, hno⟩ := hc
    unfold Code.nearest
    split
    · exact ⟨hk, hl, ht, hr, Code.spelled_attachElse (ihyes hyes) ho (ihno hno)⟩
    · exact ⟨hk, hl, ht, hr, ihyes hyes, ho, ihno hno⟩
  | whileDo keyword left test right body ih =>
    obtain ⟨hk, hl, ht, hr, hbody⟩ := hc
    exact ⟨hk, hl, ht, hr, ih hbody⟩
  | times keyword left count right body ih =>
    obtain ⟨hk, hl, hn, hr, hbody⟩ := hc
    exact ⟨hk, hl, hn, hr, ih hbody⟩
  | block left body right ih =>
    obtain ⟨hl, hbody, hr⟩ := hc
    exact ⟨hl, ih hbody, hr⟩

/-- Regrouped code has every "else" with its nearest "if". -/
theorem Code.nearestElse_nearest {part : Part} (c : Code part) : c.nearest.NearestElse := by
  induction c with
  | nil | empty | builtin | call => trivial
  | cons head tail ihhead ihtail => exact ⟨ihhead, ihtail⟩
  | cond _ _ _ _ _ ih | whileDo _ _ _ _ _ ih | times _ _ _ _ _ ih | block _ _ _ ih => exact ih
  | condElse keyword left test right yes otherwise no ihyes ihno =>
    unfold Code.nearest
    split
    · exact Code.nearestElse_attachElse ihyes ihno
    · next hopen => exact ⟨by simpa using hopen, ihyes, ihno⟩

/-- The block with every `else` at the nearest `if`. -/
def Block.nearest (b : Block) : Block :=
  { b with body := b.body.nearest }

/-- The definition with every `else` at the nearest `if`. -/
def Definition.nearest (d : Definition) : Definition :=
  { d with block := d.block.nearest }

/-- The program with every `else` at the nearest `if` that can take it. -/
def Program.nearest (p : Program) : Program :=
  { p with
    definitions := p.definitions.map (·.nearest)
    main := { p.main with block := p.main.block.nearest } }

/-- Regrouping a program moves no token, so both trees are written the same. -/
theorem Program.tokens_nearest (p : Program) : p.nearest.view.tokens = p.view.tokens := by
  have hblock : ∀ b : Block, b.nearest.view.tokens = b.view.tokens := by
    intro b
    simp [Block.tokens_view, Block.nearest]
  have hdefinition : ∀ d : Definition, d.nearest.view.tokens = d.view.tokens := by
    intro d
    simp [Definition.tokens_view, Definition.nearest, hblock]
  simp [Program.tokens_view, Program.nearest, Main.tokens_view, hblock, List.flatMap_map,
    hdefinition]

theorem Program.spelled_nearest {parens : Bool} {p : Program} (hp : p.Spelled parens) :
    p.nearest.Spelled parens := by
  have hblock : ∀ b : Block, b.Spelled parens → b.nearest.Spelled parens :=
    fun b ⟨hl, hbody, hr⟩ => ⟨hl, Code.spelled_nearest hbody, hr⟩
  obtain ⟨hk, hn, hl, hd, ⟨hmk, hml, hmr, hmb⟩, hr⟩ := hp
  refine ⟨hk, hn, hl, ?_, ⟨hmk, hml, hmr, hblock _ hmb⟩, hr⟩
  intro d' hd'
  obtain ⟨d, hmem, rfl⟩ := List.mem_map.mp hd'
  obtain ⟨hdk, hdn, hdp, hdb⟩ := hd d hmem
  exact ⟨hdk, hdn, hdp, hblock _ hdb⟩

/-- **Every program has a reading in which each "else" belongs to its nearest "if".** -/
theorem Program.nearestElse_nearest (p : Program) : p.nearest.NearestElse := by
  refine ⟨fun d' hd' => ?_, Code.nearestElse_nearest _⟩
  obtain ⟨d, _, rfl⟩ := List.mem_map.mp hd'
  exact Code.nearestElse_nearest _

end RobotLang.Braced
