/-
  RobotLang.Proofs.Worded.Rereading
  ─────────────────────────────────
  **A PROGRAM IS READ AGAIN FROM ITS OWN TOKENS.**

  Whatever repairs led to a program, the program that they led to is a good one:
  its tokens are what their places ask for, and every `si-no` belongs to the
  nearest `si` before it that can take it.  So with each `;` that was put in
  standing in the source, the same program is read, and nothing is repaired:

      program s ts                           =  ⟨p, rest, complaints⟩
      program s (p.view.tokens.map present)  =  ⟨p.map present, [], []⟩
-/
import RobotLang.Proofs.Replacing
import RobotLang.Proofs.Worded.Leniency

namespace RobotLang

open Rule

/-! ## §1. Spelled trees with other tokens. -/

section Spelled

variable {f : Token → Token} (hkind : ∀ t, (f t).kind = t.kind)
  (himage : ∀ t, t.kind = .integerLiteral → (f t).image = t.image)

include hkind himage

/-- Numbers stay spelled when their tokens are exchanged for others of the same kind, with the same
text for literals. -/
theorem Integer.spelled_map {n : Integer} (hn : n.Spelled) : (n.map f).Spelled := by
  induction n with
  | name token => exact (hkind token).trans hn
  | literal token value =>
    obtain ⟨hk, hvalue⟩ := hn
    exact ⟨(hkind token).trans hk, by rwa [himage token hk]⟩
  | succ keyword left inner right ih | pred keyword left inner right ih =>
    obtain ⟨hk, hl, hi, hr⟩ := hn
    exact ⟨(hkind keyword).trans hk, (hkind left).trans hl, ih hi, (hkind right).trans hr⟩

/-- Conditions stay spelled as well, since a clause asks for kinds and for the numbers in it. -/
theorem Condition.spelled_map {parens : Bool} {level : Level} {c : Condition level}
    (hc : c.Spelled parens) : (c.map f).Spelled parens := by
  induction c with
  | conj c ih | lit c ih | plain c ih => exact ih hc
  | or left operator right ihleft ihright | and left operator right ihleft ihright =>
    obtain ⟨hl, ho, hr⟩ := hc
    exact ⟨ihleft hl, (hkind operator).trans ho, ihright hr⟩
  | not operator c ih => exact ⟨(hkind operator).trans hc.1, ih hc.2⟩
  | isZero keyword left number right =>
    obtain ⟨hk, hl, hn, hr⟩ := hc
    exact ⟨(hkind keyword).trans hk, (hkind left).trans hl, Integer.spelled_map hkind himage hn,
      (hkind right).trans hr⟩
  | sensor question keyword => exact (hkind keyword).trans hc
  | sensorCall question keyword left right =>
    obtain ⟨hp, hk, hl, hr⟩ := hc
    exact ⟨hp, (hkind keyword).trans hk, (hkind left).trans hl, (hkind right).trans hr⟩
  | paren left c right ih =>
    obtain ⟨hl, hc, hr⟩ := hc
    exact ⟨(hkind left).trans hl, ih hc, (hkind right).trans hr⟩

omit himage in
theorem Parameter.spelled_map {p : Parameter} (hp : p.Spelled) : (p.map f).Spelled := by
  obtain ⟨hl, hn, hr⟩ := hp
  refine ⟨(hkind p.left).trans hl, ?_, (hkind p.right).trans hr⟩
  intro name hname
  obtain ⟨name', hname', rfl⟩ := Option.mem_map.mp hname
  exact (hkind name').trans (hn name' hname')

namespace Worded

/-- Exchanging tokens keeps code spelled, since that is about the kinds of tokens and the texts of
literals only. -/
theorem Code.spelled_map {parens : Bool} {part : Part} {c : Code part} (hc : c.Spelled parens) :
    (c.map f).Spelled parens := by
  induction c with
  | nil => trivial
  | cons head tail ihhead ihtail => exact ⟨ihhead hc.1, ihtail hc.2⟩
  | empty semicolon => exact (hkind semicolon).trans hc
  | ended command semicolon ih => exact ⟨ih hc.1, (hkind semicolon).trans hc.2⟩
  | builtin action keyword =>
    show Builtin.ofKind? (f keyword).kind = some action
    rw [hkind]
    exact hc
  | call name => exact (hkind name).trans hc
  | callWith name left argument right =>
    obtain ⟨hn, hl, ha, hr⟩ := hc
    exact ⟨(hkind name).trans hn, (hkind left).trans hl, Integer.spelled_map hkind himage ha,
      (hkind right).trans hr⟩
  | cond keyword test then_ yes ih =>
    obtain ⟨hk, ht, hth, hyes⟩ := hc
    exact ⟨(hkind keyword).trans hk, Condition.spelled_map hkind himage ht,
      (hkind then_).trans hth, ih hyes⟩
  | condElse keyword test then_ yes otherwise no ihyes ihno =>
    obtain ⟨hk, ht, hth, hyes, ho, hno⟩ := hc
    exact ⟨(hkind keyword).trans hk, Condition.spelled_map hkind himage ht,
      (hkind then_).trans hth, ihyes hyes, (hkind otherwise).trans ho, ihno hno⟩
  | whileDo keyword test do_ body ih =>
    obtain ⟨hk, ht, hd, hbody⟩ := hc
    exact ⟨(hkind keyword).trans hk, Condition.spelled_map hkind himage ht, (hkind do_).trans hd,
      ih hbody⟩
  | times keyword count unit body ih =>
    obtain ⟨hk, hn, hu, hbody⟩ := hc
    exact ⟨(hkind keyword).trans hk, Integer.spelled_map hkind himage hn, (hkind unit).trans hu,
      ih hbody⟩
  | block opening body closing ih =>
    obtain ⟨ho, hbody, hcl⟩ := hc
    exact ⟨(hkind opening).trans ho, ih hbody, (hkind closing).trans hcl⟩

theorem Definition.spelled_map {parens : Bool} {d : Definition} (hd : d.Spelled parens) :
    (d.map f).Spelled parens := by
  have hparameter {parameter : Option Parameter} (h : ∀ p ∈ parameter, p.Spelled) :
      ∀ p ∈ parameter.map (Parameter.map f), p.Spelled := by
    intro p hp
    obtain ⟨p', hp', rfl⟩ := Option.mem_map.mp hp
    exact Parameter.spelled_map hkind (h p' hp')
  cases d with
  | full keyword name parameter as_ body =>
    obtain ⟨hk, hn, hp, ha, hb⟩ := hd
    exact ⟨(hkind keyword).trans hk, (hkind name).trans hn, hparameter hp, (hkind as_).trans ha,
      Code.spelled_map hkind himage hb⟩
  | prototype keyword name parameter semicolon =>
    obtain ⟨hk, hn, hp, hs⟩ := hd
    exact ⟨(hkind keyword).trans hk, (hkind name).trans hn, hparameter hp,
      (hkind semicolon).trans hs⟩

/-- A program stays spelled when its tokens are exchanged: what is asked of a token is its kind, and
the text if it is a literal. -/
theorem Program.spelled_map {parens : Bool} {p : Program} (hp : p.Spelled parens) :
    (p.map f).Spelled parens := by
  obtain ⟨ho, hd, ⟨hmo, hmb, hmc⟩, hc⟩ := hp
  refine ⟨(hkind p.opening).trans ho, ?_, ⟨(hkind p.main.opening).trans hmo,
    Code.spelled_map hkind himage hmb, (hkind p.main.closing).trans hmc⟩,
    (hkind p.closing).trans hc⟩
  intro d' hd'
  obtain ⟨d, hmem, rfl⟩ := List.mem_map.mp hd'
  exact Definition.spelled_map hkind himage (hd d hmem)

end Worded

end Spelled

namespace Worded

variable {f : Token → Token}

/-- Whether a command could take one more `si-no` is a matter of its form. -/
@[simp] theorem Code.endsOpen_map {part : Part} (c : Code part) :
    (c.map f).endsOpen = c.endsOpen := by
  induction c with
  | nil | cons | empty | ended | builtin | call | callWith | cond | block => rfl
  | condElse _ _ _ _ _ _ _ ih => exact ih
  | whileDo _ _ _ _ ih | times _ _ _ _ ih => exact ih

/-- Which `si` a `si-no` belongs to is a matter of the form of the tree, not of its tokens. -/
theorem Code.nearestElse_map {part : Part} {c : Code part} (hc : c.NearestElse) :
    (c.map f).NearestElse := by
  induction c with
  | nil | empty | builtin | call | callWith => trivial
  | cons head tail ihhead ihtail => exact ⟨ihhead hc.1, ihtail hc.2⟩
  | ended _ _ ih | cond _ _ _ _ ih | whileDo _ _ _ _ ih | times _ _ _ _ ih | block _ _ _ ih =>
    exact ih hc
  | condElse keyword test then_ yes otherwise no ihyes ihno =>
    obtain ⟨hopen, hyes, hno⟩ := hc
    exact ⟨(Code.endsOpen_map yes).trans hopen, ihyes hyes, ihno hno⟩

theorem Program.nearestElse_map {p : Program} (hp : p.NearestElse) : (p.map f).NearestElse := by
  obtain ⟨hd, hmain⟩ := hp
  refine ⟨?_, Code.nearestElse_map hmain⟩
  intro d' hd'
  obtain ⟨d, hmem, rfl⟩ := List.mem_map.mp hd'
  have hnearest := hd d hmem
  cases d with
  | full => exact Code.nearestElse_map hnearest
  | prototype => trivial

/-! ## §2. A program with all of its `;` in the source. -/

/-- A spelled program none of whose tokens was put in is written as it stands.  By induction on the
code; every statement has a `;` of its own, and so the closing word does not matter. -/
theorem Code.lenient_of_spelled {parens : Bool} {part : Part} {c : Code part}
    (hc : c.Spelled parens) (hin : ∀ t ∈ c.children.tokens, t.inserted = false)
    (closing : Option Token) : c.Lenient parens closing ∧ c.written = c.children.tokens := by
  induction c generalizing closing with
  | nil => exact ⟨trivial, rfl⟩
  | cons head tail ihhead ihtail =>
    simp only [Code.children, Forest.tokens_branch, List.forall_mem_append] at hin
    -- every statement has a `;` of its own, so none needs the word that closes the list
    obtain ⟨hhead, hwhead⟩ := ihhead hc.1 hin.1 none
    obtain ⟨htail, hwtail⟩ := ihtail hc.2 hin.2 closing
    exact ⟨.inl ⟨hhead, htail⟩, by simp [Code.written, Code.children, hwhead, hwtail]⟩
  | empty semicolon => exact ⟨hc, rfl⟩
  | ended command semicolon ih =>
    simp only [Code.children, Forest.tokens_branch, Forest.tokens_ofToken,
      List.forall_mem_append, List.forall_mem_singleton] at hin
    obtain ⟨hcommand, hwcommand⟩ := ih hc.1 hin.1 none
    refine ⟨⟨hcommand, .inl ⟨hc.2, hin.2⟩⟩, ?_⟩
    simp [Code.written, Code.children, sourceOf, hin.2, hwcommand]
  | builtin action keyword => exact ⟨hc, rfl⟩
  | call name => exact ⟨hc, rfl⟩
  | callWith name left argument right =>
    exact ⟨hc, by simp [Code.written, Code.children]⟩
  | cond keyword test then_ yes ih =>
    obtain ⟨hk, ht, hth, hyes⟩ := hc
    simp only [Code.children, Forest.tokens_branch, Forest.tokens_leaf, Forest.tokens_nil,
      List.append_nil, List.forall_mem_cons, List.forall_mem_append] at hin
    obtain ⟨hlenient, hwritten⟩ := ih hyes hin.2.2.2 none
    exact ⟨⟨hk, ht, hth, hlenient⟩, by simp [Code.written, Code.children, hwritten]⟩
  | condElse keyword test then_ yes otherwise no ihyes ihno =>
    obtain ⟨hk, ht, hth, hyes, ho, hno⟩ := hc
    simp only [Code.children, Forest.tokens_branch, Forest.tokens_leaf, Forest.tokens_nil,
      List.append_nil, List.forall_mem_cons, List.forall_mem_append] at hin
    obtain ⟨hlenient, hwritten⟩ := ihyes hyes hin.2.2.2.1 none
    obtain ⟨hlenient', hwritten'⟩ := ihno hno hin.2.2.2.2.2 none
    exact ⟨⟨hk, ht, hth, hlenient, ho, hlenient'⟩,
      by simp [Code.written, Code.children, hwritten, hwritten']⟩
  | whileDo keyword test do_ body ih =>
    obtain ⟨hk, ht, hd, hbody⟩ := hc
    simp only [Code.children, Forest.tokens_branch, Forest.tokens_leaf, Forest.tokens_nil,
      List.append_nil, List.forall_mem_cons, List.forall_mem_append] at hin
    obtain ⟨hlenient, hwritten⟩ := ih hbody hin.2.2.2 none
    exact ⟨⟨hk, ht, hd, hlenient⟩, by simp [Code.written, Code.children, hwritten]⟩
  | times keyword count unit body ih =>
    obtain ⟨hk, hn, hu, hbody⟩ := hc
    simp only [Code.children, Forest.tokens_branch, Forest.tokens_leaf, Forest.tokens_nil,
      List.append_nil, List.forall_mem_cons, List.forall_mem_append] at hin
    obtain ⟨hlenient, hwritten⟩ := ih hbody hin.2.2.2 none
    exact ⟨⟨hk, hn, hu, hlenient⟩, by simp [Code.written, Code.children, hwritten]⟩
  | block opening body closing' ih =>
    obtain ⟨ho, hbody, hcl⟩ := hc
    simp only [Code.children, Forest.tokens_branch, Forest.tokens_leaf, Forest.tokens_append,
      Forest.tokens_nil, List.append_nil, List.forall_mem_cons, List.forall_mem_append] at hin
    obtain ⟨hlenient, hwritten⟩ := ih hbody hin.2.1 (some closing')
    exact ⟨⟨ho, hlenient, hcl⟩, by simp [Code.written, Code.children, hwritten]⟩

/-- A spelled definition is lenient, and all of it is written if nothing was put in. -/
theorem Definition.lenient_of_spelled {parens : Bool} {d : Definition} (hd : d.Spelled parens)
    (hin : ∀ t ∈ d.view.tokens, t.inserted = false) :
    d.Lenient parens ∧ d.written = d.view.tokens := by
  cases d with
  | full keyword name parameter as_ body =>
    obtain ⟨hk, hn, hp, ha, hb⟩ := hd
    have hbody : ∀ t ∈ body.children.tokens, t.inserted = false := by
      intro t ht
      exact hin t (by simp [Definition.view, Node.tokens, ht])
    obtain ⟨hlenient, hwritten⟩ := Code.lenient_of_spelled hb hbody none
    exact ⟨⟨hk, hn, hp, ha, hlenient⟩,
      by simp [Definition.written, Definition.view, Node.tokens, hwritten]⟩
  | prototype keyword name parameter semicolon =>
    exact ⟨hd, by simp [Definition.written, Definition.view, Node.tokens]⟩

theorem Program.lenient_of_spelled {parens : Bool} {p : Program} (hp : p.Spelled parens)
    (hin : ∀ t ∈ p.view.tokens, t.inserted = false) :
    p.Lenient parens ∧ p.written = p.view.tokens := by
  obtain ⟨ho, hd, ⟨hmo, hmb, hmc⟩, hc⟩ := hp
  rw [Program.tokens_view, Main.tokens_view] at hin
  have hdefinition : ∀ d ∈ p.definitions, d.Lenient parens ∧ d.written = d.view.tokens := by
    intro d hmem
    refine Definition.lenient_of_spelled (hd d hmem) fun t ht => hin t ?_
    simp only [List.cons_append, List.append_assoc, List.mem_cons, List.mem_append]
    exact .inr (.inl (List.mem_flatMap_of_mem hmem ht))
  obtain ⟨hmain, hwmain⟩ := Code.lenient_of_spelled hmb
    (fun t ht => hin t (by simp [ht])) (some p.main.closing)
  refine ⟨⟨ho, fun d hmem => (hdefinition d hmem).1, ⟨hmo, hmain, hmc⟩, hc⟩, ?_⟩
  have hwdefinitions : p.definitions.flatMap (·.written)
      = p.definitions.flatMap (·.view.tokens) := by
    rw [List.flatMap_def, List.flatMap_def,
      List.map_congr_left fun d hmem => (hdefinition d hmem).2]
  rw [Program.written, Program.tokens_view, Main.written, Main.tokens_view, hwmain,
    hwdefinitions]

/-! ## §3. Whatever is read has its `si-no`s at the nearest `si`s. -/

variable {α β : Type} {s : Setting}

/-- What the rule ends with is `good`. -/
def Yields (rule : Rule α) (s : Setting) (good : α → Prop) : Prop :=
  ∀ ⦃ts a rest cs⦄, Ends rule s ts a rest cs → good a

theorem Yields.pure {good : α → Prop} {a : α} (ha : good a) : Yields (pure a) s good := by
  intro ts a' rest cs he
  obtain ⟨rfl, -, -⟩ := ends_pure.mp he
  exact ha

/-- What is said of the second result may rest on what is known of the first. -/
theorem Yields.bind {first : Rule α} {next : α → Rule β} {fine : α → Prop} {good : β → Prop}
    (hfirst : Yields first s fine) (hnext : ∀ a, fine a → Yields (next a) s good) :
    Yields (first >>= next) s good := by
  intro ts b rest cs he
  obtain ⟨a, _, _, _, ha, hb, -⟩ := ends_bind.mp he
  exact hnext a (hfirst ha) hb

/-- What comes first may not matter. -/
theorem Yields.after {first : Rule α} {next : α → Rule β} {good : β → Prop}
    (hnext : ∀ a, Yields (next a) s good) : Yields (first >>= next) s good := by
  have hfirst : Yields first s fun _ => True := fun _ _ _ _ _ => trivial
  exact hfirst.bind fun a _ => hnext a

/-- The items of a list are `good` if each item is. -/
theorem Yields.list {first resync : List Kind} {closer : Kind} {item : Rule α}
    {good : α → Prop} (h : Yields item s good) :
    Yields (list first closer resync item) s (∀ a ∈ ·, good a) := by
  have hbound : ∀ bound, Yields (listUpTo first closer resync item bound) s (∀ a ∈ ·, good a) := by
    intro bound
    induction bound with
    | zero => exact .pure (List.forall_mem_nil _)
    | succ bound ih =>
      refine .after fun isItem => ?_
      cases isItem with
      | true =>
        exact h.bind fun a ha => ih.bind fun as has => .pure (List.forall_mem_cons.mpr ⟨ha, has⟩)
      | false =>
        refine .after fun resumed => ?_
        cases resumed with
        | true => exact ih
        | false => exact .pure (List.forall_mem_nil _)
  exact fun ts _ _ _ he => hbound ts.length he

/-- The items of a repetition are `good` if each item is. -/
theorem Yields.many {starts : List Kind} {item : Rule α} {good : α → Prop}
    (h : Yields item s good) : Yields (many starts item) s (∀ a ∈ ·, good a) := by
  have hbound : ∀ bound, Yields (manyUpTo starts item bound) s (∀ a ∈ ·, good a) := by
    intro bound
    induction bound with
    | zero => exact .pure (List.forall_mem_nil _)
    | succ bound ih =>
      refine .after fun isItem => ?_
      cases isItem with
      | true =>
        exact h.bind fun a ha => ih.bind fun as has => .pure (List.forall_mem_cons.mpr ⟨ha, has⟩)
      | false => exact .pure (List.forall_mem_nil _)
  exact fun ts _ _ _ he => hbound ts.length he

/-- Statements in a list do not share their `si-no`s. -/
theorem Code.nearestElse_ofList {ss : List Statement} (h : ∀ c ∈ ss, c.NearestElse) :
    (Code.ofList ss).NearestElse := by
  induction ss with
  | nil => trivial
  | cons c ss ih =>
    rw [List.forall_mem_cons] at h
    exact ⟨h.1, ih h.2⟩

/-- The rule gives each `si-no` to the nearest `si`, and leaves none behind that its command could
take. -/
def Attaches (rule : Rule Command) (s : Setting) : Prop :=
  ∀ ⦃ts c rest cs⦄, Ends rule s ts c rest cs →
    c.NearestElse ∧ (c.endsOpen = true → (front s rest).kind ≠ .else_)

section Commands

variable {command : Rule Command} (h : Attaches command s)

include h

/-- A statement ends with its `;`, so nothing behind it can belong to its command. -/
theorem yields_statementOf (follow : List Kind) :
    Yields (statementOf command follow) s Code.NearestElse := by
  have hcommand : Yields command s Code.NearestElse := fun _ _ _ _ he => (h he).1
  refine .after fun isCommand => ?_
  cases isCommand with
  | true => exact hcommand.bind fun _ hnearest => .after fun _ => .pure hnearest
  | false => exact .after fun _ => .pure trivial

/-- A conditional that took no `si-no` has none behind it; one that took it hands the question on to
its second branch. -/
theorem attaches_cond : Attaches (cond command) s := by
  intro ts c rest cs he
  obtain ⟨keyword, _, _, _, -, he₁, -⟩ := ends_bind.mp he
  obtain ⟨test, _, _, _, -, he₂, -⟩ := ends_bind.mp he₁
  obtain ⟨then_, _, _, _, -, he₃, -⟩ := ends_bind.mp he₂
  obtain ⟨yes, mid, _, _, hyes, he₄, -⟩ := ends_bind.mp he₃
  obtain ⟨hnearest, hopen⟩ := h hyes
  rw [ends_eat_bind] at he₄
  by_cases helse : (front s mid).kind = .else_
  · -- a command that could take the `si-no` would have done so
    rw [if_pos helse] at he₄
    obtain ⟨no, _, _, _, hno, he₅, -⟩ := ends_bind.mp he₄
    obtain ⟨rfl, rfl, -⟩ := ends_pure.mp he₅
    obtain ⟨hnearest', hopen'⟩ := h hno
    refine ⟨⟨?_, hnearest, hnearest'⟩, hopen'⟩
    rw [Bool.eq_false_iff]
    exact fun hends => hopen hends helse
  · rw [if_neg helse] at he₄
    obtain ⟨rfl, rfl, -⟩ := ends_pure.mp he₄
    exact ⟨hnearest, fun _ => helse⟩

/-- Behind a loop stands what stands behind its body. -/
theorem attaches_whileDo : Attaches (whileDo command) s := by
  intro ts c rest cs he
  obtain ⟨keyword, _, _, _, -, he₁, -⟩ := ends_bind.mp he
  obtain ⟨test, _, _, _, -, he₂, -⟩ := ends_bind.mp he₁
  obtain ⟨do_, _, _, _, -, he₃, -⟩ := ends_bind.mp he₂
  obtain ⟨body, _, _, _, hbody, he₄, -⟩ := ends_bind.mp he₃
  obtain ⟨rfl, rfl, -⟩ := ends_pure.mp he₄
  exact ⟨(h hbody).1, (h hbody).2⟩

/-- Behind a repetition stands what stands behind its body. -/
theorem attaches_times : Attaches (times command) s := by
  intro ts c rest cs he
  obtain ⟨keyword, _, _, _, -, he₁, -⟩ := ends_bind.mp he
  obtain ⟨count, _, _, _, -, he₂, -⟩ := ends_bind.mp he₁
  obtain ⟨unit, _, _, _, -, he₃, -⟩ := ends_bind.mp he₂
  obtain ⟨body, _, _, _, hbody, he₄, -⟩ := ends_bind.mp he₃
  obtain ⟨rfl, rfl, -⟩ := ends_pure.mp he₄
  exact ⟨(h hbody).1, (h hbody).2⟩

/-- A block is closed by its last word, so it ends no conditional that could take more. -/
theorem attaches_block : Attaches (block command) s := by
  intro ts c rest cs he
  obtain ⟨opening, _, _, _, -, he₁, -⟩ := ends_bind.mp he
  obtain ⟨body, _, _, _, hbody, he₂, -⟩ := ends_bind.mp he₁
  obtain ⟨closing, _, _, _, -, he₃, -⟩ := ends_bind.mp he₂
  obtain ⟨rfl, -, -⟩ := ends_pure.mp he₃
  refine ⟨Code.nearestElse_ofList ?_, fun hends => absurd hends (by simp [Code.endsOpen])⟩
  exact (yields_statementOf h blockFollow).list hbody

end Commands

theorem attaches_call : Attaches call s := by
  intro ts c rest cs he
  obtain ⟨name, mid, _, _, -, he₁, -⟩ := ends_bind.mp he
  rw [ends_eat_bind] at he₁
  split at he₁
  · obtain ⟨argument, _, _, _, -, he₂, -⟩ := ends_bind.mp he₁
    obtain ⟨right, _, _, _, -, he₃, -⟩ := ends_bind.mp he₂
    obtain ⟨rfl, -, -⟩ := ends_pure.mp he₃
    exact ⟨trivial, fun hends => absurd hends (by simp [Code.endsOpen])⟩
  · obtain ⟨rfl, -, -⟩ := ends_pure.mp he₁
    exact ⟨trivial, fun hends => absurd hends (by simp [Code.endsOpen])⟩

/-- Whatever the first token chooses, if the commands nested in it attach. -/
theorem attaches_commandStep {inner : Rule Command} (h : Attaches inner s) :
    Attaches (commandStep inner) s := by
  intro ts c rest cs he
  rw [commandStep, ends_peek_bind] at he
  split at he
  · exact attaches_call he
  · exact attaches_cond h he
  · exact attaches_whileDo h he
  · exact attaches_times h he
  · exact attaches_block h he
  · split at he
    · rw [ends_advance_bind] at he
      obtain ⟨rfl, -, -⟩ := ends_pure.mp he
      exact ⟨trivial, fun hends => absurd hends (by simp [Code.endsOpen])⟩
    · exact absurd he ends_noViable

/-- Nesting keeps the promise, layer by layer. -/
theorem attaches_nested {step : Rule Command → Rule Command} {starts : List Kind}
    (h : ∀ inner, Attaches inner s → Attaches (step inner) s) :
    Attaches (nested step starts) s :=
  fun ts _ _ _ he => nestedUpTo_induction (P := (Attaches · s))
    (fun _ _ _ _ he => absurd he ends_noViable) h (ts.length + 1) he

/-- Commands of any depth attach. -/
theorem attaches_command : Attaches command s :=
  attaches_nested fun _ => attaches_commandStep

/-- The body of a function is a statement; a prototype has no body. -/
theorem yields_definition : Yields definition s Definition.NearestElse := by
  refine .after fun kind => ?_
  split
  · exact .after fun _ => .after fun _ => .after fun _ => .after fun _ =>
      (yields_statementOf attaches_command definitionFollow).bind fun _ hbody => .pure hbody
  · exact .after fun _ => .after fun _ => .after fun _ => .after fun _ => .pure trivial
  · exact fun _ _ _ _ he => absurd he ends_noViable

theorem yields_mainPart : Yields mainPart s (·.body.NearestElse) :=
  .after fun _ => (yields_statementOf attaches_command mainFollow).list.bind fun _ hbody =>
    .after fun _ => .pure (Code.nearestElse_ofList hbody)

/-- With repairs or without, each `si-no` of a program that is read belongs to the nearest `si`. -/
theorem yields_program : Yields program s Program.NearestElse :=
  .after fun _ => yields_definition.many.bind fun _ hdefinitions =>
    yields_mainPart.bind fun _ hmain => .after fun _ => .after fun _ =>
    .pure ⟨hdefinitions, hmain⟩

/-! ## §4. Reading again. -/

/-- Where nothing is put in, every complaint costs a token. -/
theorem length_add_le_of_reads {ts tree rest : List Token} {ds : List Diagnostic}
    (h : Reads s ts tree ds rest) (hin : ∀ t ∈ tree, t.inserted = false) :
    tree.length + rest.length + ds.length ≤ ts.length := by
  induction h with
  | done ts => simp
  | take t _ ih =>
    have := ih fun u hu => hin u (List.mem_cons_of_mem t hu)
    simp only [List.length_cons]
    omega
  | put => exact absurd (hin _ List.mem_cons_self) (by simp [Token.insertedBefore])
  | drop stray t _ _ _ ih =>
    have := ih fun u hu => hin u (List.mem_cons_of_mem t hu)
    simp only [List.length_cons]
    omega
  | skip stray run t closer _ _ _ ih =>
    have := ih fun u hu => hin u (List.mem_cons_of_mem t hu)
    simp only [List.length_cons, List.cons_append, List.length_append]
    omega

/-- A program whose tokens all stand in the source is read from them without a complaint. -/
theorem ends_program_of_spelled (hs : Repairs s) {p : Program} (hp : p.Spelled s.sensorParens)
    (hnearest : p.NearestElse) (hin : ∀ t ∈ p.view.tokens, t.inserted = false) :
    Ends program s p.view.tokens p [] [] := by
  obtain ⟨hlenient, hwritten⟩ := Program.lenient_of_spelled hp hin
  obtain ⟨cs, he, -⟩ := passes_program hs hlenient hnearest
  rw [hwritten] at he
  obtain ⟨-, hreads, -⟩ := makes_program hs.stop he
  have hlength := length_add_le_of_reads hreads hin
  obtain rfl : cs = [] := by
    rw [← List.length_eq_zero_iff]
    simp only [List.length_nil] at hlength
    omega
  exact he

/-- **What was read is read again.**  From the tokens of a program that was read, with or without
repairs, the same program is read, with every token of it standing in the source and nothing
to complain about. -/
theorem ends_program_again (hs : Repairs s) {ts rest : List Token} {p : Program}
    {cs : List Diagnostic} (he : Ends program s ts p rest cs) :
    Ends program s (p.view.tokens.map Token.present) (p.map Token.present) [] [] := by
  obtain ⟨hspelled, -, -⟩ := makes_program hs.stop he
  have htokens : (p.map Token.present).view.tokens = p.view.tokens.map Token.present := by
    rw [Program.view_map, Node.tokens_map]
  rw [← htokens]
  refine ends_program_of_spelled hs
    (Program.spelled_map (f := Token.present) (fun _ => rfl) (fun _ _ => rfl) hspelled)
    (Program.nearestElse_map (yields_program he)) ?_
  intro t ht
  rw [htokens] at ht
  obtain ⟨u, -, rfl⟩ := List.mem_map.mp ht
  rfl

end Worded
end RobotLang
