/-
  RobotLang.Proofs.Translation
  ────────────────────────────
  **ONE PROGRAM IN TWO DIALECTS.**

  A worded program translates a braced one if it has the same definitions, the
  same constructs in the same order and the same expressions, on the same
  lines.  Blocks and lone `;` may stand anywhere in either program, so lists of
  statements are compared by their steps:

      ; { move(); { } } turnoff();            steps  move      turnoff
      avanza; inicio ; apágate; fin;          steps  avanza    apágate

  Both programs then give the same declarations and the same entry to link
  (`Braced.Program.Translates.lower_eq`).  Only the worded dialect wants
  functions declared before they are called, and this makes no difference where
  bodies call what stands above them, or themselves
  (`link_eq_of_declaredFirst`).
-/
import RobotLang.Braced.Lowering
import RobotLang.Proofs.Fragment.Replaced
import RobotLang.Proofs.Link.Refusals

namespace RobotLang

open Fragment

/-! ## §1. Steps. -/

/-- The statements of the code that are neither blocks nor empty, those in other statements
apart. -/
def Braced.Code.steps {part : Part} : Code part → List Statement
  | .nil => []
  | .cons head tail => head.steps ++ tail.steps
  | .empty _ => []
  | .builtin action keyword left right semicolon => [.builtin action keyword left right semicolon]
  | .call name left argument right semicolon => [.call name left argument right semicolon]
  | .cond keyword left test right yes => [.cond keyword left test right yes]
  | .condElse keyword left test right yes otherwise no =>
    [.condElse keyword left test right yes otherwise no]
  | .whileDo keyword left test right body => [.whileDo keyword left test right body]
  | .times keyword left count right body => [.times keyword left count right body]
  | .block _ body _ => body.steps

/-- The commands of the code that are not blocks, those in other commands apart. -/
def Worded.Code.steps {part : Part} : Code part → List Command
  | .nil => []
  | .cons head tail => head.steps ++ tail.steps
  | .empty _ => []
  | .ended command _ => command.steps
  | .builtin action keyword => [.builtin action keyword]
  | .call name => [.call name]
  | .callWith name left argument right => [.callWith name left argument right]
  | .cond keyword test then_ yes => [.cond keyword test then_ yes]
  | .condElse keyword test then_ yes otherwise no => [.condElse keyword test then_ yes otherwise no]
  | .whileDo keyword test do_ body => [.whileDo keyword test do_ body]
  | .times keyword count unit body => [.times keyword count unit body]
  | .block _ body _ => body.steps

/-- All code is that of the steps. -/
theorem Braced.Code.lower_eq_flatMap_steps {part : Part} (c : Code part) :
    c.lower = c.steps.flatMap Code.lower := by
  induction c with
  | nil | empty => rfl
  | cons _ _ ihhead ihtail => rw [lower, steps, List.flatMap_append, ihhead, ihtail]
  | builtin | call | cond | condElse | whileDo | times => exact (List.flatMap_singleton _ _).symm
  | block _ _ _ ih => exact ih

/-- In the worded dialect too, blocks and lone `;` leave nothing in the code. -/
theorem Worded.Code.lower_eq_flatMap_steps {part : Part} (c : Code part) :
    c.lower = c.steps.flatMap Code.lower := by
  induction c with
  | nil | empty => rfl
  | cons _ _ ihhead ihtail => rw [lower, steps, List.flatMap_append, ihhead, ihtail]
  | builtin | call | callWith | cond | condElse | whileDo | times =>
    exact (List.flatMap_singleton _ _).symm
  | ended _ _ ih | block _ _ _ ih => exact ih

/-! ## §2. Translated expressions. -/

/-- The first name is in small letters, and is the second one in small letters.  Small letters are
those of `Text.lower`: of ASCII and the Latin-1 supplement, which hold all letters that a lexicon
takes into a name. -/
structure SameName (t u : Token) : Prop where
  small : Text.lower t.image = t.image
  same : Text.lower t.image = Text.lower u.image

/-- A name counts as written in the one dialect and in small letters in the other. -/
theorem SameName.name_eq {t u : Token} (h : SameName t u) :
    Braced.nameCase.name t = Worded.nameCase.name u :=
  h.small.symm.trans h.same

/-- The numbers are written the same. -/
inductive Integer.Translates : Integer → Integer → Prop where
  | name {t t' : Token} (h : SameName t t') : Translates (.name t) (.name t')
  | literal {t t' : Token} (value : Int64) : Translates (.literal t value) (.literal t' value)
  | succ {keyword left right keyword' left' right' : Token} {inner inner' : Integer}
      (h : Translates inner inner') :
      Translates (.succ keyword left inner right) (.succ keyword' left' inner' right')
  | pred {keyword left right keyword' left' right' : Token} {inner inner' : Integer}
      (h : Translates inner inner') :
      Translates (.pred keyword left inner right) (.pred keyword' left' inner' right')

/-- The sensor that is asked, with or without parentheses. -/
def Condition.sensed : Condition .clause → Option Sensor
  | .sensor which _ | .sensorCall which _ _ _ => some which
  | .isZero _ _ _ _ | .paren _ _ _ => none

/-- The conditions are written the same, parentheses behind sensors apart. -/
inductive Condition.Translates : {level : Level} → Condition level → Condition level → Prop where
  | conj {c c' : Condition .conjunction} (h : Translates c c') : Translates (.conj c) (.conj c')
  | or {left left' : Condition .term} {operator operator' : Token}
      {right right' : Condition .conjunction} (hleft : Translates left left')
      (hright : Translates right right') :
      Translates (.or left operator right) (.or left' operator' right')
  | lit {c c' : Condition .literal} (h : Translates c c') : Translates (.lit c) (.lit c')
  | and {left left' : Condition .conjunction} {operator operator' : Token}
      {right right' : Condition .literal} (hleft : Translates left left')
      (hright : Translates right right') :
      Translates (.and left operator right) (.and left' operator' right')
  | plain {c c' : Condition .clause} (h : Translates c c') : Translates (.plain c) (.plain c')
  | not {operator operator' : Token} {c c' : Condition .clause} (h : Translates c c') :
      Translates (.not operator c) (.not operator' c')
  | isZero {keyword left right keyword' left' right' : Token} {number number' : Integer}
      (h : number.Translates number') :
      Translates (.isZero keyword left number right) (.isZero keyword' left' number' right')
  | sensor {c c' : Condition .clause} {which : Sensor} (h : c.sensed = some which)
      (h' : c'.sensed = some which) : Translates c c'
  | paren {left right left' right' : Token} {c c' : Condition .term} (h : Translates c c') :
      Translates (.paren left c right) (.paren left' c' right')

/-- Translated numbers have the same code, as names count the same. -/
theorem Integer.Translates.code_eq {n n' : Integer} (h : n.Translates n') :
    ofInteger Braced.nameCase n = ofInteger Worded.nameCase n' := by
  induction h with
  | name h => rw [ofInteger, h.name_eq, ofInteger]
  | literal => rfl
  | succ _ ih | pred _ ih => rw [ofInteger, ofInteger, ih]

/-- A sensor has the same code with its parentheses and without. -/
theorem Fragment.ofCondition_of_sensed {case : NameCase} {c : Condition .clause} {which : Sensor}
    (h : c.sensed = some which) : ofCondition case c = ofSensor which := by
  cases c with
  | sensor | sensorCall =>
    obtain rfl := Option.some.inj h
    rfl
  | isZero | paren => cases h

/-- Translated conditions have the same code, clause by clause. -/
theorem Condition.Translates.code_eq {level : Level} {c c' : Condition level}
    (h : c.Translates c') :
    ofCondition Braced.nameCase c = ofCondition Worded.nameCase c' := by
  induction h with
  | conj _ ih | lit _ ih | plain _ ih | paren _ ih => exact ih
  | or _ _ ihleft ihright | and _ _ ihleft ihright =>
    rw [ofCondition, ofCondition, ihleft, ihright]
  | not _ ih => rw [ofCondition, ofCondition, ih]
  | isZero h => rw [ofCondition, ofCondition, h.code_eq]
  | sensor h h' => rw [ofCondition_of_sensed h, ofCondition_of_sensed h']

/-! ## §3. Translated programs. -/

/-- The commands are the steps of the other dialect, one by one, and start on the same lines. -/
inductive StepsTranslate : List Braced.Statement → List Worded.Command → Prop where
  | nil : StepsTranslate [] []
  | builtin {action : Builtin} {keyword left right semicolon keyword' : Token}
      {ss : List Braced.Statement} {cs : List Worded.Command}
      (hline : keyword.line = keyword'.line) (hrest : StepsTranslate ss cs) :
      StepsTranslate (.builtin action keyword left right semicolon :: ss)
        (.builtin action keyword' :: cs)
  | call {name left right semicolon name' : Token}
      {ss : List Braced.Statement} {cs : List Worded.Command}
      (hname : SameName name name') (hline : name.line = name'.line)
      (hrest : StepsTranslate ss cs) :
      StepsTranslate (.call name left none right semicolon :: ss) (.call name' :: cs)
  | callWith {name left right semicolon name' left' right' : Token} {argument argument' : Integer}
      {ss : List Braced.Statement} {cs : List Worded.Command}
      (hname : SameName name name') (hline : name.line = name'.line)
      (hargument : argument.Translates argument') (hrest : StepsTranslate ss cs) :
      StepsTranslate (.call name left (some argument) right semicolon :: ss)
        (.callWith name' left' argument' right' :: cs)
  | cond {keyword left right keyword' then_ : Token} {test test' : Condition .term}
      {yes : Braced.Statement} {yes' : Worded.Command}
      {ss : List Braced.Statement} {cs : List Worded.Command}
      (hline : keyword.line = keyword'.line) (htest : test.Translates test')
      (hyes : StepsTranslate yes.steps yes'.steps) (hrest : StepsTranslate ss cs) :
      StepsTranslate (.cond keyword left test right yes :: ss)
        (.cond keyword' test' then_ yes' :: cs)
  | condElse {keyword left right otherwise keyword' then_ otherwise' : Token}
      {test test' : Condition .term} {yes no : Braced.Statement} {yes' no' : Worded.Command}
      {ss : List Braced.Statement} {cs : List Worded.Command}
      (hline : keyword.line = keyword'.line) (htest : test.Translates test')
      (hyes : StepsTranslate yes.steps yes'.steps) (hno : StepsTranslate no.steps no'.steps)
      (hrest : StepsTranslate ss cs) :
      StepsTranslate (.condElse keyword left test right yes otherwise no :: ss)
        (.condElse keyword' test' then_ yes' otherwise' no' :: cs)
  | whileDo {keyword left right keyword' do_ : Token} {test test' : Condition .term}
      {body : Braced.Statement} {body' : Worded.Command}
      {ss : List Braced.Statement} {cs : List Worded.Command}
      (hline : keyword.line = keyword'.line) (htest : test.Translates test')
      (hbody : StepsTranslate body.steps body'.steps) (hrest : StepsTranslate ss cs) :
      StepsTranslate (.whileDo keyword left test right body :: ss)
        (.whileDo keyword' test' do_ body' :: cs)
  | times {keyword left right keyword' unit : Token} {count count' : Integer}
      {body : Braced.Statement} {body' : Worded.Command}
      {ss : List Braced.Statement} {cs : List Worded.Command}
      (hline : keyword.line = keyword'.line) (hcount : count.Translates count')
      (hbody : StepsTranslate body.steps body'.steps) (hrest : StepsTranslate ss cs) :
      StepsTranslate (.times keyword left count right body :: ss)
        (.times keyword' count' unit body' :: cs)

/-- The second definition is the first one in the other dialect; it is no prototype. -/
inductive Braced.Definition.Translates (d : Definition) : Worded.Definition → Prop where
  | full {keyword name as_ : Token} {parameter : Option Parameter} {body : Worded.Statement}
      (hname : SameName d.name name) (hline : d.name.line = name.line)
      (hparameter : Option.Rel SameName d.parameter.name (parameter.bind (·.name)))
      (hbody : StepsTranslate d.block.body.steps body.steps) :
      Translates d (.full keyword name parameter as_ body)

/-- The second program is the first one in the other dialect. -/
structure Braced.Program.Translates (j : Program) (p : Worded.Program) : Prop where
  definitions : List.Forall₂ Definition.Translates j.definitions p.definitions
  main : StepsTranslate j.main.block.body.steps p.main.body.steps
  closing : j.right.endLine = p.closing.endLine

/-- Code with the same steps is the same code, however it is grouped into blocks. -/
theorem lower_eq_of_steps {part : Braced.Part} {part' : Worded.Part} {c : Braced.Code part}
    {c' : Worded.Code part'}
    (h : c.steps.flatMap Braced.Code.lower = c'.steps.flatMap Worded.Code.lower) :
    c.lower = c'.lower := by
  rw [Braced.Code.lower_eq_flatMap_steps, h, Worded.Code.lower_eq_flatMap_steps]

/-- Translated steps have the same code.  By induction on the translation: each construct has the
same code if its line, its name, its condition and its parts have. -/
theorem StepsTranslate.code_eq {ss : List Braced.Statement} {cs : List Worded.Command}
    (h : StepsTranslate ss cs) :
    ss.flatMap Braced.Code.lower = cs.flatMap Worded.Code.lower := by
  -- branches and bodies are compared by their own steps, so their code is the same by induction
  induction h with
  | nil => rfl
  | builtin hline _ ihrest => exact congrArg₂ (· ++ ·) (builtin_congr hline _) ihrest
  | call hname hline _ ihrest =>
    refine congrArg₂ (· ++ ·) ?_ ihrest
    rw [Braced.Code.lower, Worded.Code.lower, hname.name_eq, Option.map_none, call_congr hline]
  | callWith hname hline hargument _ ihrest =>
    refine congrArg₂ (· ++ ·) ?_ ihrest
    rw [Braced.Code.lower, Worded.Code.lower, hname.name_eq, Option.map_some, hargument.code_eq,
      call_congr hline]
  | cond hline htest _ _ ihyes ihrest =>
    refine congrArg₂ (· ++ ·) ?_ ihrest
    rw [Braced.Code.lower, Worded.Code.lower, htest.code_eq, lower_eq_of_steps ihyes,
      cond_congr hline]
  | condElse hline htest _ _ _ ihyes ihno ihrest =>
    refine congrArg₂ (· ++ ·) ?_ ihrest
    rw [Braced.Code.lower, Worded.Code.lower, htest.code_eq, lower_eq_of_steps ihyes,
      lower_eq_of_steps ihno, cond_congr hline]
  | whileDo hline htest _ _ ihbody ihrest =>
    refine congrArg₂ (· ++ ·) ?_ ihrest
    rw [Braced.Code.lower, Worded.Code.lower, htest.code_eq, lower_eq_of_steps ihbody,
      whileDo_congr hline]
  | times hline hcount _ _ ihbody ihrest =>
    refine congrArg₂ (· ++ ·) ?_ ihrest
    rw [Braced.Code.lower, Worded.Code.lower, hcount.code_eq, lower_eq_of_steps ihbody,
      times_congr hline]

/-- Parameters count the same where both functions have one. -/
theorem map_name_eq {name name' : Option Token} (h : Option.Rel SameName name name') :
    name.map Braced.nameCase.name = name'.map Worded.nameCase.name := by
  cases h with
  | none => rfl
  | some h => exact congrArg some h.name_eq

/-- A function and its translation are the same declaration. -/
theorem Braced.Definition.Translates.lower_eq {d : Definition} {d' : Worded.Definition}
    (h : d.Translates d') : d.lower = d'.lower := by
  obtain ⟨hname, hline, hparameter, hbody⟩ := h
  have hparams := map_name_eq hparameter
  have hsome := congrArg Option.isSome hparams
  rw [Option.isSome_map, Option.isSome_map] at hsome
  unfold Definition.lower Worded.Definition.lower Declaration.function
  rw [hname.name_eq, lineOf_congr hline, hline, hparams, hsome, lower_eq_of_steps hbody.code_eq]

/-- Translated programs give the same declarations and the same entry to link. -/
theorem Braced.Program.Translates.lower_eq {j : Program} {p : Worded.Program}
    (h : j.Translates p) : j.lower = p.lower := by
  have hdeclarations : j.definitions.map Definition.lower
      = p.definitions.map Worded.Definition.lower := by
    rw [← List.forall₂_eq_eq_eq, List.forall₂_map_left_iff, List.forall₂_map_right_iff]
    exact h.definitions.imp fun _ _ hd => hd.lower_eq
  rw [Program.lower, Worded.Program.lower, hdeclarations, lower_eq_of_steps h.main.code_eq,
    entry_congr h.closing]

/-! ## §4. Declared first. -/

/-- What contradicts the table is known to it. -/
theorem FunctionTable.knows_of_declare {table : FunctionTable} {d : Declaration} {index : Nat}
    {issue : Issue} (h : table.declare d index = .error issue) : table.knows d.name = true := by
  rw [knows, Option.isSome_iff_ne_none]
  intro hnone
  have htaken : ∃ table', table.declare d index = .ok table' := by
    rw [declare_isOk_iff, hnone]
    nofun
  obtain ⟨table', htable'⟩ := htaken
  rw [h] at htable'
  cases htable'

namespace Placement

variable {p : Placement} {d : Declaration}

/-- The first pass knows the declarations it has come to, also those that it refused. -/
theorem knows_add (declareFirst : Bool) {name : String}
    (h : p.table.knows name = true ∨ d.name = name) :
    (p.add declareFirst d).table.knows name = true := by
  cases hdeclare : p.table.declare d p.code.length with
  | error issue =>
    rw [add_of_error hdeclare]
    rcases h with h | rfl
    · exact h
    · exact FunctionTable.knows_of_declare hdeclare
  | ok table =>
    rw [add_of_ok hdeclare, FunctionTable.eq_of_declare hdeclare]
    show (FunctionTable.find? _ name).isSome = true
    rw [FunctionTable.find?_cons]
    split
    · rfl
    · next hne => exact h.resolve_right fun heq => hne heq.symm

/-- Wanting functions declared makes no difference to a body that calls what is declared.  What it
calls is in the table already or is itself, and the table has its name when the body is looked
through. -/
theorem add_eq_of_knows (h : ∀ body, d.body = some body → ∀ name arity,
      .call name arity ∈ body → p.table.knows name = true ∨ d.name = name) :
    p.add true d = p.add false d := by
  cases hdeclare : p.table.declare d p.code.length with
  | error issue => rw [add_of_error hdeclare, add_of_error hdeclare]
  | ok table =>
    -- the body is looked through with the table that has its own name
    have hquiet : undeclaredCalls table 1 (d.body.getD []) = [] := by
      rw [undeclaredCalls_eq_nil_iff]
      intro name arity hcall
      cases hbody : d.body with
      | none =>
        rw [hbody] at hcall
        cases hcall
      | some body =>
        rw [hbody] at hcall
        have hknows := knows_add false (h body hbody name arity hcall)
        rwa [add_of_ok hdeclare] at hknows
    rw [add_of_ok hdeclare, add_of_ok hdeclare, hquiet]
    rfl

/-- A pass that wants functions declared goes along with one that does not, as long as bodies call
what is declared. -/
theorem foldl_add_of_declaredFirst (p : Placement) {ds : List Declaration}
    (h : DeclaredFirst ds) :
    ds.foldl (add true) p = ds.foldl (add false) p
      ∧ ∀ d ∈ ds, (ds.foldl (add false) p).table.knows d.name = true := by
  -- the pass goes from left to right, so the induction adds a declaration at the end
  induction ds using List.reverseRecOn with
  | nil => exact ⟨rfl, nofun⟩
  | append_singleton ds d ih =>
    obtain ⟨hds, hcalls⟩ := declaredFirst_concat.mp h
    obtain ⟨heq, hknows⟩ := ih hds
    have hknown {name : String} (hname : ∃ e ∈ ds ++ [d], e.name = name) :
        (ds.foldl (add false) p).table.knows name = true ∨ d.name = name := by
      obtain ⟨e, he, rfl⟩ := hname
      rcases List.mem_append.mp he with he | he
      · exact .inl (hknows e he)
      · exact .inr (by rw [List.mem_singleton.mp he])
    rw [List.foldl_concat, List.foldl_concat, heq]
    refine ⟨add_eq_of_knows ?_, ?_⟩
    · intro body hbody name arity hcall
      exact hknown (hcalls body hbody name arity hcall)
    · intro e he
      exact knows_add false (hknown ⟨e, he, rfl⟩)

end Placement

/-- Where bodies call only what stands above them, or themselves, it makes no difference that
functions have to be declared first. -/
theorem link_eq_of_declaredFirst {u : Unlinked} (h : DeclaredFirst u.declarations) :
    link u true = link u false := by
  have hplace : u.place true = u.place false :=
    (Placement.foldl_add_of_declaredFirst ⟨[], u.entry, []⟩ h).1
  rw [link, hplace, link]

/-! ## §5. Calls of a braced program. -/

namespace Fragment

variable {case : NameCase} {name : String} {arity : Nat}

theorem call_notMem_ofOps (ops : List Opcode) : Instr.call name arity ∉ ofOps ops := by
  simp [ofOps]

theorem call_notMem_ofInteger (n : Integer) : Instr.call name arity ∉ ofInteger case n := by
  induction n with
  | name | literal => simp [ofInteger]
  | succ _ _ _ _ ih | pred _ _ _ _ ih => simpa [ofInteger] using ih

/-- Conditions call nothing. -/
theorem call_notMem_ofCondition {level : RobotLang.Level} (c : Condition level) :
    Instr.call name arity ∉ ofCondition case c := by
  induction c with
  | conj _ ih | lit _ ih | plain _ ih | paren _ _ _ ih => exact ih
  | or _ _ _ ihl ihr | and _ _ _ ihl ihr => simpa [ofCondition] using ⟨ihl, ihr⟩
  | not _ _ ih => simpa [ofCondition] using ih
  | isZero _ _ number => simpa [ofCondition] using call_notMem_ofInteger number
  | sensor | sensorCall => exact call_notMem_ofOps _

/-- A parameter is no call. -/
theorem call_mem_map_bindParam {f : Fragment} {param : Option String} :
    Instr.call name arity ∈ f.map (bindParam param) ↔ Instr.call name arity ∈ f := by
  rw [List.mem_map]
  constructor
  · rintro ⟨instr, hinstr, heq⟩
    cases instr with
    | op => cases heq
    | call => exact heq ▸ hinstr
    | param =>
      rw [bindParam] at heq
      split at heq <;> cases heq
  · exact fun h => ⟨_, h, rfl⟩

end Fragment

namespace Braced

/-- The names of the functions that are called, where they are. -/
def Code.callNames {part : Part} : Code part → List Token
  | .nil => []
  | .cons head tail => head.callNames ++ tail.callNames
  | .empty _ => []
  | .builtin _ _ _ _ _ => []
  | .call name _ _ _ _ => [name]
  | .cond _ _ _ _ yes => yes.callNames
  | .condElse _ _ _ _ yes _ no => yes.callNames ++ no.callNames
  | .whileDo _ _ _ _ body => body.callNames
  | .times _ _ _ _ body => body.callNames
  | .block _ body _ => body.callNames

/-- Every call in a definition is of a definition that stands above, or of the definition itself. -/
def Program.CallsUpward (p : Program) : Prop :=
  ∀ (i : Nat) (d : Definition), p.definitions[i]? = some d → ∀ t ∈ d.block.body.callNames,
    ∃ j ≤ i, ∃ e : Definition, p.definitions[j]? = some e ∧ e.name.image = t.image

/-- Only calls become calls.  By induction on the code; numbers, conditions and what stands around
them hold none. -/
theorem Code.exists_callName {part : Part} {c : Code part} {name : String} {arity : Nat}
    (h : Instr.call name arity ∈ c.lower) : ∃ t ∈ c.callNames, t.image = name := by
  induction c with
  | nil | empty => cases h
  | cons head tail ihhead ihtail =>
    rcases List.mem_append.mp h with h | h
    · obtain ⟨t, ht, hname⟩ := ihhead h
      exact ⟨t, List.mem_append_left _ ht, hname⟩
    · obtain ⟨t, ht, hname⟩ := ihtail h
      exact ⟨t, List.mem_append_right _ ht, hname⟩
  | builtin => simp [lower, Fragment.builtin, lineOf, call_notMem_ofOps] at h
  | call token left argument =>
    cases argument with
    | none =>
      have hname : name = nameCase.name token ∧ arity = 1 := by
        simpa [lower, Fragment.call, lineOf] using h
      exact ⟨token, List.mem_singleton_self _, hname.1.symm⟩
    | some n =>
      have hname : name = nameCase.name token ∧ arity = 2 := by
        simpa [lower, Fragment.call, lineOf, call_notMem_ofInteger] using h
      exact ⟨token, List.mem_singleton_self _, hname.1.symm⟩
  | cond _ _ _ _ yes ih =>
    exact ih (by simpa [lower, Fragment.cond, lineOf, call_notMem_ofCondition] using h)
  | condElse _ _ _ _ yes _ no ihyes ihno =>
    have hbranch : Instr.call name arity ∈ yes.lower ∨ Instr.call name arity ∈ no.lower := by
      simpa [lower, Fragment.cond, lineOf, call_notMem_ofCondition] using h
    rcases hbranch with h | h
    · obtain ⟨t, ht, hname⟩ := ihyes h
      exact ⟨t, List.mem_append_left _ ht, hname⟩
    · obtain ⟨t, ht, hname⟩ := ihno h
      exact ⟨t, List.mem_append_right _ ht, hname⟩
  | whileDo _ _ _ _ body ih =>
    exact ih (by simpa [lower, Fragment.whileDo, lineOf, call_notMem_ofCondition] using h)
  | times _ _ _ _ body ih =>
    exact ih (by
      simpa [lower, Fragment.times, lineOf, call_notMem_ofInteger, call_notMem_ofOps] using h)
  | block _ _ _ ih => exact ih h

/-- A program that calls only what stands above is lowered to declarations that do. -/
theorem Program.CallsUpward.declaredFirst {p : Program} (h : p.CallsUpward) :
    DeclaredFirst p.lower.declarations := by
  intro i declaration body name arity hi hbody hcall
  rw [lower, List.getElem?_map] at hi
  obtain ⟨d, hd, rfl⟩ := Option.map_eq_some_iff.mp hi
  obtain rfl := Option.some.inj hbody
  -- neither resolving the parameter nor the frame of a function adds a call
  have hcode : Instr.call name arity ∈ d.block.body.lower := by
    simpa [lineOf, call_mem_map_bindParam] using hcall
  obtain ⟨t, ht, rfl⟩ := d.block.body.exists_callName hcode
  obtain ⟨j, hj, e, he, hname⟩ := h i d hd t ht
  refine ⟨j, hj, e.lower, ?_, hname⟩
  rw [lower, List.getElem?_map, he]
  rfl

end Braced

/-! ## §6. Both dialects. -/

/-- **The two dialects agree.**  A program and its translation, with names in small letters and the
same lines, give the same declarations and the same entry to link.  If bodies call only what stands
above them, or themselves, then linking gives the same program in both dialects, or the same
complaints.

Images of names may be any text here, but only capitals of ASCII and Latin-1 have a small letter
(`Text.lower`).  For the names of sources this is all: a lexicon takes no other letter into one. -/
theorem dialects_agree {j : Braced.Program} {p : Worded.Program} (h : j.Translates p) :
    j.lower = p.lower ∧ (j.CallsUpward → link j.lower false = link p.lower true) := by
  refine ⟨h.lower_eq, fun hcalls => ?_⟩
  rw [← h.lower_eq, link_eq_of_declaredFirst hcalls.declaredFirst]

/-- A token, of which only the line is given. -/
def tokenOn (line : Nat) (kind : Kind) (image : String) : Token :=
  ⟨kind, image, line, 0, line, 0, 0, false⟩

/-- The function `clear`, which picks as many beepers as it is told and then calls itself, and a
main part with empty statements. -/
def clearing : Braced.Program where
  keyword := tokenOn 1 .class_ "class"
  name := tokenOn 1 .program "program"
  left := tokenOn 1 .leftBrace "\x7b"
  definitions := [{
    keyword := tokenOn 2 .define "void"
    name := tokenOn 2 .identifier "clear"
    parameter := ⟨tokenOn 2 .leftParen "(", some (tokenOn 2 .identifier "n"),
      tokenOn 2 .rightParen ")"⟩
    block := ⟨tokenOn 2 .leftBrace "\x7b",
      .ofList [
        .times (tokenOn 3 .repeat_ "iterate") (tokenOn 3 .leftParen "(")
          (.name (tokenOn 3 .identifier "n")) (tokenOn 3 .rightParen ")")
          (.builtin .pickBeeper (tokenOn 4 .pickBeeper "pickbeeper") (tokenOn 4 .leftParen "(")
            (tokenOn 4 .rightParen ")") (tokenOn 4 .semicolon ";")),
        .call (tokenOn 5 .identifier "clear") (tokenOn 5 .leftParen "(")
          (some (.pred (tokenOn 5 .pred "pred") (tokenOn 5 .leftParen "(")
            (.name (tokenOn 5 .identifier "n")) (tokenOn 5 .rightParen ")")))
          (tokenOn 5 .rightParen ")") (tokenOn 5 .semicolon ";")],
      tokenOn 6 .rightBrace "\x7d"⟩ }]
  main := {
    keyword := tokenOn 7 .program "program"
    left := tokenOn 7 .leftParen "("
    right := tokenOn 7 .rightParen ")"
    block := ⟨tokenOn 7 .leftBrace "\x7b",
      .ofList [
        .empty (tokenOn 7 .semicolon ";"),
        .condElse (tokenOn 8 .if_ "if") (tokenOn 8 .leftParen "(")
          (.conj (.lit (.plain (.sensorCall .frontIsClear
            (tokenOn 8 (.sensor .frontIsClear) "frontIsClear")
            (tokenOn 8 .leftParen "(") (tokenOn 8 .rightParen ")")))))
          (tokenOn 8 .rightParen ")") (.empty (tokenOn 8 .semicolon ";"))
          (tokenOn 8 .else_ "else")
          (.block (tokenOn 8 .leftBrace "\x7b")
            (.ofList [.call (tokenOn 9 .identifier "clear") (tokenOn 9 .leftParen "(")
              (some (.literal (tokenOn 9 .integerLiteral "2") 2))
              (tokenOn 9 .rightParen ")") (tokenOn 9 .semicolon ";")])
            (tokenOn 9 .rightBrace "\x7d"))],
      tokenOn 10 .rightBrace "\x7d"⟩ }
  right := tokenOn 11 .rightBrace "\x7d"

/-- The same program, with its names in other letters and other blocks. -/
def clearingWorded : Worded.Program where
  opening := tokenOn 1 .beginProgram "iniciar-programa"
  definitions := [
    .full (tokenOn 2 .define "define-nueva-instrucción") (tokenOn 2 .identifier "Clear")
      (some ⟨tokenOn 2 .leftParen "(", some (tokenOn 2 .identifier "N"),
        tokenOn 2 .rightParen ")"⟩)
      (tokenOn 2 .as_ "como")
      (.ended (.block (tokenOn 2 .begin_ "inicio")
        (.ofList [
          .ended (.times (tokenOn 3 .repeat_ "repetir") (.name (tokenOn 3 .identifier "n"))
            (tokenOn 3 .times "veces")
            (.block (tokenOn 3 .begin_ "inicio")
              (.ofList [.ended (.builtin .pickBeeper (tokenOn 4 .pickBeeper "coge-zumbador"))
                (tokenOn 4 .semicolon ";")])
              (tokenOn 4 .end_ "fin"))) (tokenOn 4 .semicolon ";"),
          .ended (.callWith (tokenOn 5 .identifier "CLEAR") (tokenOn 5 .leftParen "(")
            (.pred (tokenOn 5 .pred "precede") (tokenOn 5 .leftParen "(")
              (.name (tokenOn 5 .identifier "N")) (tokenOn 5 .rightParen ")"))
            (tokenOn 5 .rightParen ")")) (tokenOn 5 .semicolon ";")])
        (tokenOn 6 .end_ "fin")) (tokenOn 6 .semicolon ";"))]
  main := {
    opening := tokenOn 7 .beginExecution "inicia-ejecución"
    body := .ofList [
      .ended (.condElse (tokenOn 8 .if_ "si")
        (.conj (.lit (.plain (.sensor .frontIsClear
          (tokenOn 8 (.sensor .frontIsClear) "frente-libre")))))
        (tokenOn 8 .then_ "entonces")
        (.block (tokenOn 8 .begin_ "inicio") .nil (tokenOn 8 .end_ "fin"))
        (tokenOn 8 .else_ "si-no")
        (.callWith (tokenOn 9 .identifier "clear") (tokenOn 9 .leftParen "(")
          (.literal (tokenOn 9 .integerLiteral "2") 2) (tokenOn 9 .rightParen ")")))
        (tokenOn 9 .semicolon ";"),
      .empty (tokenOn 9 .semicolon ";")]
    closing := tokenOn 10 .endExecution "termina-ejecución" }
  closing := tokenOn 11 .endProgram "finalizar-programa"

/-- Names that are the same in small letters, wherever they stand. -/
theorem sameName_tokenOn {image image' : String} (hsmall : Text.lower image = image)
    (hsame : Text.lower image = Text.lower image') {line line' : Nat} {kind kind' : Kind} :
    SameName (tokenOn line kind image) (tokenOn line' kind' image') :=
  ⟨hsmall, hsame⟩

/-- Each construct of the sample is translated by its counterpart; the lone `;` of its main part by
nothing. -/
theorem clearing_translates : clearing.Translates clearingWorded := by
  have hclear : Text.lower "clear" = "clear" ∧ Text.lower "clear" = Text.lower "Clear"
      ∧ Text.lower "clear" = Text.lower "CLEAR" := by
    simp [Text.lower, Text.lowerChar, Text.isCapital, Text.inRange]
  have hn : Text.lower "n" = "n" ∧ Text.lower "n" = Text.lower "N" := by
    simp [Text.lower, Text.lowerChar, Text.isCapital, Text.inRange]
  obtain ⟨hclear, hClear, hCLEAR⟩ := hclear
  obtain ⟨hn, hN⟩ := hn
  refine ⟨.cons ?_ .nil, ?_, rfl⟩
  · refine .full (sameName_tokenOn hclear hClear) rfl (.some (sameName_tokenOn hn hN)) ?_
    refine .times rfl (.name (sameName_tokenOn hn rfl)) (.builtin rfl .nil) ?_
    exact .callWith (sameName_tokenOn hclear hCLEAR) rfl
      (.pred (.name (sameName_tokenOn hn hN))) .nil
  · refine .condElse rfl (.conj (.lit (.plain (.sensor rfl rfl)))) .nil ?_ .nil
    exact .callWith (sameName_tokenOn hclear rfl) rfl (.literal 2) .nil

/-- Its one function calls itself, and that counts as calling upward. -/
theorem clearing_callsUpward : clearing.CallsUpward := by
  intro i d hd t ht
  have hi : i < 1 := (List.getElem?_eq_some_iff.mp hd).1
  obtain rfl : i = 0 := by omega
  obtain rfl := Option.some.inj hd
  obtain rfl : t = tokenOn 5 .identifier "clear" := by
    simpa [Braced.Code.ofList, Braced.Code.callNames] using ht
  exact ⟨0, Nat.le_refl 0, _, rfl, rfl⟩

/-- A function that calls itself, in both dialects: the two agree on what is linked, and on the
outcome. -/
theorem clearing_agrees :
    clearing.Translates clearingWorded ∧ clearing.CallsUpward
      ∧ clearing.lower = clearingWorded.lower
      ∧ link clearing.lower false = link clearingWorded.lower true := by
  have hagree := dialects_agree clearing_translates
  exact ⟨clearing_translates, clearing_callsUpward, hagree.1, hagree.2 clearing_callsUpward⟩

end RobotLang
