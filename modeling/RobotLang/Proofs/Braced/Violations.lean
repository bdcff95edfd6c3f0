/-
  RobotLang.Proofs.Braced.Violations
  ──────────────────────────────────
  **WHAT IS WRONG WITH A BRACED PROGRAM THAT PARSES.**

  The violations of a program are told by walking its tree:

      definitions    one for each whose name was defined before
      main block     then the bodies of the definitions that came first
      calls          no definition of the name, or one with other parameters
      variables      all but the parameter of the definition around them

  A variable is reported on the line of the call, `if`, `while` or `iterate`
  around it.  Compiling reports exactly this list, in this order
  (`compile_reports_violations`).
-/
import RobotLang.Proofs.ControlFlow
import RobotLang.Proofs.Link.Reports

namespace RobotLang.Braced

open Fragment

/-! ## §1. Violations. -/

/-- One for each variable that is not the parameter. -/
def undefinedVariables (parameter : Option String) (line : Nat) (names : List Token) :
    List Diagnostic :=
  (names.filter fun t => parameter != some t.image).map fun t =>
    .atLine .undefinedVariable t.image line

/-- At most one for each call: its argument has to agree with the first definition. -/
def callViolations (definitions : List Definition) (name : Token) (hasArgument : Bool) :
    List Diagnostic :=
  match definitions.find? (·.name.image == name.image) with
  | none => [.atLine .undefinedFunction name.image name.line]
  | some d =>
    if d.parameter.name.isSome = hasArgument then []
    else [.atLine .functionParameterMismatch name.image name.line]

/-- The violations of a statement or of a list of statements, where variables
other than the parameter are not defined. -/
def Code.violations (definitions : List Definition) (parameter : Option String) {part : Part} :
    Code part → List Diagnostic
  | .nil => []
  | .cons head tail =>
    head.violations definitions parameter ++ tail.violations definitions parameter
  | .empty _ => []
  | .builtin _ _ _ _ _ => []
  | .call name _ argument _ _ =>
    undefinedVariables parameter name.line ((argument.map Integer.variables).getD [])
      ++ callViolations definitions name argument.isSome
  | .cond keyword _ test _ yes =>
    undefinedVariables parameter keyword.line test.variables
      ++ yes.violations definitions parameter
  | .condElse keyword _ test _ yes _ no =>
    undefinedVariables parameter keyword.line test.variables
      ++ yes.violations definitions parameter ++ no.violations definitions parameter
  | .whileDo keyword _ test _ body =>
    undefinedVariables parameter keyword.line test.variables
      ++ body.violations definitions parameter
  | .times keyword _ count _ body =>
    undefinedVariables parameter keyword.line count.variables
      ++ body.violations definitions parameter
  | .block _ body _ => body.violations definitions parameter

/-- The violations in the body of a definition. -/
def Definition.violations (definitions : List Definition) (d : Definition) : List Diagnostic :=
  d.block.body.violations definitions (d.parameter.name.map (·.image))

/-- One of the definitions is of that name. -/
def isDefined (definitions : List Definition) (name : String) : Bool :=
  definitions.any (·.name.image == name)

/-- One for each definition whose name has one before it. -/
def redefinitions (before : List Definition) : List Definition → List Diagnostic
  | [] => []
  | d :: ds =>
    (if isDefined before d.name.image then
        [.atLine .functionRedefinition d.name.image d.name.line]
      else [])
      ++ redefinitions (before ++ [d]) ds

/-- The definitions whose name has none before them. -/
def firstDefinitions (before : List Definition) : List Definition → List Definition
  | [] => []
  | d :: ds =>
    (if isDefined before d.name.image then [] else [d])
      ++ firstDefinitions (before ++ [d]) ds

/-- All violations of a program. -/
def Program.violations (p : Program) : List Diagnostic :=
  redefinitions [] p.definitions
    ++ p.main.block.body.violations p.definitions none
    ++ (firstDefinitions [] p.definitions).flatMap (·.violations p.definitions)

/-! ## §2. Definitions. -/

section Definitions

variable {before kept : List Definition}

/-- One more definition defines its name as well. -/
theorem isDefined_concat (ds : List Definition) (d : Definition) (name : String) :
    isDefined (ds ++ [d]) name = (isDefined ds name || d.name.image == name) := by
  simp [isDefined]

/-- A definition is lowered to a declaration of its name with a body. -/
theorem Definition.defines_lower (d : Definition) (name : String) :
    d.lower.defines name = (d.name.image == name) := by
  simp [Declaration.defines, Definition.lower, Declaration.function, NameCase.name, nameCase]

/-- Definitions can only be refused for their name.  To differ from an earlier one in its parameter
it would have to have that name too, and the name is looked at first. -/
theorem Definition.conflict?_lower (kept : List Definition) (d : Definition) :
    d.lower.conflict? (kept.map Definition.lower)
      = if isDefined kept d.name.image then some .functionRedefinition else none := by
  have hdefines : (kept.map lower).any (·.defines d.lower.name)
      = isDefined kept d.name.image := by
    rw [List.any_map, isDefined]
    congr 1
    funext e
    exact e.defines_lower d.name.image
  show (if (kept.map lower).any (·.defines d.lower.name) then some Issue.functionRedefinition
    else if _ then _ else none) = _
  rw [hdefines]
  split
  · rfl
  · next hnone =>
    rw [if_neg]
    simp only [isDefined, List.any_eq_true, not_exists, not_and] at hnone
    simp only [List.any_map, List.any_eq_true, not_exists, not_and]
    intro e he hmismatch
    exact hnone e he (Bool.and_eq_true_iff.mp hmismatch).1

/-- What stays of the definitions, and what is said of them, as long as what
was kept has the names of what came before. -/
theorem keep_lower (hkept : ∀ name, isDefined kept name = isDefined before name)
    (ds : List Definition) :
    Declaration.keep (kept.map Definition.lower) (ds.map Definition.lower)
        = (kept ++ firstDefinitions before ds).map Definition.lower
      ∧ Declaration.reports false (kept.map Definition.lower) (ds.map Definition.lower)
        = redefinitions before ds := by
  induction ds generalizing before kept with
  | nil => exact ⟨by simp [Declaration.keep, firstDefinitions], rfl⟩
  | cons d ds ih =>
    simp only [List.map_cons, Declaration.keep, Declaration.reports, firstDefinitions,
      redefinitions, Definition.conflict?_lower, hkept]
    by_cases hdefined : isDefined before d.name.image
    · -- the name is there already
      have hsame : ∀ name, isDefined kept name = isDefined (before ++ [d]) name := by
        intro name
        rw [hkept, isDefined_concat]
        by_cases hname : d.name.image = name
        · rw [← hname, hdefined, Bool.true_or]
        · simp [hname]
      simp only [hdefined, if_true, Option.isNone_some, Bool.false_eq_true, if_false,
        List.nil_append]
      exact ⟨(ih hsame).1, congrArg _ (ih hsame).2⟩
    · have hsame : ∀ name, isDefined (kept ++ [d]) name = isDefined (before ++ [d]) name := by
        intro name
        rw [isDefined_concat, isDefined_concat, hkept]
      obtain ⟨hkeep, hreports⟩ := ih hsame
      rw [List.map_append] at hkeep hreports
      simp only [hdefined, Bool.false_eq_true, if_false, Option.isNone_none, if_true,
        List.nil_append]
      refine ⟨?_, hreports⟩
      rw [List.append_assoc] at hkeep
      exact hkeep

/-- The first definition of a name is among the first definitions. -/
theorem find?_firstDefinitions {name : String} (hbefore : isDefined before name = false)
    (ds : List Definition) :
    (firstDefinitions before ds).find? (·.name.image == name)
      = ds.find? (·.name.image == name) := by
  induction ds generalizing before with
  | nil => rfl
  | cons d ds ih =>
    rw [firstDefinitions]
    by_cases hname : d.name.image = name
    · rw [hname, hbefore]
      simp [hname]
    · have hnext : isDefined (before ++ [d]) name = false := by
        rw [isDefined_concat, hbefore, Bool.false_or]
        exact beq_eq_false_iff_ne.mpr hname
      rw [List.find?_append, ih hnext, List.find?_cons_of_neg (by simpa using hname)]
      split <;> simp [hname]

end Definitions

/-! ## §3. Code. -/

/-- What is wrong with the uses in a body with that parameter. -/
def problems (kept : List Declaration) (parameter : Option String) (us : List Use) :
    List Diagnostic :=
  (us.filter (!·.isBound parameter)).filterMap (Use.problem? kept)

section Code

variable {definitions : List Definition} {kept : List Declaration} {parameter : Option String}

/-- What is wrong with uses is told one by one. -/
@[simp] theorem problems_append (us vs : List Use) :
    problems kept parameter (us ++ vs)
      = problems kept parameter us ++ problems kept parameter vs := by
  rw [problems, List.filter_append, List.filterMap_append]
  rfl

/-- In the main block nothing is bound. -/
theorem problems_none (us : List Use) :
    problems kept none us = us.filterMap (Use.problem? kept) := by
  have hfree : us.filter (!·.isBound none) = us := by
    rw [List.filter_eq_self]
    intro u _
    cases u <;> rfl
  rw [problems, hfree]

/-- A variable is wrong if it is not the parameter. -/
theorem problems_variables (line : Nat) (names : List Token) :
    problems kept parameter (nameCase.uses line names)
      = undefinedVariables parameter line names := by
  rw [problems, NameCase.uses, List.filter_map, List.filterMap_map, undefinedVariables,
    ← List.filterMap_eq_map]
  rfl

/-- The kept declarations define what the definitions do, by the first of each name. -/
def Answers (kept : List Declaration) (definitions : List Definition) : Prop :=
  ∀ name, kept.find? (·.defines name)
    = (definitions.find? (·.name.image == name)).map Definition.lower

/-- A call is wrong if its name is not defined, or is with another number of parameters. -/
theorem problems_call (hkept : Answers kept definitions) (name : Token) (hasArgument : Bool) :
    problems kept parameter [.call name.image (if hasArgument then 2 else 1) name.line]
      = callViolations definitions name hasArgument := by
  show (Use.problem? kept (.call name.image (if hasArgument then 2 else 1) name.line)).toList = _
  rw [Use.problem?, hkept, callViolations]
  cases definitions.find? (·.name.image == name.image) with
  | none => rfl
  | some d =>
    have hcount : d.lower.paramCount = if d.parameter.name.isSome then 1 else 0 := rfl
    simp only [Option.map_some, hcount]
    cases d.parameter.name.isSome <;> cases hasArgument <;> rfl

/-- The problems of the code of a statement are the statement's violations.  By induction on the
code: a construct states its line, uses the names of its head there, and then those of its parts. -/
theorem Code.problems_uses {part : Part} (c : Code part) (hkept : Answers kept definitions)
    (hlines : ∀ t ∈ c.children.tokens, t.statedLine = t.line) :
    problems kept parameter (uses 1 c.lower) = c.violations definitions parameter := by
  -- code states its line before it uses a name, so it may be looked at from line 1
  have hstates {part : Part} (c : Code part) : StatesLines c.lower :=
    statementwise_statesLines.braced c
  induction c with
  | nil => rfl
  | cons head tail ihh iht =>
    rw [lower, uses_append_of_statesLines (hstates tail), problems_append,
      ihh fun t ht => hlines t (by simp [children, ht]),
      iht fun t ht => hlines t (by simp [children, ht])]
    rfl
  | empty semicolon => rfl
  | builtin action keyword left right semicolon => rw [lower, uses_builtin]; rfl
  | call name left argument right semicolon =>
    have hname : name.statedLine = name.line :=
      hlines name (by cases argument <;> simp [children, callView])
    rw [lower, uses_call, problems_append, problems_variables, hname]
    exact congrArg _ (problems_call hkept name argument.isSome)
  | cond keyword left test right yes ih =>
    rw [lower, uses_cond keyword test (hstates yes) (by simp), problems_append, problems_append,
      problems_variables, hlines keyword (by simp [children]),
      ih fun t ht => hlines t (by simp [children, ht])]
    exact List.append_nil _
  | condElse keyword left test right yes otherwise no ihy ihn =>
    rw [lower, uses_cond keyword test (hstates yes) (by simpa using hstates no), problems_append,
      problems_append, problems_variables, hlines keyword (by simp [children]),
      ihy fun t ht => hlines t (by simp [children, ht]), Option.getD_some,
      ihn fun t ht => hlines t (by simp [children, ht])]
    rfl
  | whileDo keyword left test right body ih =>
    rw [lower, uses_whileDo keyword test (hstates body), problems_append, problems_variables,
      hlines keyword (by simp [children]), ih fun t ht => hlines t (by simp [children, ht])]
    rfl
  | times keyword left count right body ih =>
    rw [lower, uses_times keyword count (hstates body), problems_append, problems_variables,
      hlines keyword (by simp [children]), ih fun t ht => hlines t (by simp [children, ht])]
    rfl
  | block left body right ih => exact ih fun t ht => hlines t (by simp [children, ht])

end Code

/-! ## §4. Programs. -/

/-- A body uses what its statements do, the parameter apart. -/
theorem Definition.uses_body (d : Definition) (line : Nat) :
    uses line (d.lower.body.getD [])
      = (uses 1 d.block.body.lower).filter
          (!·.isBound (d.parameter.name.map (·.image))) :=
  uses_function d.name d.parameter.name (statementwise_statesLines.braced d.block.body)

/-- Of a name that is defined more than once, the first definition answers. -/
theorem answers_firstDefinitions (definitions : List Definition) :
    Answers ((firstDefinitions [] definitions).map Definition.lower) definitions := by
  intro name
  have hnone : isDefined [] name = false := rfl
  have hdefines : (fun d : Declaration => d.defines name) ∘ Definition.lower
      = fun d => d.name.image == name := funext fun d => d.defines_lower name
  rw [List.find?_map, hdefines, find?_firstDefinitions hnone]

theorem mem_of_mem_firstDefinitions {before ds : List Definition} {d : Definition}
    (h : d ∈ firstDefinitions before ds) : d ∈ ds := by
  induction ds generalizing before with
  | nil => exact h
  | cons e ds ih =>
    rw [firstDefinitions, List.mem_append] at h
    rcases h with h | h
    · split at h
      · cases h
      · rw [List.mem_singleton.mp h]
        exact List.mem_cons_self
    · exact List.mem_cons_of_mem e (ih h)

/-- Linking reports the violations of a program.  These are the redefinitions, then what is wrong in
the main block, and then what is wrong in the definitions that were kept. -/
theorem Program.reports_lower {p : Program}
    (hlines : ∀ t ∈ p.view.tokens, t.statedLine = t.line) :
    p.lower.reports false = p.violations := by
  have hnames : ∀ name, isDefined [] name = isDefined [] name := fun _ => rfl
  obtain ⟨hkeep, hreports⟩ := keep_lower hnames p.definitions
  have hkept : p.lower.kept = (firstDefinitions [] p.definitions).map Definition.lower := hkeep
  have hanswers : Answers p.lower.kept p.definitions := by
    rw [hkept]
    exact answers_firstDefinitions p.definitions
  have hmain : uses 1 p.lower.entry = uses 1 p.main.block.body.lower :=
    uses_entry p.right (statementwise_statesLines.braced _)
  -- a body states its line first, so what stands before it leaves no trace
  have hbodies (line : Nat) : uses line (Declaration.bodies p.lower.kept).flatten
      = (firstDefinitions [] p.definitions).flatMap fun d =>
          uses 1 (d.lower.body.getD []) := by
    rw [hkept, uses_bodies, List.flatMap_map]
    intro d hd
    obtain ⟨d, -, rfl⟩ := List.mem_map.mp hd
    exact statesLines_function d.name d.parameter.name (statementwise_statesLines.braced _)
  have hmainProblems : problems p.lower.kept none (uses 1 p.main.block.body.lower)
      = p.main.block.body.violations p.definitions none := by
    refine Code.problems_uses _ hanswers fun t ht => hlines t ?_
    simp [Program.tokens_view, Main.tokens_view, Block.tokens_view, ht]
  have hproblems : ∀ d ∈ firstDefinitions [] p.definitions,
      (uses 1 (d.lower.body.getD [])).filterMap (Use.problem? p.lower.kept)
        = d.violations p.definitions := by
    -- binding the parameter takes its uses out, and what is left are the violations
    intro d hd
    rw [d.uses_body]
    refine Code.problems_uses _ hanswers fun t ht => hlines t ?_
    have hmem : t ∈ d.view.tokens := by
      simp [Definition.tokens_view, Block.tokens_view, ht]
    rw [Program.tokens_view]
    simp only [List.mem_cons, List.mem_append, List.mem_flatMap]
    exact .inl (.inl (.inr (.inr (.inr ⟨d, mem_of_mem_firstDefinitions hd, hmem⟩))))
  calc p.lower.reports false
      = redefinitions [] p.definitions
          ++ (problems p.lower.kept none (uses 1 p.main.block.body.lower)
            ++ (firstDefinitions [] p.definitions).flatMap fun d =>
                (uses 1 (d.lower.body.getD [])).filterMap (Use.problem? p.lower.kept)) := by
        rw [Unlinked.reports, uses_append, hmain, hbodies, List.filterMap_append,
          List.filterMap_flatMap, problems_none]
        exact congrArg (· ++ _) hreports
    _ = p.violations := by
        rw [hmainProblems, List.flatMap_congr hproblems, Program.violations, List.append_assoc]

/-- **Compiling reports exactly the violations.**  A program that parses compiles if it has none,
and otherwise fails with all of them, in their order and on their lines. -/
theorem compile_reports_violations {source : String} {parsed : Parsed Program}
    (hlines : lineCount source ≤ 2 ^ 32) (h : parse source = .ok parsed) :
    (parsed.program.violations = [] → ∃ code, compile source = .ok code)
      ∧ (parsed.program.violations ≠ [] →
          compile source = .error ⟨.linking, parsed.program.violations⟩) := by
  have hfits : ∀ t ∈ parsed.program.view.tokens, t.statedLine = t.line := by
    intro t ht
    rw [(spelled_of_parse h).2] at ht
    obtain ⟨hlo, hhi⟩ := Lexicon.line_of_mem_bodyTokens ht
    exact Token.statedLine_eq hlo (Nat.le_trans hhi hlines)
  have hcompile : compile source = link parsed.program.lower false := by
    simp [compile, h, bind, Except.bind]
  rw [hcompile, ← Program.reports_lower hfits]
  exact link_of_reports _ _

/-- A function that is defined twice and called with and without an argument,
and variables and a function that nothing defines. -/
def muddled : String :=
  "class program \x7b\nvoid f(n) \x7b iterate(succ(m)) g(n); \x7d\nvoid f() \x7b h(); \x7d\n"
    ++ "program() \x7b\n  if (iszero(n)) f(k);\n  f();\n\x7d\n\x7d"

/-- All that is wrong with it.  The second definition of `f` is not looked into. -/
def muddledViolations : List Diagnostic :=
  [.atLine .functionRedefinition "f" 3, .atLine .undefinedVariable "n" 5,
    .atLine .undefinedVariable "k" 5, .atLine .functionParameterMismatch "f" 6,
    .atLine .undefinedVariable "m" 2, .atLine .undefinedFunction "g" 2]

/-- The sample is parsed, and fails to compile with all of its violations and no others: those of
the main block first, then those of the first definition of `f`. -/
theorem muddled_reported :
    lineCount muddled ≤ 2 ^ 32 ∧ (∃ parsed, parse muddled = .ok parsed
        ∧ parsed.program.violations = muddledViolations)
      ∧ compile muddled = .error ⟨.linking, muddledViolations⟩ := by
  have hlines : lineCount muddled ≤ 2 ^ 32 := by decide +kernel
  have hviolations : (parse muddled).toOption.map (fun parsed => parsed.program.violations)
      = some muddledViolations := by decide +kernel
  generalize hparse : parse muddled = result at hviolations
  cases result with
  | error failure => cases hviolations
  | ok parsed =>
    have hparsed : parsed.program.violations = muddledViolations := Option.some.inj hviolations
    have hfails := (compile_reports_violations hlines hparse).2
    rw [hparsed] at hfails
    exact ⟨hlines, ⟨parsed, rfl, hparsed⟩, hfails (by decide)⟩

end RobotLang.Braced
