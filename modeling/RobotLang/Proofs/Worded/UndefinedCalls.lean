/-
  RobotLang.Proofs.Worded.UndefinedCalls
  ──────────────────────────────────────
  **HOW OFTEN A CALL TO NOTHING IS REPORTED.**

  Functions of the worded dialect have to be declared before they are called,
  and two passes look for calls that go nowhere:

      first    calls in a body to a name that is not declared up to there
      second   calls in the main part and in the bodies to a name without a body

  Definitions that contradict an earlier one are refused, and neither pass
  looks into them.  A call in a body to a name that is defined nowhere is
  found by both passes, so it is reported twice (`count_undefined_calls`).
-/
import RobotLang.Proofs.ControlFlow
import RobotLang.Proofs.Link.Reports

namespace RobotLang

/-! ## §1. Reports of calls. -/

/-- The diagnostic says that the function of that name, called on that line, is not defined. -/
def Diagnostic.isUndefined (name : String) (line : Nat) (d : Diagnostic) : Bool :=
  d.issue == .undefinedFunction && d.text == some name && d.line == some line

/-- The name and the line of a call. -/
def Use.call? : Use → Option (String × Nat)
  | .call name _ line => some (name, line)
  | .param _ _ => none

section Reports

variable {name : String} {line : Nat} {kept : List Declaration}

/-- A report of an undefined function is the one asked for if its name and its line are. -/
theorem Diagnostic.isUndefined_atLine (text : String) (number : Nat) :
    (Diagnostic.atLine .undefinedFunction text number).isUndefined name line
      = ((text, number) == (name, line)) := by
  rw [Bool.eq_iff_iff]
  simp [isUndefined, atLine, Diagnostic.text, Diagnostic.line]

/-- Reports about anything else do not count. -/
theorem Diagnostic.isUndefined_atLine_of_ne {issue : Issue} (h : issue ≠ .undefinedFunction)
    (text : String) (number : Nat) :
    (Diagnostic.atLine issue text number).isUndefined name line = false := by
  simp [isUndefined, atLine, h]

/-- A pass that reports every call, the names in order apart, reports a name
that is not in order as often as it is called. -/
theorem countP_filterMap_uses (inOrder : String → Bool) {report : Use → Option Diagnostic}
    (h : ∀ u, (report u).any (·.isUndefined name line)
      = u.call?.any fun call => !inOrder call.1 && call == (name, line)) (us : List Use) :
    (us.filterMap report).countP (·.isUndefined name line)
      = if inOrder name then 0 else (us.filterMap Use.call?).count (name, line) := by
  induction us with
  | nil => simp
  | cons u us ih =>
    have hreports : ((u :: us).filterMap report).countP (·.isUndefined name line)
        = (us.filterMap report).countP (·.isUndefined name line)
          + if (report u).any (·.isUndefined name line) then 1 else 0 := by
      rw [List.filterMap_cons]
      cases report u <;> simp [List.countP_cons]
    have hcalls : ((u :: us).filterMap Use.call?).count (name, line)
        = (us.filterMap Use.call?).count (name, line)
          + if u.call?.any (· == (name, line)) then 1 else 0 := by
      rw [List.filterMap_cons]
      cases u.call? <;> simp [List.count_cons]
    rw [hreports, hcalls, ih, h]
    cases u.call? with
    | none => simp
    | some call =>
      by_cases hcall : call = (name, line)
      · subst hcall
        cases hname : inOrder name <;> simp [hname]
      · simp [hcall]

/-- The first pass reports every call to a name that is not declared. -/
theorem countP_ahead (us : List Use) :
    (us.filterMap (Use.ahead? kept)).countP (·.isUndefined name line)
      = if kept.any (·.name == name) then 0 else (us.filterMap Use.call?).count (name, line) := by
  refine countP_filterMap_uses (fun name => kept.any (·.name == name)) ?_ us
  intro u
  cases u with
  | param => rfl
  | call text arity number =>
    cases hdeclared : kept.any (·.name == text) with
    | true => simp [Use.ahead?, Use.call?, hdeclared]
    | false => simp [Use.ahead?, Use.call?, hdeclared, Diagnostic.isUndefined_atLine]

/-- The second pass reports every call to a name that is not defined.  A call to a defined name may
be reported for the number of its arguments, which is another issue. -/
theorem countP_problem (us : List Use) :
    (us.filterMap (Use.problem? kept)).countP (·.isUndefined name line)
      = if kept.any (·.defines name) then 0 else (us.filterMap Use.call?).count (name, line) := by
  refine countP_filterMap_uses (fun name => kept.any (·.defines name)) ?_ us
  intro u
  cases u with
  | param => rfl
  | call text arity number =>
    show _ = (!kept.any (·.defines text) && (text, number) == (name, line))
    rw [Use.problem?]
    cases hdefined : kept.find? (·.defines text) with
    | none =>
      have hnone : kept.any (·.defines text) = false := by
        simpa using List.find?_eq_none.mp hdefined
      rw [hnone]
      exact Diagnostic.isUndefined_atLine text number
    | some d =>
      have hsome : kept.any (·.defines text) = true :=
        List.any_eq_true.mpr ⟨d, List.mem_of_find?_eq_some hdefined, List.find?_some hdefined⟩
      -- a call with the wrong number of arguments is reported, but not as undefined
      have hother : (Diagnostic.atLine .functionParameterMismatch text number).isUndefined name line
          = false := Diagnostic.isUndefined_atLine_of_ne (by decide) text number
      rw [hsome]
      by_cases harity : d.paramCount + 1 = arity <;> simp [harity, hother]

end Reports

namespace Worded

open Fragment

/-! ## §2. Calls of a program. -/

/-- The names of the functions that are called, where they are. -/
def Code.callNames {part : Part} : Code part → List Token
  | .nil => []
  | .cons head tail => head.callNames ++ tail.callNames
  | .empty _ => []
  | .ended command _ => command.callNames
  | .builtin _ _ => []
  | .call name => [name]
  | .callWith name _ _ _ => [name]
  | .cond _ _ _ yes => yes.callNames
  | .condElse _ _ _ yes _ no => yes.callNames ++ no.callNames
  | .whileDo _ _ _ body => body.callNames
  | .times _ _ _ body => body.callNames
  | .block _ body _ => body.callNames

/-- The names that a definition calls. -/
def Definition.callNames : Definition → List Token
  | .full _ _ _ _ body => body.callNames
  | .prototype _ _ _ _ => []

/-- Calls, each with the name that counts and the line where it is written. -/
def callsOf (names : List Token) : List (String × Nat) :=
  names.map fun t => (nameCase.name t, t.line)

namespace Definition

/-- The definition contradicts one of those kept so far. -/
def isRefused (kept : List Definition) (d : Definition) : Bool :=
  (d.lower.conflict? (kept.map lower)).isSome

/-- The definitions that stay, behind those kept so far. -/
def keep (kept : List Definition) : List Definition → List Definition
  | [] => kept
  | d :: ds => if d.isRefused kept then keep kept ds else keep (kept ++ [d]) ds

/-- The definitions that are refused. -/
def refuse (kept : List Definition) : List Definition → List Definition
  | [] => []
  | d :: ds => if d.isRefused kept then d :: refuse kept ds else refuse (kept ++ [d]) ds

/-- The calls in bodies that stay to names that are not declared up to there. -/
def callsAhead (kept : List Definition) : List Definition → List (String × Nat)
  | [] => []
  | d :: ds =>
    if d.isRefused kept then callsAhead kept ds
    else
      (callsOf d.callNames).filter (fun call => !(kept ++ [d]).any (·.lower.name == call.1))
        ++ callsAhead (kept ++ [d]) ds

end Definition

namespace Program

/-- All calls that are written. -/
def calls (p : Program) : List (String × Nat) :=
  callsOf (p.main.body.callNames ++ p.definitions.flatMap (·.callNames))

/-- The calls in the main part and in the definitions that stay. -/
def keptCalls (p : Program) : List (String × Nat) :=
  callsOf (p.main.body.callNames ++ (Definition.keep [] p.definitions).flatMap (·.callNames))

/-- The calls in definitions that are refused. -/
def refusedCalls (p : Program) : List (String × Nat) :=
  callsOf ((Definition.refuse [] p.definitions).flatMap (·.callNames))

/-- The calls in bodies that stay to names that are not declared up to there. -/
def callsAhead (p : Program) : List (String × Nat) :=
  Definition.callsAhead [] p.definitions

/-- A definition that stays gives the name a body. -/
def isDefined (p : Program) (name : String) : Bool :=
  (Definition.keep [] p.definitions).any (·.lower.defines name)

end Program

/-! ## §3. Calls in the code. -/

/-- Variables are no calls. -/
theorem filterMap_call?_variables (line : Nat) (names : List Token) :
    (nameCase.uses line names).filterMap Use.call? = [] := by
  simp [NameCase.uses, Use.call?]

/-- Leaving out the parameter leaves all calls. -/
theorem filterMap_call?_filter (parameter : Option String) (us : List Use) :
    (us.filter (!·.isBound parameter)).filterMap Use.call? = us.filterMap Use.call? := by
  induction us with
  | nil => rfl
  | cons u us ih =>
    cases u with
    | call => simpa [Use.isBound, Use.call?] using ih
    | param name line =>
      rw [List.filter_cons]
      split <;> exact ih

/-- The code of a statement calls what the statement does.  By induction on the code, in the order
in which the names are written; conditions and numbers use variables only. -/
theorem Code.filterMap_call?_uses {part : Part} (c : Code part)
    (hlines : ∀ t ∈ c.callNames, t.statedLine = t.line) :
    (uses 1 c.lower).filterMap Use.call? = callsOf c.callNames := by
  -- code states its line before it uses a name, so it may be looked at from line 1
  have hstates {part : Part} (c : Code part) : StatesLines c.lower :=
    statementwise_statesLines.worded c
  induction c with
  | nil => rfl
  | cons head tail ihh iht =>
    rw [lower, uses_append_of_statesLines (hstates tail), List.filterMap_append,
      ihh fun t ht => hlines t (by simp [callNames, ht]),
      iht fun t ht => hlines t (by simp [callNames, ht])]
    simp [callNames, callsOf]
  | empty semicolon => rfl
  | ended command semicolon ih => exact ih hlines
  | builtin action keyword => rw [lower, uses_builtin]; rfl
  | call name =>
    have hname : name.statedLine = name.line := hlines name (by simp [callNames])
    show [(nameCase.name name, name.statedLine)] = [(nameCase.name name, name.line)]
    rw [hname]
  | callWith name left argument right =>
    have hname : name.statedLine = name.line := hlines name (by simp [callNames])
    have huses : uses 1 (callWith name left argument right).lower
        = nameCase.uses name.statedLine argument.variables
          ++ [.call (nameCase.name name) 2 name.statedLine] :=
      uses_call (nameCase.name name) name (some argument)
    rw [huses, List.filterMap_append, filterMap_call?_variables, hname]
    rfl
  | cond keyword test then_ yes ih =>
    rw [lower, uses_cond keyword test (hstates yes) (by simp), List.filterMap_append,
      List.filterMap_append, filterMap_call?_variables, ih hlines]
    simp [callNames]
  | condElse keyword test then_ yes otherwise no ihy ihn =>
    rw [lower, uses_cond keyword test (hstates yes) (by simpa using hstates no),
      List.filterMap_append, List.filterMap_append, filterMap_call?_variables, Option.getD_some,
      ihy fun t ht => hlines t (by simp [callNames, ht]),
      ihn fun t ht => hlines t (by simp [callNames, ht])]
    simp [callNames, callsOf]
  | whileDo keyword test do_ body ih =>
    rw [lower, uses_whileDo keyword test (hstates body), List.filterMap_append,
      filterMap_call?_variables, ih hlines]
    rfl
  | times keyword count unit body ih =>
    rw [lower, uses_times keyword count (hstates body), List.filterMap_append,
      filterMap_call?_variables, ih hlines]
    rfl
  | block opening body closing ih => exact ih hlines

/-- The code of a function calls what its body does, on the lines where the names stand. -/
theorem Definition.filterMap_call?_uses (d : Definition)
    (hlines : ∀ t ∈ d.callNames, t.statedLine = t.line) :
    (uses 1 (d.lower.body.getD [])).filterMap Use.call? = callsOf d.callNames := by
  cases d with
  | prototype => rfl
  | full keyword name parameter as_ body =>
    have huses : uses 1 ((full keyword name parameter as_ body).lower.body.getD [])
        = (uses 1 body.lower).filter
            (!·.isBound ((parameter.bind (·.name)).map nameCase.name)) :=
      uses_function name _ (statementwise_statesLines.worded body)
    rw [huses, filterMap_call?_filter]
    exact body.filterMap_call?_uses hlines

theorem Definition.statesLines_body (d : Definition) : StatesLines (d.lower.body.getD []) := by
  cases d with
  | prototype => exact fun _ => rfl
  | full keyword name parameter as_ body =>
    exact statesLines_function name _ (statementwise_statesLines.worded body)

/-! ## §4. Reports about the definitions. -/

section Definitions

variable {ds : List Definition} {name : String} {line : Nat}

/-- Which declarations stay can be told before they are lowered. -/
theorem keep_lower (kept ds : List Definition) :
    Declaration.keep (kept.map Definition.lower) (ds.map Definition.lower)
      = (Definition.keep kept ds).map Definition.lower := by
  induction ds generalizing kept with
  | nil => rfl
  | cons d ds ih =>
    rw [List.map_cons, Declaration.keep, Definition.keep, Definition.isRefused]
    cases d.lower.conflict? (kept.map Definition.lower) with
    | some issue => exact ih kept
    | none => simpa using ih (kept ++ [d])

/-- A call is left out if its name is declared, and counted as often as before if it is not. -/
theorem count_filter_calls (calls : List (String × Nat)) (declared : String → Bool) :
    (calls.filter fun call => !declared call.1).count (name, line)
      = if declared name then 0 else calls.count (name, line) := by
  split
  · next hname =>
    rw [List.count_eq_zero]
    intro hmem
    simpa [hname] using (List.mem_filter.mp hmem).2
  · next hname => exact List.count_filter (by simpa using hname)

/-- The first pass reports the calls ahead of any declaration.  By induction on the declarations,
with those that were kept so far. -/
theorem countP_reports (kept : List Definition)
    (hlines : ∀ d ∈ ds, ∀ t ∈ d.callNames, t.statedLine = t.line) :
    (Declaration.reports true (kept.map Definition.lower) (ds.map Definition.lower)).countP
        (·.isUndefined name line)
      = (Definition.callsAhead kept ds).count (name, line) := by
  induction ds generalizing kept with
  | nil => rfl
  | cons d ds ih =>
    rw [List.forall_mem_cons] at hlines
    rw [List.map_cons, Declaration.reports, Definition.callsAhead, Definition.isRefused]
    cases hconflict : d.lower.conflict? (kept.map Definition.lower) with
    | some issue =>
      -- a refused declaration is reported as such, and its calls are not looked at
      have hother : (Diagnostic.atLine issue d.lower.name d.lower.line).isUndefined name line
          = false :=
        Diagnostic.isUndefined_atLine_of_ne
          (Declaration.conflict?_ne_undefinedFunction hconflict) _ _
      simpa [List.countP_cons, hother] using ih kept hlines.2
    | none =>
      -- a call to the declaration itself is in order: it is looked up among those kept with it
      have hkept : kept.map Definition.lower ++ [d.lower] = (kept ++ [d]).map Definition.lower := by
        rw [List.map_append]
        rfl
      simp only [hkept, if_true, Option.isSome_none, Bool.false_eq_true, if_false]
      rw [List.countP_append, List.count_append, countP_ahead, ih (kept ++ [d]) hlines.2,
        d.filterMap_call?_uses hlines.1, List.any_map]
      rw [count_filter_calls (callsOf d.callNames) fun name =>
        (kept ++ [d]).any (·.lower.name == name)]
      rfl

/-- No definition is lost. -/
theorem keep_append_refuse (kept ds : List Definition) :
    (Definition.keep kept ds ++ Definition.refuse kept ds).Perm (kept ++ ds) := by
  induction ds generalizing kept with
  | nil => exact .refl _
  | cons d ds ih =>
    rw [Definition.keep, Definition.refuse]
    split
    · exact (List.perm_middle.trans ((ih kept).cons d)).trans List.perm_middle.symm
    · simpa using ih (kept ++ [d])

/-- What is called ahead is called in a definition that stays. -/
theorem count_callsAhead_le (kept ds : List Definition) :
    (callsOf (kept.flatMap (·.callNames))).count (name, line)
        + (Definition.callsAhead kept ds).count (name, line)
      ≤ (callsOf ((Definition.keep kept ds).flatMap (·.callNames))).count (name, line) := by
  induction ds generalizing kept with
  | nil => simp [Definition.callsAhead, Definition.keep]
  | cons d ds ih =>
    rw [Definition.callsAhead, Definition.keep]
    split
    · exact ih kept
    · have hkept := ih (kept ++ [d])
      have hahead : ((callsOf d.callNames).filter fun call =>
          !(kept ++ [d]).any (·.lower.name == call.1)).count (name, line)
            ≤ (callsOf d.callNames).count (name, line) :=
        List.filter_sublist.count_le (name, line)
      simp only [List.flatMap_append, callsOf, List.map_append, List.count_append,
        List.flatMap_singleton] at hkept hahead ⊢
      omega

end Definitions

/-! ## §5. Programs. -/

section Programs

variable {p : Program}

/-- Calls are counted where they stand: in definitions that stay, and in those that are refused. -/
theorem count_calls (p : Program) (name : String) (line : Nat) :
    p.calls.count (name, line)
      = p.keptCalls.count (name, line) + p.refusedCalls.count (name, line) := by
  have hperm : (callsOf ((Definition.keep [] p.definitions).flatMap (·.callNames)
      ++ (Definition.refuse [] p.definitions).flatMap (·.callNames))).Perm
        (callsOf (p.definitions.flatMap (·.callNames))) := by
    rw [← List.flatMap_append]
    exact ((keep_append_refuse [] p.definitions).flatMap_right _).map _
  have hcount := hperm.count_eq (name, line)
  simp only [Program.calls, Program.keptCalls, Program.refusedCalls, callsOf, List.map_append,
    List.count_append] at hcount ⊢
  omega

/-- What is called ahead of any declaration is called in what stays. -/
theorem count_callsAhead_le_keptCalls (p : Program) (name : String) (line : Nat) :
    p.callsAhead.count (name, line) ≤ p.keptCalls.count (name, line) := by
  have hle : _ ≤ (callsOf ((Definition.keep [] p.definitions).flatMap (·.callNames))).count
      (name, line) := count_callsAhead_le [] p.definitions
  simp only [Program.callsAhead, Program.keptCalls, callsOf, List.map_append,
    List.count_append] at hle ⊢
  omega

/-- All names that the program calls. -/
def Program.callNames (p : Program) : List Token :=
  p.main.body.callNames ++ p.definitions.flatMap (·.callNames)

/-- What stays was there. -/
theorem mem_of_mem_keep {kept ds : List Definition} {d : Definition}
    (h : d ∈ Definition.keep kept ds) : d ∈ kept ++ ds :=
  (keep_append_refuse kept ds).subset (List.mem_append_left _ h)

/-- The code of what stays calls what is written there.  Each body states its line first, so it can
be looked at on its own. -/
theorem filterMap_call?_code (hlines : ∀ t ∈ p.callNames, t.statedLine = t.line) :
    (uses 1 (p.lower.entry ++ (Declaration.bodies p.lower.kept).flatten)).filterMap Use.call?
      = p.keptCalls := by
  have hkept : p.lower.kept = (Definition.keep [] p.definitions).map Definition.lower :=
    keep_lower [] p.definitions
  have hmain : uses 1 p.lower.entry = uses 1 p.main.body.lower :=
    uses_entry p.closing (statementwise_statesLines.worded _)
  have hstates : ∀ d ∈ p.lower.kept, StatesLines (d.body.getD []) := by
    rw [hkept]
    intro d hd
    obtain ⟨d, -, rfl⟩ := List.mem_map.mp hd
    exact d.statesLines_body
  have hdefinitions : ∀ d ∈ Definition.keep [] p.definitions,
      (uses 1 (d.lower.body.getD [])).filterMap Use.call? = callsOf d.callNames := by
    intro d hd
    refine d.filterMap_call?_uses fun t ht => hlines t (List.mem_append_right _ ?_)
    exact List.mem_flatMap.mpr ⟨d, mem_of_mem_keep hd, ht⟩
  rw [uses_append, uses_bodies hstates, hmain, List.filterMap_append, List.filterMap_flatMap,
    p.main.body.filterMap_call?_uses fun t ht => hlines t (List.mem_append_left _ ht), hkept,
    List.flatMap_map, List.flatMap_congr hdefinitions]
  simp [Program.keptCalls, callsOf, List.map_flatMap]

/-- The two passes over a program, call by call. -/
theorem countP_reports_lower (hlines : ∀ t ∈ p.callNames, t.statedLine = t.line) (name : String)
    (line : Nat) :
    (p.lower.reports true).countP (·.isUndefined name line)
      = p.callsAhead.count (name, line)
        + if p.isDefined name then 0 else p.keptCalls.count (name, line) := by
  have hkept : p.lower.kept = (Definition.keep [] p.definitions).map Definition.lower :=
    keep_lower [] p.definitions
  have hdefined : p.lower.kept.any (·.defines name) = p.isDefined name := by
    rw [hkept, List.any_map]
    rfl
  have hahead : (Declaration.reports true [] p.lower.declarations).countP (·.isUndefined name line)
      = p.callsAhead.count (name, line) := by
    refine countP_reports [] fun d hd t ht => hlines t (List.mem_append_right _ ?_)
    exact List.mem_flatMap.mpr ⟨d, hd, ht⟩
  rw [Unlinked.reports, List.countP_append, hahead, countP_problem, hdefined,
    filterMap_call?_code hlines]

end Programs

/-! ## §6. Sources. -/

section Sources

variable {t : Token}

/-- A called name is a name of the source.  By induction on the code, construct by construct. -/
theorem Code.spelled_of_mem_callNames {parens : Bool} {part : Part} {c : Code part}
    (hc : c.Spelled parens) (ht : t ∈ c.callNames) :
    t.kind = .identifier ∧ t ∈ c.children.tokens := by
  induction c with
  | nil | empty | builtin => cases ht
  | cons head tail ihh iht =>
    rcases List.mem_append.mp ht with ht | ht
    · exact ⟨(ihh hc.1 ht).1, by simp [children, (ihh hc.1 ht).2]⟩
    · exact ⟨(iht hc.2 ht).1, by simp [children, (iht hc.2 ht).2]⟩
  | ended command semicolon ih =>
    exact ⟨(ih hc.1 ht).1, by simp [children, (ih hc.1 ht).2]⟩
  | call name =>
    obtain rfl := List.mem_singleton.mp ht
    exact ⟨hc, by simp [children]⟩
  | callWith name left argument right =>
    obtain rfl := List.mem_singleton.mp ht
    exact ⟨hc.1, by simp [children]⟩
  | cond keyword test then_ yes ih =>
    obtain ⟨hkind, hmem⟩ := ih hc.2.2.2 ht
    exact ⟨hkind, by simp [children, hmem]⟩
  | condElse keyword test then_ yes otherwise no ihy ihn =>
    obtain ⟨-, -, -, hyes, -, hno⟩ := hc
    rcases List.mem_append.mp ht with ht | ht
    · exact ⟨(ihy hyes ht).1, by simp [children, (ihy hyes ht).2]⟩
    · exact ⟨(ihn hno ht).1, by simp [children, (ihn hno ht).2]⟩
  | whileDo keyword test do_ body ih =>
    obtain ⟨hkind, hmem⟩ := ih hc.2.2.2 ht
    exact ⟨hkind, by simp [children, hmem]⟩
  | times keyword count unit body ih =>
    obtain ⟨hkind, hmem⟩ := ih hc.2.2.2 ht
    exact ⟨hkind, by simp [children, hmem]⟩
  | block opening body closing ih =>
    obtain ⟨hkind, hmem⟩ := ih hc.2.1 ht
    exact ⟨hkind, by simp [children, hmem]⟩

/-- The names that a spelled program calls are names of its source. -/
theorem Program.spelled_of_mem_callNames {parens : Bool} {p : Program} (hp : p.Spelled parens)
    (ht : t ∈ p.callNames) : t.kind = .identifier ∧ t ∈ p.view.tokens := by
  obtain ⟨-, hdefinitions, hmain, -⟩ := hp
  rcases List.mem_append.mp ht with ht | ht
  · obtain ⟨hkind, hmem⟩ := Code.spelled_of_mem_callNames hmain.2.1 ht
    exact ⟨hkind, by simp [Program.tokens_view, Main.tokens_view, hmem]⟩
  · obtain ⟨d, hd, ht⟩ := List.mem_flatMap.mp ht
    cases d with
    | prototype => cases ht
    | full keyword name parameter as_ body =>
      obtain ⟨-, -, -, -, hbody⟩ := hdefinitions _ hd
      obtain ⟨hkind, hmem⟩ := Code.spelled_of_mem_callNames hbody ht
      have hview : t ∈ (Definition.full keyword name parameter as_ body).view.tokens := by
        simp [Definition.view, Node.tokens, hmem]
      refine ⟨hkind, ?_⟩
      rw [Program.tokens_view]
      simp only [List.mem_cons, List.mem_append, List.mem_flatMap]
      exact .inl (.inl (.inr ⟨_, hd, hview⟩))

/-- Settling moves no name. -/
@[simp] theorem Code.callNames_settle {part : Part} (c : Code part) :
    c.settle.callNames = c.callNames := by
  induction c <;> simp_all [settle, callNames]

theorem Program.callNames_settle (p : Program) : p.settle.callNames = p.callNames := by
  have hdefinition (d : Definition) : d.settle.callNames = d.callNames := by
    cases d <;> simp [Definition.settle, Definition.callNames]
  simp [Program.callNames, Program.settle, List.flatMap_map, hdefinition]

/-- In a source of no more lines than an operand can state, a call is reported on the line of its
name. -/
theorem statedLine_of_mem_callNames {source : String} {parsed : Parsed Program}
    (hlines : lineCount source ≤ 2 ^ 32) (h : parse source = .ok parsed)
    (ht : t ∈ parsed.program.callNames) : t.statedLine = t.line := by
  obtain ⟨s, p, cs, -, hspelled, hreads, -, hp⟩ := exists_reads_of_parse h
  have ht' : t ∈ p.callNames := by
    rw [hp] at ht
    split at ht
    · exact ht
    · rwa [Program.callNames_settle] at ht
  obtain ⟨hkind, hmem⟩ := Program.spelled_of_mem_callNames hspelled ht'
  -- a repair only puts in `;`
  rcases hreads.mem_or_inserted hmem with hbody | ⟨hsemi, -⟩
  · obtain ⟨hlo, hhi⟩ := Lexicon.line_of_mem_bodyTokens hbody
    exact Token.statedLine_eq hlo (Nat.le_trans hhi hlines)
  · rw [hkind] at hsemi
    cases hsemi

end Sources

/-- A source that was parsed is lowered and linked, with functions wanted declared first. -/
theorem compile_of_parse {source : String} {parsed : Parsed Program}
    (h : parse source = .ok parsed) : compile source = link parsed.program.lower true := by
  simp [compile, h, bind, Except.bind]

/-- **How often a call to nothing is reported.**  A name is reported for every call ahead of its
declaration and, unless it is defined, for every call that is looked into; so never more than twice
for a call that is written.  It is reported once at most exactly when it is defined or no more of
its calls stand ahead than in refused definitions. -/
theorem count_undefined_calls {source : String} {parsed : Parsed Program} {failure : Failure}
    (hlines : lineCount source ≤ 2 ^ 32) (hparse : parse source = .ok parsed)
    (hfails : compile source = .error failure) (name : String) (line : Nat) :
    failure.diagnostics.countP (·.isUndefined name line)
        = parsed.program.callsAhead.count (name, line)
          + (if parsed.program.isDefined name then 0
              else parsed.program.keptCalls.count (name, line))
      ∧ failure.diagnostics.countP (·.isUndefined name line)
        ≤ 2 * parsed.program.calls.count (name, line)
      ∧ (failure.diagnostics.countP (·.isUndefined name line)
          ≤ parsed.program.calls.count (name, line)
        ↔ parsed.program.isDefined name
          ∨ parsed.program.callsAhead.count (name, line)
            ≤ parsed.program.refusedCalls.count (name, line)) := by
  have hcompile := compile_of_parse hparse
  -- parsing went well, so the complaints are those of linking
  have hreports : failure.diagnostics = parsed.program.lower.reports true := by
    rw [hcompile] at hfails
    obtain ⟨hok, herror⟩ := link_of_reports parsed.program.lower true
    by_cases hnone : parsed.program.lower.reports true = []
    · obtain ⟨code, hcode⟩ := hok hnone
      rw [hcode] at hfails
      cases hfails
    · rw [herror hnone] at hfails
      cases hfails
      rfl
  have hcount := countP_reports_lower
    (fun _ => statedLine_of_mem_callNames hlines hparse) name line
  have hcalls := count_calls parsed.program name line
  have hahead := count_callsAhead_le_keptCalls parsed.program name line
  rw [hreports, hcount]
  refine ⟨rfl, ?_, ?_⟩
  · split <;> omega
  · cases parsed.program.isDefined name <;> simp <;> omega

/-- The body of `a` calls `b`, which nothing declares. -/
def bodyCallsNothing : String :=
  "iniciar-programa define-nueva-instrucción a como b; inicia-ejecución a; "
    ++ "termina-ejecución finalizar-programa"

/-- A call that is written once is reported twice: once as ahead of any declaration, and once as a
call to nothing. -/
theorem bodyCallsNothing_fails :
    ∃ parsed failure, lineCount bodyCallsNothing ≤ 2 ^ 32
      ∧ parse bodyCallsNothing = .ok parsed ∧ compile bodyCallsNothing = .error failure
      ∧ failure.diagnostics
        = [.atLine .undefinedFunction "b" 1, .atLine .undefinedFunction "b" 1]
      ∧ parsed.program.calls = [("a", 1), ("b", 1)]
      ∧ parsed.program.keptCalls = [("a", 1), ("b", 1)]
      ∧ parsed.program.callsAhead = [("b", 1)] ∧ parsed.program.isDefined "b" = false := by
  have hlines : lineCount bodyCallsNothing ≤ 2 ^ 32 := by decide +kernel
  have hprogram : (parse bodyCallsNothing).toOption.map (fun parsed =>
      (parsed.program.lower.reports true,
        [parsed.program.calls, parsed.program.keptCalls, parsed.program.callsAhead],
        parsed.program.isDefined "b"))
        = some ([.atLine .undefinedFunction "b" 1, .atLine .undefinedFunction "b" 1],
          [[("a", 1), ("b", 1)], [("a", 1), ("b", 1)], [("b", 1)]], false) := by
    decide +kernel
  generalize hparse : parse bodyCallsNothing = result at hprogram
  cases result with
  | error failure => cases hprogram
  | ok parsed =>
    simp only [Except.toOption, Option.map_some, Option.some.injEq, Prod.mk.injEq] at hprogram
    obtain ⟨hreports, hcalls, hundefined⟩ := hprogram
    simp only [List.cons.injEq, and_true] at hcalls
    have hfails : compile bodyCallsNothing
        = .error ⟨.linking, parsed.program.lower.reports true⟩ := by
      rw [compile_of_parse hparse]
      exact (link_of_reports _ true).2 (by rw [hreports]; decide)
    exact ⟨parsed, _, hlines, rfl, hfails, hreports, hcalls.1, hcalls.2.1, hcalls.2.2, hundefined⟩

/-- The one call of `b` is ahead of any declaration and goes nowhere. -/
theorem bodyCallsNothing_reported_twice :
    ∃ parsed failure, lineCount bodyCallsNothing ≤ 2 ^ 32
      ∧ parse bodyCallsNothing = .ok parsed ∧ compile bodyCallsNothing = .error failure
      ∧ parsed.program.calls.count ("b", 1) = 1
      ∧ failure.diagnostics.countP (·.isUndefined "b" 1) = 1 + 1 := by
  obtain ⟨parsed, failure, hlines, hparse, hfails, -, hcalls, hkept, hahead, hundefined⟩ :=
    bodyCallsNothing_fails
  have hcount := (count_undefined_calls hlines hparse hfails "b" 1).1
  rw [hahead, hundefined, hkept] at hcount
  exact ⟨parsed, failure, hlines, hparse, hfails, by rw [hcalls]; decide, hcount⟩

/-- Calls that go nowhere can be reported more often than they are written. -/
theorem not_reported_at_most_once :
    ¬∀ (source : String) (parsed : Parsed Program) (failure : Failure),
      lineCount source ≤ 2 ^ 32 → parse source = .ok parsed → compile source = .error failure →
      ∀ name line, failure.diagnostics.countP (·.isUndefined name line)
        ≤ parsed.program.calls.count (name, line) := by
  intro h
  obtain ⟨parsed, failure, hlines, hparse, hfails, hdiagnostics, hcalls, -⟩ :=
    bodyCallsNothing_fails
  have hle := h _ parsed failure hlines hparse hfails "b" 1
  rw [hdiagnostics, hcalls] at hle
  exact absurd hle (by decide)

end Worded
end RobotLang
