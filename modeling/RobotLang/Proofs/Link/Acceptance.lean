/-
  RobotLang.Proofs.Link.Acceptance
  ────────────────────────────────
  **WHICH PROGRAMS CAN BE LINKED.**

  Whether a program can be linked is a property of its declarations and its
  code alone (`WellDeclared`): the declarations of a name do not contradict
  each other, every call goes to a definition that takes as many arguments, no
  parameter is left over, and where functions have to be declared first, every
  body calls what stands above it or itself.

      (∃ code, link u declareFirst = .ok code)  ↔  WellDeclared u declareFirst

  What carries the first pass is that the table records the declarations so
  far (`Records`).  A declaration is then taken exactly when it fits all
  declarations before it (`declare_isOk_iff`).
-/
import RobotLang.Proofs.Link.Layout

namespace RobotLang

/-! ## §1. Well-declared programs. -/

/-- The declarations of a name do not contradict each other. -/
structure Consistent (ds : List Declaration) : Prop where
  /-- No two definitions share a name. -/
  definedOnce : ds.Pairwise fun d e => d.body.isSome → e.body.isSome → d.name ≠ e.name
  /-- Nothing of its name stands before a prototype. -/
  announcedFirst : ds.Pairwise fun d e => e.body = none → d.name ≠ e.name
  /-- A definition has the parameters of a prototype before it. -/
  announcedAlike : ds.Pairwise fun d e =>
    d.body = none → e.body.isSome → d.name = e.name → d.paramCount = e.paramCount

/-- A body calls only what is declared up to and with its own declaration. -/
def DeclaredFirst (ds : List Declaration) : Prop :=
  ∀ (i : Nat) (d : Declaration) (body : Fragment) (name : String) (arity : Nat),
    ds[i]? = some d → d.body = some body → .call name arity ∈ body →
      ∃ j ≤ i, ∃ e : Declaration, ds[j]? = some e ∧ e.name = name

/-- The instruction stands in the entry or in a body. -/
def Unlinked.Holds (u : Unlinked) (instr : Instr) : Prop :=
  instr ∈ u.entry ∨ ∃ d ∈ u.declarations, ∃ body, d.body = some body ∧ instr ∈ body

/-- The program has what linking asks for. -/
structure WellDeclared (u : Unlinked) (declareFirst : Bool) : Prop where
  consistent : Consistent u.declarations
  /-- A call goes to a definition that takes as many arguments. -/
  callsDefined : ∀ name arity, u.Holds (.call name arity) →
    ∃ d ∈ u.declarations, d.name = name ∧ d.body.isSome ∧ d.paramCount + 1 = arity
  /-- Every parameter was resolved. -/
  noParam : ∀ name, ¬u.Holds (.param name)
  declaredFirst : declareFirst = true → DeclaredFirst u.declarations

/-! ## §2. One declaration after the others. -/

/-- The second declaration may stand behind the first: if both are for one
name, the first announces what the second defines. -/
def Declaration.Fits (d e : Declaration) : Prop :=
  d.name = e.name → d.body = none ∧ e.body.isSome ∧ d.paramCount = e.paramCount

/-- Declarations are consistent if each fits all those behind it.  Of two declarations of one name,
the first has no body, the second has one, and both have the same number of parameters. -/
theorem consistent_iff {ds : List Declaration} :
    Consistent ds ↔ ds.Pairwise Declaration.Fits := by
  constructor
  · rintro ⟨honce, hfirst, halike⟩
    -- of two declarations of a name the first has no body and the second has one
    refine ((honce.and hfirst).and halike).imp ?_
    rintro d e ⟨⟨honce, hfirst⟩, halike⟩ hname
    have hbody : e.body.isSome := by
      rw [Option.isSome_iff_ne_none]
      exact fun hnone => hfirst hnone hname
    have hnone : d.body = none := by
      rw [← Option.not_isSome_iff_eq_none]
      exact fun hsome => honce hsome hbody hname
    exact ⟨hnone, hbody, halike hnone hbody hname⟩
  · intro h
    refine ⟨h.imp ?_, h.imp ?_, h.imp ?_⟩
    · intro d e hfits hd _ hname
      simp [(hfits hname).1] at hd
    · intro d e hfits he hname
      have hbody := (hfits hname).2.1
      simp [he] at hbody
    · intro d e hfits _ _ hname
      exact (hfits hname).2.2

/-- The body, if there is one, calls only names of these declarations. -/
def Declaration.CallsAmong (d : Declaration) (ds : List Declaration) : Prop :=
  ∀ body, d.body = some body → ∀ name arity, .call name arity ∈ body → ∃ e ∈ ds, e.name = name

/-- One more declaration calls what is declared up to it, itself among it.  Those before it look no
further than to themselves, so it makes no difference to them. -/
theorem declaredFirst_concat {ds : List Declaration} {d : Declaration} :
    DeclaredFirst (ds ++ [d]) ↔ DeclaredFirst ds ∧ d.CallsAmong (ds ++ [d]) := by
  constructor
  · intro h
    constructor
    · intro i e body name arity hi hbody hcall
      have hlt : i < ds.length := (List.getElem?_eq_some_iff.mp hi).1
      rw [← List.getElem?_append_left hlt] at hi
      obtain ⟨j, hj, f, hf, hname⟩ := h i e body name arity hi hbody hcall
      rw [List.getElem?_append_left (by omega)] at hf
      exact ⟨j, hj, f, hf, hname⟩
    · intro body hbody name arity hcall
      obtain ⟨j, _, f, hf, hname⟩ :=
        h ds.length d body name arity List.getElem?_concat_length hbody hcall
      exact ⟨f, List.mem_of_getElem? hf, hname⟩
  · rintro ⟨hds, hd⟩ i e body name arity hi hbody hcall
    by_cases hlt : i < ds.length
    · rw [List.getElem?_append_left hlt] at hi
      obtain ⟨j, hj, f, hf, hname⟩ := hds i e body name arity hi hbody hcall
      exact ⟨j, hj, f, by rwa [List.getElem?_append_left (by omega)], hname⟩
    · -- the last declaration may call any of them
      have hle : i < (ds ++ [d]).length := (List.getElem?_eq_some_iff.mp hi).1
      obtain rfl : i = ds.length := by
        rw [List.length_append, List.length_singleton] at hle
        omega
      obtain rfl : d = e := by simpa using hi
      obtain ⟨f, hf, hname⟩ := hd body hbody name arity hcall
      obtain ⟨j, hj, hget⟩ := List.getElem_of_mem hf
      rw [List.length_append, List.length_singleton] at hj
      exact ⟨j, by omega, f, by rw [← hget]; exact List.getElem?_eq_getElem _, hname⟩

/-! ## §3. The table records the declarations. -/

/-- What the table knows is what the declarations say. -/
structure Records (ds : List Declaration) (table : FunctionTable) : Prop where
  find : ∀ d ∈ ds, ∃ index, table.find? d.name = some ⟨index, d.paramCount⟩
    ∧ (d.body.isSome → index.isSome)
  origin : ∀ name sig, table.find? name = some sig →
    ∃ d ∈ ds, d.name = name ∧ d.paramCount = sig.paramCount ∧ d.body.isSome = sig.index.isSome

/-- A declaration is taken unless the table knows its name, or knows it only as
announced with the same parameters. -/
theorem FunctionTable.declare_isOk_iff {table : FunctionTable} {d : Declaration} {index : Nat} :
    (∃ table', table.declare d index = .ok table')
      ↔ ∀ known, table.find? d.name = some known →
          d.body.isSome ∧ known.index = none ∧ known.paramCount = d.paramCount := by
  unfold FunctionTable.declare
  cases hbody : d.body with
  | none =>
    cases hfind : table.find? d.name with
    | none => simp
    | some known => simp
  | some body =>
    cases hfind : table.find? d.name with
    | none => simp
    | some known =>
      simp only [Option.some.injEq, forall_eq', Option.isSome_some, true_and]
      split
      · next hindex => simp [Option.isSome_iff_ne_none.mp hindex]
      · next hindex =>
        have hnone : known.index = none := by simpa using hindex
        split
        · next hcount => simp [hcount]
        · next hcount => simpa [hnone] using hcount

namespace Records

variable {ds : List Declaration} {table : FunctionTable} {d : Declaration} {index : Nat}

theorem nil : Records [] [] where
  find := by simp
  origin := by simp [FunctionTable.find?]

/-- The table knows the names of the declarations it records. -/
theorem knows_iff (h : Records ds table) {name : String} :
    table.knows name = true ↔ ∃ d ∈ ds, d.name = name := by
  unfold FunctionTable.knows
  rw [Option.isSome_iff_exists]
  constructor
  · rintro ⟨sig, hsig⟩
    obtain ⟨d, hd, hname, _⟩ := h.origin name sig hsig
    exact ⟨d, hd, hname⟩
  · rintro ⟨d, hd, rfl⟩
    obtain ⟨index, hfind, _⟩ := h.find d hd
    exact ⟨_, hfind⟩

/-- A declaration is taken when it fits all those before it. -/
theorem declare_iff_fits (h : Records ds table) :
    (∃ table', table.declare d index = .ok table') ↔ ∀ d' ∈ ds, d'.Fits d := by
  rw [FunctionTable.declare_isOk_iff]
  constructor
  · intro hdeclare d' hd' hname
    obtain ⟨known, hfind, hdefined⟩ := h.find d' hd'
    rw [hname] at hfind
    obtain ⟨hbody, hnone, hcount⟩ := hdeclare _ hfind
    refine ⟨?_, hbody, hcount⟩
    rw [← Option.not_isSome_iff_eq_none]
    intro hsome
    simpa [show known = none from hnone] using hdefined hsome
  · intro hfits known hfind
    obtain ⟨d', hd', hname, hcount, hdefined⟩ := h.origin d.name known hfind
    obtain ⟨hnone, hbody, hcount'⟩ := hfits d' hd' hname
    refine ⟨hbody, ?_, hcount.symm.trans hcount'⟩
    simpa [hnone] using hdefined.symm

/-- The table goes on recording when a declaration that fits is added to it.  An entry of the same
name in front of it can only be one without a body, which it answers for. -/
theorem concat (h : Records ds table) (hfits : ∀ d' ∈ ds, d'.Fits d) :
    Records (ds ++ [d]) ((d.name, ⟨d.body.map fun _ => index, d.paramCount⟩) :: table) := by
  constructor
  · intro d' hd'
    rw [FunctionTable.find?_cons]
    rcases List.mem_append.mp hd' with hd' | hd'
    · split
      · next hname =>
        -- the name was announced, so its body is still to come
        obtain ⟨hnone, _, hcount⟩ := hfits d' hd' hname
        exact ⟨_, by rw [hcount], by simp [hnone]⟩
      · exact h.find d' hd'
    · obtain rfl := List.mem_singleton.mp hd'
      rw [if_pos rfl]
      exact ⟨_, rfl, by simp⟩
  · intro name sig hfind
    rw [FunctionTable.find?_cons] at hfind
    split at hfind
    · next hname =>
      obtain rfl := Option.some.inj hfind
      exact ⟨d, by simp, hname.symm, rfl, by simp⟩
    · obtain ⟨d', hd', hrest⟩ := h.origin name sig hfind
      exact ⟨d', List.mem_append_left _ hd', hrest⟩

end Records

/-! ## §4. The first pass. -/

/-- Nothing is reported if every call is to a name that the table knows.  By induction on the code;
the line that is carried along does not matter. -/
theorem undeclaredCalls_eq_nil_iff {table : FunctionTable} {line : Nat} {f : Fragment} :
    undeclaredCalls table line f = []
      ↔ ∀ name arity, Instr.call name arity ∈ f → table.knows name = true := by
  induction f generalizing line with
  | nil => simp [undeclaredCalls]
  | cons instr f ih =>
    cases instr with
    | op opcode => simp [undeclaredCalls, ih]
    | param name => simp [undeclaredCalls, ih]
    | call name arity =>
      simp only [undeclaredCalls, List.mem_cons, Instr.call.injEq]
      by_cases hknows : table.knows name = true
      · rw [if_pos hknows, ih]
        constructor
        · rintro h name' arity' (⟨rfl, _⟩ | hmem)
          · exact hknows
          · exact h name' arity' hmem
        · exact fun h name' arity' hmem => h name' arity' (.inr hmem)
      · rw [if_neg hknows]
        simp only [reduceCtorEq, false_iff, not_forall]
        exact ⟨name, arity, .inl ⟨rfl, rfl⟩, hknows⟩

/-- Nothing is reported about a declaration that fits those before it and, where
that is asked for, calls only what is declared. -/
theorem Placement.add_diagnostics_eq_nil_iff {declareFirst : Bool} {p : Placement}
    {ds : List Declaration} {d : Declaration} (h : Records ds p.table) :
    (p.add declareFirst d).diagnostics = []
      ↔ p.diagnostics = [] ∧ (∀ d' ∈ ds, d'.Fits d)
        ∧ (declareFirst = true → d.CallsAmong (ds ++ [d])) := by
  unfold Placement.add
  split
  · next issue hdeclare =>
    -- refused, which is reported
    have hunfit : ¬∀ d' ∈ ds, d'.Fits d := by
      intro hfits
      obtain ⟨table', htable'⟩ := h.declare_iff_fits.mpr hfits
      rw [hdeclare] at htable'
      cases htable'
    simp [hunfit]
  · next table hdeclare =>
    -- taken: what is left are the calls of its body, looked up in the table it is now in
    have hfits := h.declare_iff_fits.mp ⟨table, hdeclare⟩
    have hrecords : Records (ds ++ [d]) table := by
      rw [FunctionTable.eq_of_declare hdeclare]
      exact h.concat hfits
    cases hbody : d.body with
    | none =>
      have hcalls : d.CallsAmong (ds ++ [d]) := by simp [Declaration.CallsAmong, hbody]
      exact ⟨fun hp => ⟨hp, hfits, fun _ => hcalls⟩, fun h => h.1⟩
    | some body =>
      have hcalls : undeclaredCalls table 1 body = [] ↔ d.CallsAmong (ds ++ [d]) := by
        simp [undeclaredCalls_eq_nil_iff, hrecords.knows_iff, Declaration.CallsAmong, hbody]
      cases declareFirst with
      | false => exact ⟨fun hp => ⟨hp, hfits, by simp⟩, fun h => h.1⟩
      | true =>
        show p.diagnostics ++ undeclaredCalls table 1 body = [] ↔ _
        rw [List.append_eq_nil_iff, hcalls]
        exact ⟨fun ⟨hp, hc⟩ => ⟨hp, hfits, fun _ => hc⟩, fun ⟨hp, _, hc⟩ => ⟨hp, hc rfl⟩⟩

/-- The first pass reports nothing exactly when the declarations fit together,
and then its table records them. -/
theorem place_diagnostics_eq_nil_iff (u : Unlinked) (declareFirst : Bool) :
    ((u.place declareFirst).diagnostics = []
        ↔ u.declarations.Pairwise Declaration.Fits
          ∧ (declareFirst = true → DeclaredFirst u.declarations))
      ∧ ((u.place declareFirst).diagnostics = [] →
          Records u.declarations (u.place declareFirst).table) := by
  obtain ⟨declarations, entry⟩ := u
  unfold Unlinked.place
  -- the pass goes from left to right, so the induction adds a declaration at the end
  induction declarations using List.reverseRecOn with
  | nil => exact ⟨by simp [DeclaredFirst], fun _ => .nil⟩
  | append_singleton ds d ih =>
    obtain ⟨hiff, hrecords⟩ := ih
    simp only [List.foldl_concat] at hiff hrecords ⊢
    generalize ds.foldl (Placement.add declareFirst) ⟨[], entry, []⟩ = p at hiff hrecords ⊢
    rw [List.pairwise_append, declaredFirst_concat]
    by_cases hp : p.diagnostics = []
    · have hr := hrecords hp
      obtain ⟨hfits, hfirst⟩ := hiff.mp hp
      rw [Placement.add_diagnostics_eq_nil_iff hr]
      constructor
      · constructor
        · rintro ⟨_, hd, hcalls⟩
          exact ⟨⟨hfits, List.pairwise_singleton _ _, by simpa using hd⟩,
            fun hb => ⟨hfirst hb, hcalls hb⟩⟩
        · rintro ⟨⟨_, _, hd⟩, hcalls⟩
          exact ⟨hp, by simpa using hd, fun hb => (hcalls hb).2⟩
      · rintro ⟨_, hd, hcalls⟩
        have hadd := (Placement.add_diagnostics_eq_nil_iff hr).mpr ⟨hp, hd, hcalls⟩
        rw [(Placement.of_add_diagnostics hadd).2.1]
        exact hr.concat hd
    · -- a report is never taken back
      have hadd : (p.add declareFirst d).diagnostics ≠ [] :=
        fun h => hp (Placement.of_add_diagnostics h).1
      refine ⟨?_, fun h => absurd h hadd⟩
      constructor
      · exact fun h => absurd h hadd
      · rintro ⟨⟨hfits, _, _⟩, hcalls⟩
        exact absurd (hiff.mpr ⟨hfits, fun hb => (hcalls hb).1⟩) hp

/-! ## §5. The second pass. -/

/-- What can be resolved is. -/
theorem resolve_of_resolves {table : FunctionTable} {line : Nat} {instr : Instr} {op : Opcode}
    (h : Resolves table instr op) : instr.resolve table line = .ok op := by
  cases h with
  | op opcode => rfl
  | call hfind => simp [Instr.resolve, FunctionTable.resolve, hfind]

/-- The second pass reports nothing exactly when every instruction can be
resolved. -/
theorem resolveFrom_eq_nil_iff {table : FunctionTable} {line : Nat} {f : Fragment} :
    (resolveFrom table line f).2 = [] ↔ ∀ instr ∈ f, ∃ op, Resolves table instr op := by
  induction f generalizing line with
  | nil => simp [resolveFrom]
  | cons instr f ih =>
    rw [resolveFrom, List.forall_mem_cons]
    cases hresolve : instr.resolve table (lineAfter line instr) with
    | ok op =>
      have hop : ∃ op, Resolves table instr op := ⟨op, resolves_of_resolve hresolve⟩
      exact ⟨fun h => ⟨hop, ih.mp h⟩, fun h => ih.mpr h.2⟩
    | error d =>
      have hnone : ¬∃ op, Resolves table instr op := by
        rintro ⟨op, hop⟩
        rw [resolve_of_resolves hop] at hresolve
        cases hresolve
      simp [hnone]

/-- A call can be resolved when it goes to a definition with its parameters. -/
theorem Records.resolves_call_iff {ds : List Declaration} {table : FunctionTable} {name : String}
    {arity : Nat} (h : Records ds table) :
    (∃ op, Resolves table (.call name arity) op)
      ↔ ∃ d ∈ ds, d.name = name ∧ d.body.isSome ∧ d.paramCount + 1 = arity := by
  constructor
  · rintro ⟨_, hop⟩
    cases hop with
    | call hfind =>
      obtain ⟨d, hd, hname, hcount, hdefined⟩ := h.origin _ _ hfind
      exact ⟨d, hd, hname, by simpa using hdefined, by rw [hcount]⟩
  · rintro ⟨d, hd, rfl, hbody, rfl⟩
    obtain ⟨index, hfind, hdefined⟩ := h.find d hd
    obtain ⟨index', rfl⟩ := Option.isSome_iff_exists.mp (hdefined hbody)
    exact ⟨_, .call hfind⟩

/-- A parameter that is still a name when linking is nobody's. -/
theorem not_resolves_param {table : FunctionTable} {name : String} {op : Opcode} :
    ¬Resolves table (.param name) op := by
  rintro ⟨⟩

/-! ## §6. Linking. -/

/-- The instructions of a program are those of its entry and of its bodies. -/
theorem Unlinked.holds_iff_mem_code (u : Unlinked) {instr : Instr} :
    u.Holds instr ↔ instr ∈ u.entry ++ (Declaration.bodies u.declarations).flatten := by
  simp only [Unlinked.Holds, Declaration.bodies, List.mem_append, List.mem_flatten,
    List.mem_filterMap]
  constructor
  · rintro (h | ⟨d, hd, body, hbody, h⟩)
    · exact .inl h
    · exact .inr ⟨body, ⟨d, hd, hbody⟩, h⟩
  · rintro (h | ⟨body, ⟨d, hd, hbody⟩, h⟩)
    · exact .inl h
    · exact .inr ⟨d, hd, body, hbody, h⟩

/-- Linking succeeds if neither pass reports anything. -/
theorem link_isOk_iff {u : Unlinked} {declareFirst : Bool} :
    (∃ code, link u declareFirst = .ok code)
      ↔ (u.place declareFirst).diagnostics = []
        ∧ (resolveFrom (u.place declareFirst).table 1 (u.place declareFirst).code).2 = [] := by
  rw [← List.append_eq_nil_iff]
  simp only [link]
  split
  · next hnone => simp [hnone]
  · next hsome => simpa using hsome

/-- A program can be linked exactly when it is well declared.  The first pass decides about the
declarations and, where functions have to be declared first, about the order of calls.  Once it has
nothing to report, its table records the declarations, and the second pass decides about every
instruction. -/
theorem link_isOk_iff_wellDeclared (u : Unlinked) (declareFirst : Bool) :
    (∃ code, link u declareFirst = .ok code) ↔ WellDeclared u declareFirst := by
  obtain ⟨hplace, hrecords⟩ := place_diagnostics_eq_nil_iff u declareFirst
  -- once the first pass has nothing to report, the second decides about the instructions
  have hresolve (h : (u.place declareFirst).diagnostics = []) :
      (resolveFrom (u.place declareFirst).table 1 (u.place declareFirst).code).2 = []
        ↔ (∀ name arity, u.Holds (.call name arity) →
            ∃ d ∈ u.declarations, d.name = name ∧ d.body.isSome ∧ d.paramCount + 1 = arity)
          ∧ ∀ name, ¬u.Holds (.param name) := by
    rw [resolveFrom_eq_nil_iff, (placed_place h).code]
    simp only [← u.holds_iff_mem_code, ← (hrecords h).resolves_call_iff]
    constructor
    · intro hall
      refine ⟨fun name arity => hall _, fun name hholds => ?_⟩
      obtain ⟨op, hop⟩ := hall _ hholds
      exact not_resolves_param hop
    · rintro ⟨hcalls, hparams⟩ instr hholds
      cases instr with
      | op opcode => exact ⟨opcode, .op opcode⟩
      | call name arity => exact hcalls name arity hholds
      | param name => exact absurd hholds (hparams name)
  rw [link_isOk_iff]
  constructor
  · rintro ⟨hnone, hnone'⟩
    obtain ⟨hfits, hfirst⟩ := hplace.mp hnone
    obtain ⟨hcalls, hparams⟩ := (hresolve hnone).mp hnone'
    exact ⟨consistent_iff.mpr hfits, hcalls, hparams, hfirst⟩
  · rintro ⟨hconsistent, hcalls, hparams, hfirst⟩
    have hnone := hplace.mpr ⟨consistent_iff.mp hconsistent, hfirst⟩
    exact ⟨hnone, (hresolve hnone).mpr ⟨hcalls, hparams⟩⟩

end RobotLang
