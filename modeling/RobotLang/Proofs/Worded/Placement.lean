/-
  RobotLang.Proofs.Worded.Placement
  ─────────────────────────────────
  **WHERE A `;` THAT WAS PUT IN STANDS IN THE TREE.**

  The lists of statements of a program are found by going through its code
  (`Program.lists`), and each of them is found together with the tokens that
  stand before it.  So a place in the tokens of the tree,

      program.view.tokens  =  front ++ t :: back

  can be compared with the end of a list (`Enclosed.EndsAt`).  In an accepted
  program, a token that was put in stands at such an end: it is the `;` of the
  last statement of a list, that statement is a command, and the word that
  closes the list comes next.  What it is made of is told by the token before
  it (`exists_last_of_inserted`).
-/
import RobotLang.Proofs.Worded.Soundness

namespace RobotLang.Worded

/-! ## §1. The lists of statements of a program. -/

/-- A list of statements where it stands: the tokens of the program up to and
with the word that opens the list, the statements, and the word that closes it. -/
structure Enclosed where
  front : List Token
  body : Statements
  closing : Token

/-- The lists of statements inside the code, which stands behind `front`. -/
def Code.lists {part : Part} (front : List Token) : Code part → List Enclosed
  | .cons head tail => head.lists front ++ tail.lists (front ++ head.children.tokens)
  | .ended command _ => command.lists front
  | .cond keyword test then_ yes =>
    yes.lists (front ++ (keyword :: test.children.tokens ++ [then_]))
  | .condElse keyword test then_ yes otherwise no =>
    yes.lists (front ++ (keyword :: test.children.tokens ++ [then_]))
      ++ no.lists (front ++ (keyword :: test.children.tokens ++ then_ :: yes.children.tokens)
        ++ [otherwise])
  | .whileDo keyword test do_ body =>
    body.lists (front ++ (keyword :: test.children.tokens ++ [do_]))
  | .times keyword count unit body =>
    body.lists (front ++ (keyword :: count.children.tokens ++ [unit]))
  | .block opening body closing =>
    ⟨front ++ [opening], body, closing⟩ :: body.lists (front ++ [opening])
  | .nil | .empty _ | .builtin _ _ | .call _ | .callWith _ _ _ _ => []

/-- The lists of statements inside the definition, which stands behind `front`. -/
def Definition.lists (front : List Token) : Definition → List Enclosed
  | .full keyword name parameter as_ body =>
    body.lists (front ++ (keyword :: name :: (parameterForest parameter).tokens ++ [as_]))
  | .prototype _ _ _ _ => []

/-- The lists of statements inside the definitions, which stand behind `front`. -/
def Definition.listsOfAll (front : List Token) : List Definition → List Enclosed
  | [] => []
  | d :: ds => d.lists front ++ listsOfAll (front ++ d.view.tokens) ds

/-- The main list and the lists inside of it. -/
def Main.lists (front : List Token) (m : Main) : List Enclosed :=
  ⟨front ++ [m.opening], m.body, m.closing⟩ :: m.body.lists (front ++ [m.opening])

/-- All lists of statements of a program. -/
def Program.lists (p : Program) : List Enclosed :=
  Definition.listsOfAll [p.opening] p.definitions
    ++ p.main.lists (p.opening :: p.definitions.flatMap (·.view.tokens))

/-- The last statement of the list is a command with the `;` `t`.  `front` are the
tokens of the program before `t`, and the first one behind it closes the list. -/
def Enclosed.EndsAt (l : Enclosed) (front : List Token) (t : Token) (back : List Token) : Prop :=
  ∃ (init : List Statement) (command : Command),
    l.body = .ofList (init ++ [.ended command t])
      ∧ front = l.front ++ init.flatMap (·.children.tokens) ++ command.children.tokens
      ∧ back.head? = some l.closing

/-! ## §2. Places in a list of tokens. -/

section Places

variable {xs ys f b : List Token} {t : Token}

/-- A place in two stretches is a place in one of them. -/
theorem split_of_append (h : xs ++ ys = f ++ t :: b) :
    (∃ b', xs = f ++ t :: b' ∧ b = b' ++ ys) ∨ ∃ f', f = xs ++ f' ∧ ys = f' ++ t :: b := by
  rcases List.append_eq_append_iff.mp h with ⟨f', hf, hys⟩ | ⟨b', hxs, hb⟩
  · exact .inr ⟨f', hf, hys⟩
  · cases b' with
    | nil =>
      refine .inr ⟨[], ?_, hb.symm⟩
      rw [hxs, List.append_nil, List.append_nil]
    | cons u b' =>
      obtain ⟨rfl, rfl⟩ := List.cons.inj hb
      exact .inl ⟨b', hxs, rfl⟩

/-- A token that was put in stands behind a stretch of the source, not in it. -/
theorem split_of_written (hxs : ∀ u ∈ xs, u.inserted = false) (ht : t.inserted = true)
    (h : xs ++ ys = f ++ t :: b) : ∃ f', f = xs ++ f' ∧ ys = f' ++ t :: b := by
  rcases split_of_append h with ⟨b', rfl, -⟩ | hys
  · exact absurd (hxs t (by simp)) (by simp [ht])
  · exact hys

theorem closesList_of_lacks {last closing : Token} (h : lacksTerminator last closing = true) :
    closesList closing = true := by
  simp only [lacksTerminator, Bool.and_eq_true] at h
  exact h.1.1

/-- A token that was put in is what is missing between the two around it.  By induction on the
tokens: a token of the source was not put in, so it is the `;` behind one of them. -/
theorem exists_last_of_inserted {ts : List Token} (hts : ∀ u ∈ ts, u.inserted = false)
    (ht : t.inserted = true) (h : withTerminators ts = f ++ t :: b) :
    ∃ last closing, f.getLast? = some last ∧ b.head? = some closing ∧ last ∈ ts ∧ closing ∈ ts
      ∧ lacksTerminator last closing = true ∧ t = terminatorAfter last := by
  induction ts generalizing f with
  | nil => simp [withTerminators] at h
  | cons u us ih =>
    rw [List.forall_mem_cons] at hts
    have hsplit : [u] ++ (missingTerminator u us ++ withTerminators us) = f ++ t :: b := h
    obtain ⟨f', rfl, htail⟩ := split_of_written (by simpa using hts.1) ht hsplit
    rcases split_of_append htail with ⟨b', hmissing, rfl⟩ | ⟨f'', rfl, hrest⟩
    · -- it is missing right behind `u`
      unfold missingTerminator at hmissing
      split at hmissing
      · next hlacks =>
        cases us with
        | nil => cases hlacks
        | cons closing us =>
          obtain ⟨rfl, hone⟩ := List.append_eq_singleton_iff.mp hmissing.symm |>.resolve_right
            (by simp)
          obtain ⟨rfl, rfl⟩ := List.cons.inj hone
          exact ⟨u, closing, rfl, rfl, by simp, by simp, hlacks, rfl⟩
      · simp at hmissing
    · obtain ⟨last, closing, hlast, hclosing, hmem, hmem', hlacks, rfl⟩ := ih hts.2 hrest
      refine ⟨last, closing, ?_, hclosing, .tail u hmem, .tail u hmem', hlacks, rfl⟩
      rw [List.getLast?_append, List.getLast?_append, hlast]
      rfl

end Places

/-! ## §3. What was put in stands at the end of a list. -/

/-- The code ends with a command and its `;` `t`, and has the tokens `f` before it. -/
inductive Code.EndsIn : {part : Part} → Code part → List Token → Token → Prop where
  | ended (command : Command) (t : Token) :
      EndsIn (.ended command t) command.children.tokens t
  | last {head : Statement} {f : List Token} {t : Token} :
      EndsIn head f t → EndsIn (.cons head .nil) f t
  | cons (head : Statement) {tail : Statements} {f : List Token} {t : Token} :
      EndsIn tail f t → EndsIn (.cons head tail) (head.children.tokens ++ f) t

/-- A list that ends in a token ends with a command and that token as its `;`. -/
theorem Code.EndsIn.exists_ofList {body : Statements} {f : List Token} {t : Token}
    (h : body.EndsIn f t) :
    ∃ (init : List Statement) (command : Command), body = .ofList (init ++ [.ended command t])
      ∧ f = init.flatMap (·.children.tokens) ++ command.children.tokens := by
  cases h with
  | last h =>
    cases h
    exact ⟨[], _, rfl, rfl⟩
  | cons head h =>
    obtain ⟨init, command, rfl, rfl⟩ := exists_ofList h
    exact ⟨head :: init, command, rfl, by simp⟩

/-- Wherever a token was put in, a list inside the code ends.  If the code stands before the word
that closes its list, a token may also have been put in at its very end. -/
def Code.Placed {part : Part} (closing : Option Token) (c : Code part) : Prop :=
  ∀ ⦃f t b⦄, c.children.tokens = f ++ t :: b → t.inserted = true → ∀ front back,
    (∃ l ∈ c.lists front, l.EndsAt (front ++ f) t (b ++ back))
      ∨ closing.isSome = true ∧ b = [] ∧ c.EndsIn f t

/-- Where nothing was put in there is nothing to place. -/
theorem Code.Placed.of_written {part : Part} {closing : Option Token} {c : Code part}
    (h : ∀ t ∈ c.children.tokens, t.inserted = false) : c.Placed closing := by
  intro f t b htokens ht
  exact absurd (h t (by simp [htokens])) (by simp [ht])

/-- Code behind tokens of the source. -/
theorem Code.Placed.behind {part : Part} {c : Code part} (hc : c.Placed none)
    {head f b : List Token} {t : Token} (hhead : ∀ u ∈ head, u.inserted = false)
    (h : head ++ c.children.tokens = f ++ t :: b) (ht : t.inserted = true)
    (front back : List Token) :
    ∃ l ∈ c.lists (front ++ head), l.EndsAt (front ++ f) t (b ++ back) := by
  obtain ⟨f', rfl, hc'⟩ := split_of_written hhead ht h
  rw [← List.append_assoc]
  exact (hc hc' ht (front ++ head) back).resolve_right (by simp)

/-- Code behind the head of a conditional, of a loop or of a function. -/
theorem Code.Placed.headed {part : Part} {c : Code part} (hc : c.Placed none)
    {keyword word t : Token} {inside f b : List Token}
    (hin : ∀ u ∈ keyword :: inside ++ [word], u.inserted = false)
    (h : keyword :: inside ++ word :: c.children.tokens = f ++ t :: b) (ht : t.inserted = true)
    (front back : List Token) :
    ∃ l ∈ c.lists (front ++ (keyword :: inside ++ [word])), l.EndsAt (front ++ f) t (b ++ back) :=
  hc.behind hin (by rw [← h]; simp) ht front back

/-- A `;` is put in only where a list ends. -/
theorem isSome_of_inserted {closing : Option Token} {command : Command} {semicolon : Token}
    (h : Terminates closing semicolon)
    (hin : (settledTerminator command semicolon).inserted = true) : closing.isSome = true := by
  rcases h with ⟨-, hsource⟩ | ⟨word, hword, -⟩
  · simp [settledTerminator, hsource] at hin
  · exact Option.isSome_of_mem hword

/-- A statement is placed if its command is. -/
theorem placed_ended {closing : Option Token} {command : Command} {semicolon : Token}
    (h : command.Placed none) (hin : semicolon.inserted = true → closing.isSome = true) :
    (Code.ended command semicolon).Placed closing := by
  intro f t b htokens ht front back
  have hsplit : command.children.tokens ++ [semicolon] = f ++ t :: b := by
    rw [← htokens]
    simp [Code.children]
  rcases split_of_append hsplit with ⟨b', hcommand, rfl⟩ | ⟨f', rfl, hsemi⟩
  · rw [List.append_assoc]
    exact .inl ((h hcommand ht front ([semicolon] ++ back)).resolve_right (by simp))
  · obtain ⟨rfl, hone⟩ :=
      (List.append_eq_singleton_iff.mp hsemi.symm).resolve_right (by simp)
    obtain ⟨rfl, rfl⟩ := List.cons.inj hone
    rw [List.append_nil]
    exact .inr ⟨hin ht, rfl, .ended command t⟩

/-- A statement that has its `;`, and the rest of the list. -/
theorem placed_cons {closing : Option Token} {head : Statement} {tail : Statements}
    (hhead : head.Placed none) (htail : tail.Placed closing) :
    (Code.cons head tail).Placed closing := by
  intro f t b htokens ht front back
  have hsplit : head.children.tokens ++ tail.children.tokens = f ++ t :: b := htokens
  rcases split_of_append hsplit with ⟨b', hin, rfl⟩ | ⟨f', rfl, hin⟩
  · rw [List.append_assoc]
    obtain ⟨l, hl, hends⟩ := (hhead hin ht front (tail.children.tokens ++ back)).resolve_right
      (by simp)
    exact .inl ⟨l, List.mem_append_left _ hl, hends⟩
  · rcases htail hin ht (front ++ head.children.tokens) back with
      ⟨l, hl, hends⟩ | ⟨hsome, rfl, hends⟩
    · rw [← List.append_assoc]
      exact .inl ⟨l, List.mem_append_right _ hl, hends⟩
    · exact .inr ⟨hsome, rfl, .cons head hends⟩

/-- The last statement of a list, which may lack its `;`. -/
theorem placed_last {closing : Option Token} {head : Statement} (h : head.Placed closing) :
    (Code.cons head .nil).Placed closing := by
  intro f t b htokens ht front back
  have hin : head.children.tokens = f ++ t :: b := by
    rw [← htokens]
    simp [Code.children]
  rcases h hin ht front back with ⟨l, hl, hends⟩ | ⟨hsome, rfl, hends⟩
  · exact .inl ⟨l, List.mem_append_left _ hl, hends⟩
  · exact .inr ⟨hsome, rfl, .last hends⟩

/-- A list between its two words, and what it ends with. -/
theorem exists_enclosed {opening closing : Token} {body : Statements} {f b : List Token}
    {t : Token} (hopening : opening.inserted = false) (hclosing : closing.inserted = false)
    (hbody : body.Placed (some closing))
    (h : opening :: body.children.tokens ++ [closing] = f ++ t :: b) (ht : t.inserted = true)
    (front back : List Token) :
    ∃ l ∈ (⟨front ++ [opening], body, closing⟩ : Enclosed) :: body.lists (front ++ [opening]),
      l.EndsAt (front ++ f) t (b ++ back) := by
  have hsplit : [opening] ++ (body.children.tokens ++ [closing]) = f ++ t :: b := h
  obtain ⟨f, rfl, hrest⟩ := split_of_written (by simpa using hopening) ht hsplit
  rcases split_of_append hrest with ⟨b', hin, rfl⟩ | ⟨f', rfl, hin⟩
  · rw [← List.append_assoc, List.append_assoc]
    rcases hbody hin ht (front ++ [opening]) ([closing] ++ back) with
      ⟨l, hl, hends⟩ | ⟨-, rfl, hends⟩
    · exact ⟨l, .tail _ hl, by simpa using hends⟩
    · obtain ⟨init, command, hlist, rfl⟩ := hends.exists_ofList
      exact ⟨_, .head _, init, command, hlist, by simp, rfl⟩
  · have hmem : t ∈ [closing] := by simp [hin]
    obtain rfl := List.mem_singleton.mp hmem
    exact absurd ht (by simp [hclosing])

/-- What stands in the source of code behind a head. -/
theorem written_headed {keyword word : Token} {inside behind : List Token}
    (h : ∀ t ∈ keyword :: inside ++ word :: behind, t.inserted = false) :
    (∀ t ∈ keyword :: inside ++ [word], t.inserted = false) ∧ ∀ t ∈ behind, t.inserted = false := by
  simp only [List.forall_mem_append, List.forall_mem_cons] at h ⊢
  exact ⟨⟨h.1, h.2.1, List.forall_mem_nil _⟩, h.2.2⟩

/-- Both branches are behind tokens of the source, and what was put in is inside one of them. -/
theorem placed_condElse {keyword then_ otherwise : Token} {test : Condition .term}
    {yes no : Command} (hin : ∀ u ∈ keyword :: test.children.tokens ++ [then_], u.inserted = false)
    (hotherwise : otherwise.inserted = false) (hyes : yes.Placed none) (hno : no.Placed none)
    (closing : Option Token) :
    (Code.condElse keyword test then_ yes otherwise no).Placed closing := by
  intro f t b htokens ht front back
  have hsplit : (keyword :: test.children.tokens ++ then_ :: yes.children.tokens)
      ++ ([otherwise] ++ no.children.tokens) = f ++ t :: b := by
    rw [← htokens]
    simp [Code.children]
  refine .inl ?_
  rcases split_of_append hsplit with ⟨b', hbranch, rfl⟩ | ⟨f', rfl, hbranch⟩
  · rw [List.append_assoc]
    obtain ⟨l, hl, hends⟩ := hyes.headed hin hbranch ht front _
    exact ⟨l, List.mem_append_left _ hl, hends⟩
  · rw [← List.append_assoc]
    obtain ⟨l, hl, hends⟩ := hno.behind (by simpa using hotherwise) hbranch ht _ back
    exact ⟨l, List.mem_append_right _ hl, hends⟩

/-- In settled code, what was put in stands at the end of a list.  By induction on the code: a
statement that is not the last of its list has its `;` in the source, and everything else was
written. -/
theorem Code.placed_settle {parens : Bool} {part : Part} {c : Code part} {closing : Option Token}
    (hc : c.Accepted parens closing) : c.settle.Placed closing := by
  obtain ⟨hlenient, hwritten⟩ := hc
  induction c generalizing closing with
  | nil | empty | builtin | call => exact .of_written hwritten
  | callWith name left argument right =>
    exact .of_written (by simpa [Code.settle, Code.children, Code.written] using hwritten)
  | cons head tail ihhead ihtail =>
    rw [Code.written, List.forall_mem_append] at hwritten
    -- only the last statement of a list can lack its `;`
    rcases hlenient with ⟨hhead, htail⟩ | ⟨hhead, rfl⟩
    · exact placed_cons (ihhead hhead hwritten.1) (ihtail htail hwritten.2)
    · exact placed_last (ihhead hhead hwritten.1)
  | ended command semicolon ih =>
    rw [Code.written, List.forall_mem_append] at hwritten
    exact placed_ended (ih hlenient.1 hwritten.1) (isSome_of_inserted hlenient.2)
  | cond keyword test then_ yes ih =>
    obtain ⟨hin, hyes⟩ := written_headed hwritten
    intro f t b htokens ht front back
    refine .inl ((ih hlenient.2.2.2 hyes).headed hin ?_ ht front back)
    simpa [Code.settle, Code.children] using htokens
  | condElse keyword test then_ yes otherwise no ihyes ihno =>
    obtain ⟨-, -, -, hlyes, -, hlno⟩ := hlenient
    rw [Code.written, List.forall_mem_append, List.forall_mem_cons] at hwritten
    obtain ⟨hfirst, hotherwise, hno⟩ := hwritten
    obtain ⟨hin, hyes⟩ := written_headed hfirst
    exact placed_condElse hin hotherwise (ihyes hlyes hyes) (ihno hlno hno) closing
  | whileDo keyword test do_ body ih =>
    obtain ⟨hin, hbody⟩ := written_headed hwritten
    intro f t b htokens ht front back
    refine .inl ((ih hlenient.2.2.2 hbody).headed hin ?_ ht front back)
    simpa [Code.settle, Code.children] using htokens
  | times keyword count unit body ih =>
    obtain ⟨hin, hbody⟩ := written_headed hwritten
    intro f t b htokens ht front back
    refine .inl ((ih hlenient.2.2.2 hbody).headed hin ?_ ht front back)
    simpa [Code.settle, Code.children] using htokens
  | block opening body word ih =>
    simp only [Code.written, List.forall_mem_append, List.forall_mem_cons] at hwritten
    obtain ⟨⟨hopening, hbody⟩, hword, -⟩ := hwritten
    intro f t b htokens ht front back
    refine .inl (exists_enclosed hopening hword (ih hlenient.2.1 hbody) ?_ ht front back)
    simpa [Code.settle, Code.children] using htokens

/-! ## §4. Accepted programs. -/

/-- The definitions of an accepted program are accepted. -/
theorem Program.Accepted.definition {parens : Bool} {p : Program} (hp : p.Accepted parens)
    {d : Definition} (hd : d ∈ p.definitions) : d.Accepted parens := by
  refine ⟨hp.lenient.2.1 d hd, fun t ht => hp.written t ?_⟩
  simp only [Program.written, List.mem_append, List.mem_cons, List.mem_flatMap]
  exact .inl (.inl (.inr ⟨d, hd, ht⟩))

/-- The main list of an accepted program is accepted, between two words of the source. -/
theorem Program.Accepted.main {parens : Bool} {p : Program} (hp : p.Accepted parens) :
    p.main.opening.inserted = false ∧ p.main.body.Accepted parens (some p.main.closing)
      ∧ p.main.closing.inserted = false := by
  have hwritten : ∀ t ∈ p.main.written, t.inserted = false :=
    fun t ht => hp.written t (by simp [Program.written, ht])
  simp only [Main.written, List.forall_mem_append, List.forall_mem_cons] at hwritten
  obtain ⟨⟨hopening, hbody⟩, hclosing, -⟩ := hwritten
  exact ⟨hopening, ⟨hp.lenient.2.2.1.2.1, hbody⟩, hclosing⟩

section Inserted

variable {parens : Bool} {f b : List Token} {t : Token}

/-- What was put into a settled definition ends one of the lists in its body. -/
theorem Definition.exists_enclosed {d : Definition} (hd : d.Accepted parens)
    (h : d.settle.view.tokens = f ++ t :: b) (ht : t.inserted = true) (front back : List Token) :
    ∃ l ∈ d.settle.lists front, l.EndsAt (front ++ f) t (b ++ back) := by
  obtain ⟨hlenient, hwritten⟩ := hd
  cases d with
  | full keyword name parameter as_ body =>
    obtain ⟨hin, hbody⟩ := written_headed hwritten
    refine (Code.placed_settle ⟨hlenient.2.2.2.2, hbody⟩).headed hin ?_ ht front back
    simpa [Definition.settle, Definition.view, Node.tokens] using h
  | prototype keyword name parameter semicolon =>
    have hmem : t ∈ (Definition.prototype keyword name parameter semicolon).written := by
      have : t ∈ (Definition.prototype keyword name parameter semicolon).view.tokens := by
        rw [show (Definition.prototype keyword name parameter semicolon).view.tokens = _ from h]
        simp
      simpa [Definition.view, Node.tokens, Definition.written] using this
    exact absurd (hwritten t hmem) (by simp [ht])

/-- What was put into one of several definitions ends one of the lists in them; by induction on the
definitions. -/
theorem Definition.exists_enclosed_of_all {ds : List Definition}
    (hd : ∀ d ∈ ds, d.Accepted parens)
    (h : (ds.map Definition.settle).flatMap (·.view.tokens) = f ++ t :: b)
    (ht : t.inserted = true) (front back : List Token) :
    ∃ l ∈ Definition.listsOfAll front (ds.map Definition.settle),
      l.EndsAt (front ++ f) t (b ++ back) := by
  induction ds generalizing f front with
  | nil => simp at h
  | cons d ds ih =>
    rw [List.forall_mem_cons] at hd
    rw [List.map_cons, List.flatMap_cons] at h
    rcases split_of_append h with ⟨b', hin, rfl⟩ | ⟨f', rfl, hin⟩
    · rw [List.append_assoc]
      obtain ⟨l, hl, hends⟩ := Definition.exists_enclosed hd.1 hin ht front _
      exact ⟨l, List.mem_append_left _ hl, hends⟩
    · rw [← List.append_assoc]
      obtain ⟨l, hl, hends⟩ := ih hd.2 hin (front ++ d.settle.view.tokens)
      exact ⟨l, List.mem_append_right _ hl, hends⟩

/-- What was put into a settled program ends one of its lists, in a definition or in the main
part. -/
theorem Program.exists_enclosed {p : Program} (hp : p.Accepted parens)
    (h : p.settle.view.tokens = f ++ t :: b) (ht : t.inserted = true) :
    ∃ l ∈ p.settle.lists, l.EndsAt f t b := by
  obtain ⟨hmo, hbody, hmc⟩ := hp.main
  have htokens : p.settle.view.tokens = [p.opening]
      ++ ((p.definitions.map Definition.settle).flatMap (·.view.tokens)
        ++ ((p.main.opening :: p.main.body.settle.children.tokens ++ [p.main.closing])
          ++ [p.closing])) := by
    simp [Program.tokens_view, Main.tokens_view, Program.settle]
  have hopening : p.opening.inserted = false := hp.written _ (by simp [Program.written])
  have hclosing : p.closing.inserted = false := hp.written _ (by simp [Program.written])
  rw [htokens] at h
  -- where it stands: in a definition or in the main part, as the outer words were written
  obtain ⟨f, rfl, hrest⟩ := split_of_written (by simpa using hopening) ht h
  rcases split_of_append hrest with ⟨b', hin, rfl⟩ | ⟨f', rfl, hin⟩
  · obtain ⟨l, hl, hends⟩ := Definition.exists_enclosed_of_all (fun d => hp.definition) hin ht
      [p.opening] _
    exact ⟨l, List.mem_append_left _ hl, hends⟩
  · rcases split_of_append hin with ⟨b', hmain, rfl⟩ | ⟨f'', rfl, hlast⟩
    · obtain ⟨l, hl, hends⟩ := exists_enclosed hmo hmc (Code.placed_settle hbody) hmain ht _ _
      rw [← List.append_assoc]
      exact ⟨l, List.mem_append_right _ hl, hends⟩
    · have hmem : t ∈ [p.closing] := by simp [hlast]
      obtain rfl := List.mem_singleton.mp hmem
      exact absurd ht (by simp [hclosing])

/-- A function ends with a `;` of the source. -/
theorem Definition.exists_semicolon {d : Definition} (hd : d.Accepted parens) :
    ∃ before semicolon, d.settle.view.tokens = before ++ [semicolon]
      ∧ semicolon.kind = .semicolon ∧ semicolon.inserted = false := by
  obtain ⟨hlenient, hwritten⟩ := hd
  have hlast : ∃ before semicolon, d.written = before ++ [semicolon]
      ∧ semicolon.kind = .semicolon := by
    cases d with
    | full keyword name parameter as_ body =>
      obtain ⟨before, semicolon, hbody, hk⟩ := exists_semicolon_of_statement hlenient.2.2.2.2
      exact ⟨keyword :: name :: (parameterForest parameter).tokens ++ as_ :: before, semicolon,
        by simp [Definition.written, hbody], hk⟩
    | prototype keyword name parameter semicolon =>
      exact ⟨_, semicolon, rfl, hlenient.2.2.2⟩
  obtain ⟨before, semicolon, hlast, hk⟩ := hlast
  obtain ⟨before', hsettled⟩ := exists_withTerminators_concat before semicolon
  refine ⟨before', semicolon, ?_, hk, hwritten semicolon (by simp [hlast])⟩
  rw [Definition.settles hlenient hwritten, hlast, hsettled]

end Inserted

/-- In an accepted program, a token that was put in is the `;` of a command that is the last
statement of a list.  The token before it stands in the source and tells what it is and where it
stands; the token behind it is the word of the source that closes the list.  The `;` that a
function ends with is never one that was put in. -/
theorem inserted_ends_list {source : String} {parsed : Parsed Program}
    (h : parse source = .ok parsed) :
    (∀ front t back, parsed.program.view.tokens = front ++ t :: back → t.inserted = true →
      ∃ l ∈ parsed.program.lists, ∃ last, l.EndsAt front t back
        ∧ front.getLast? = some last ∧ last.inserted = false ∧ t = terminatorAfter last
        ∧ closesList l.closing = true ∧ l.closing.inserted = false)
      ∧ ∀ d ∈ parsed.program.definitions, ∃ before semicolon,
        d.view.tokens = before ++ [semicolon]
          ∧ semicolon.kind = .semicolon ∧ semicolon.inserted = false := by
  obtain ⟨p, hp, -, hprogram⟩ := exists_accepted_of_parse h
  rw [hprogram]
  refine ⟨fun front t back htokens ht => ?_, fun d hd => ?_⟩
  · obtain ⟨l, hl, hends⟩ := Program.exists_enclosed hp htokens ht
    rw [Program.tokens_settle hp.lenient hp.written] at htokens
    obtain ⟨last, closing, hlast, hclosing, hmem, hmem', hlacks, hafter⟩ :=
      exists_last_of_inserted hp.written ht htokens
    -- both say which token comes next
    obtain rfl : closing = l.closing := by
      obtain ⟨-, -, -, -, hhead⟩ := hends
      exact Option.some.inj (hclosing.symm.trans hhead)
    exact ⟨l, hl, last, hends, hlast, hp.written _ hmem, hafter, closesList_of_lacks hlacks,
      hp.written _ hmem'⟩
  · obtain ⟨d', hd', rfl⟩ := List.mem_map.mp hd
    exact Definition.exists_semicolon (hp.definition hd')

/-- A program that lacks a `;` in the body of a function and in its main list, but not where the
function ends. -/
def nestedOmissions : String :=
  "iniciar-programa define-nueva-instrucción da como inicio avanza fin; "
    ++ "inicia-ejecución da termina-ejecución finalizar-programa"

/-- Where the two `;` of the sample are put in, by running the parser on it. -/
theorem offsets_nestedOmissions : (parse nestedOmissions).toOption.map (fun parsed =>
    (parsed.program.view.tokens.filter (·.inserted)).map (·.offset)) = some [63, 88] := by
  decide +kernel

/-- Both `;` that were put into the sample end a list: the one in the body of the function, and the
main list. -/
theorem inserted_ends_list_nestedOmissions : ∃ parsed, parse nestedOmissions = .ok parsed
    ∧ (parsed.program.view.tokens.filter (·.inserted)).map (·.offset) = [63, 88]
    ∧ ∀ front t back, parsed.program.view.tokens = front ++ t :: back → t.inserted = true →
      ∃ l ∈ parsed.program.lists, ∃ last, l.EndsAt front t back
        ∧ front.getLast? = some last ∧ last.inserted = false ∧ t = terminatorAfter last
        ∧ closesList l.closing = true ∧ l.closing.inserted = false := by
  have hoffsets := offsets_nestedOmissions
  generalize hresult : parse nestedOmissions = result at hoffsets ⊢
  cases result with
  | error failure => simp [Except.toOption] at hoffsets
  | ok parsed =>
    exact ⟨parsed, rfl, by simpa [Except.toOption] using hoffsets, (inserted_ends_list hresult).1⟩

end RobotLang.Worded
