/-
  RobotLang.Proofs.Rule.Order
  ───────────────────────────
  **NO TOKEN IS BLAMED TWICE, AND BLAME ONLY MOVES FORWARD.**

  Reading passes tokens and blames the one at hand.  `Orderly` is the relation
  of these two steps, with the rule that a token is blamed at most once before
  it is passed; so the tokens that are blamed are some of those at hand, in
  their order (`Orderly.blames`).

  A rule could only break this by complaining about a token that a `;` was put
  in before.  `Proceeds n rule s ready follow` says that it does not:

      if the token at hand was blamed, its kind is one of `ready`;
      the rule then reads in order, whether it ends or gives up;
      if it ends with the token at hand blamed, its kind is one of `follow`.

  Rules in sequence proceed when each is ready for what the one before it
  leaves.  The bound `n` on the number of tokens is for rules that are nested:
  they run out of depth only where there are no tokens left.
-/
import Mathlib.Data.List.Forall2
import RobotLang.Proofs.Rule.Course
import RobotLang.Proofs.Rule.Mending

namespace RobotLang.Rule

/-! ## §1. Complaints one token after the other. -/

/-- From the tokens to what is left of them, with the complaints on the way.  The flags say whether
the token at hand has been blamed, before the first step and behind the last. -/
inductive Orderly (s : Setting) :
    Bool → List Token → List Diagnostic → Bool → List Token → Prop where
  | done (blamed : Bool) (ts : List Token) : Orderly s blamed ts [] blamed ts
  | pass (blamed : Bool) (t : Token) {ts rest : List Token} {ds : List Diagnostic} {left : Bool} :
      Orderly s false ts ds left rest → Orderly s blamed (t :: ts) ds left rest
  | blame (issue : Issue) (expected : Option (List String)) {ts rest : List Token}
      {ds : List Diagnostic} {left : Bool} :
      Orderly s true ts ds left rest →
      Orderly s false ts (.atToken issue (front s ts) expected :: ds) left rest

namespace Orderly

variable {s : Setting} {blamed mid left : Bool} {ts ts' rest : List Token}
  {ds ds' : List Diagnostic}

/-- Complaints in order are followed by complaints in order, if the second rule knows whether the
token at hand was blamed already. -/
theorem trans (h : Orderly s blamed ts ds mid ts') (h' : Orderly s mid ts' ds' left rest) :
    Orderly s blamed ts (ds ++ ds') left rest := by
  induction h with
  | done => exact h'
  | pass blamed t _ ih => exact .pass blamed t (ih h')
  | blame issue expected _ ih => exact .blame issue expected (ih h')

/-- Reading in order never goes back. -/
theorem suffix (h : Orderly s blamed ts ds left rest) : rest <:+ ts := by
  induction h with
  | done => exact List.suffix_rfl
  | pass _ t _ ih => exact ih.trans (List.suffix_cons t _)
  | blame _ _ _ ih => exact ih

/-- A token that was blamed and is not any more has been passed. -/
theorem length_lt (h : Orderly s true ts ds false rest) : rest.length < ts.length := by
  cases h with
  | pass _ t h =>
    have := h.suffix.length_le
    rw [List.length_cons]
    omega

/-- Passing the token at hand leads to one that was not blamed; only the end of input cannot be
passed. -/
theorem tail (h : blamed = true → ts ≠ []) : Orderly s blamed ts [] false ts.tail := by
  cases ts with
  | nil =>
    cases blamed with
    | true => exact absurd rfl (h rfl)
    | false => exact .done false []
  | cons t ts => exact .pass blamed t (.done false ts)

/-- Tokens in front of others are passed. -/
theorem lost (s : Setting) (run rest : List Token) :
    Orderly s false (run ++ rest) [] false rest := by
  induction run with
  | nil => exact .done false rest
  | cons t run ih => exact .pass false t ih

/-- The complaints are about some of the tokens, the end of input among them, in their order, and
not about the first of them if it was blamed before. -/
theorem blames (h : Orderly s blamed ts ds left rest) :
    List.SublistForall₂ Diagnostic.PointsAt ds
      (if blamed then (ts ++ [s.stop]).tail else ts ++ [s.stop]) := by
  induction h with
  | done => exact .nil
  | pass blamed t _ ih =>
    cases blamed with
    | true => exact ih
    | false => exact .cons_right ih
  | @blame _ _ ts _ _ _ _ ih =>
    cases ts with
    | nil => exact .cons ⟨rfl, rfl, rfl⟩ ih
    | cons t ts => exact .cons ⟨rfl, rfl, rfl⟩ ih

end Orderly

/-! ## §2. Rules that proceed. -/

variable {α β : Type} {s : Setting} {n : Nat} {ready middle follow : List Kind}

/-- From these tokens the rule reads in order; if it ends with the token at hand blamed, that is one
of `follow`. -/
def Goes (rule : Rule α) (s : Setting) (blamed : Bool) (ts : List Token) (follow : List Kind) :
    Prop :=
  ∃ left, Orderly s blamed ts (rule s ts).complaints left (rule s ts).rest
    ∧ ((rule s ts).result.isSome = true → Waits follow left (front s (rule s ts).rest).kind)

/-- On fewer than `n` tokens the rule reads in order, if the token at hand was not blamed or is one
of `ready`. -/
def Proceeds (n : Nat) (rule : Rule α) (s : Setting) (ready follow : List Kind) : Prop :=
  ∀ ⦃blamed ts⦄, ts.length < n → Waits ready blamed (front s ts).kind → Goes rule s blamed ts follow

theorem Waits.mono {kinds kinds' : List Kind} {blamed : Bool} {kind : Kind}
    (h : Waits kinds blamed kind) (hsub : kinds ⊆ kinds') : Waits kinds' blamed kind :=
  fun hb => hsub (h hb)

/-- What waits for one kind cannot have blamed a token of another. -/
theorem Waits.eq_false_of_ne {kind kind' : Kind} {blamed : Bool} (h : Waits [kind] blamed kind')
    (hne : kind' ≠ kind) : blamed = false := by
  cases blamed with
  | false => rfl
  | true => exact absurd (List.mem_singleton.mp (h rfl)) hne

/-- A rule that ended went well if it complained in order and what it left blamed may follow. -/
theorem Goes.of_some {rule : Rule α} {blamed left : Bool} {ts rest : List Token} {a : α}
    {ds : List Diagnostic} (h : rule s ts = ⟨some a, rest, ds⟩)
    (horderly : Orderly s blamed ts ds left rest) (hwaits : Waits follow left (front s rest).kind) :
    Goes rule s blamed ts follow := by
  unfold Goes
  rw [h]
  exact ⟨left, horderly, fun _ => hwaits⟩

/-- A rule that gave up need only have complained in order. -/
theorem Goes.of_none {rule : Rule α} {blamed left : Bool} {ts rest : List Token}
    {ds : List Diagnostic} (h : rule s ts = ⟨none, rest, ds⟩)
    (horderly : Orderly s blamed ts ds left rest) : Goes rule s blamed ts follow := by
  unfold Goes
  rw [h]
  exact ⟨left, horderly, fun hsome => by cases hsome⟩

theorem Goes.of_eq {rule rule' : Rule α} {blamed : Bool} {ts : List Token}
    (heq : rule s ts = rule' s ts) (h : Goes rule' s blamed ts follow) :
    Goes rule s blamed ts follow := by
  unfold Goes
  rw [heq]
  exact h

/-- A rule that ended is followed by the next one, which has no more tokens. -/
theorem Goes.bind {first : Rule α} {next : α → Rule β} {blamed : Bool} {ts : List Token}
    (hfirst : Goes first s blamed ts middle)
    (hnext : ∀ ⦃a left rest ds⦄, first s ts = ⟨some a, rest, ds⟩ → rest.length ≤ ts.length →
      Waits middle left (front s rest).kind → Goes (next a) s left rest follow) :
    Goes (first >>= next) s blamed ts follow := by
  obtain ⟨left, horderly, hwaits⟩ := hfirst
  generalize ho : first s ts = o at horderly hwaits
  obtain ⟨result, rest, ds⟩ := o
  cases result with
  | none => exact .of_none (bind_of_givenUp ho) horderly
  | some a =>
    obtain ⟨left', horderly', hwaits'⟩ := hnext ho horderly.suffix.length_le (hwaits rfl)
    unfold Goes
    rw [bind_of_some ho]
    exact ⟨left', horderly.trans horderly', hwaits'⟩

namespace Proceeds

/-- Where nothing was blamed, a rule need not be ready for it. -/
theorem settled {rule : Rule α} (h : Proceeds n rule s ready follow) :
    Proceeds n rule s [] follow :=
  fun _ _ hn hwaits => h hn (hwaits.mono (List.nil_subset ready))

theorem pure (a : α) : Proceeds n (pure a) s ready ready :=
  fun blamed ts _ hwaits => .of_some rfl (.done blamed ts) hwaits

/-- The second rule has to be ready for what the first may have left blamed. -/
theorem bind {first : Rule α} {next : α → Rule β} (hfirst : Proceeds n first s ready middle)
    (hnext : ∀ a, Proceeds n (next a) s middle follow) :
    Proceeds n (first >>= next) s ready follow := by
  intro blamed ts hn hwaits
  refine (hfirst hn hwaits).bind fun a left rest ds _ hle hwaits' => ?_
  exact hnext a (by omega) hwaits'

/-- A rule that is ready for no blamed token has to be looked at only where none was blamed. -/
theorem of_false {rule : Rule α} (h : ∀ ts, Goes rule s false ts follow) :
    Proceeds n rule s [] follow := by
  intro blamed ts _ hwaits
  rw [hwaits.eq_false]
  exact h ts

/-- A rule that leaves no token blamed passes the one that it was ready for. -/
theorem length_lt {rule : Rule α} (h : Proceeds n rule s ready []) {ts rest : List Token} {a : α}
    {ds : List Diagnostic} (hn : ts.length < n) (hfront : (front s ts).kind ∈ ready)
    (hrule : rule s ts = ⟨some a, rest, ds⟩) : rest.length < ts.length := by
  have hgoes : Goes rule s true ts [] := h hn fun _ => hfront
  obtain ⟨left, horderly, hend⟩ := hgoes
  rw [hrule] at horderly hend
  rw [(hend rfl).eq_false] at horderly
  exact horderly.length_lt

end Proceeds

/-- A rule that only looks. -/
theorem Proceeds.of_look {rule : Rule α} (h : ∀ ts, ∃ a, rule s ts = ⟨some a, ts, []⟩) :
    Proceeds n rule s ready ready := by
  intro blamed ts _ hwaits
  obtain ⟨a, ha⟩ := h ts
  exact .of_some ha (.done blamed ts) hwaits

/-! ## §3. Rules that put nothing in. -/

/-- What is not the wanted token is blamed and dropped, or the rule gives up. -/
theorem goes_mismatch_dropBefore (kind : Kind) (ts : List Token) :
    Goes (mismatch [kind] >>= fun _ => dropBefore kind) s false ts follow := by
  have hmismatch : mismatch [kind] s ts
      = ⟨some (), ts, [.mismatch (front s ts) [s.label kind]]⟩ := rfl
  unfold Goes
  rw [bind_of_some hmismatch]
  cases ts with
  | nil => exact ⟨true, .blame _ _ (.done true []), fun hsome => by cases hsome⟩
  | cons stray ts =>
    unfold dropBefore
    dsimp only
    split
    · exact ⟨false, .blame _ _ (.pass true stray (.tail nofun)), fun _ => waits_false _ _⟩
    · exact ⟨true, .blame _ _ (.done true _), fun hsome => by cases hsome⟩

/-- The wanted token is taken, also if it was blamed. -/
theorem goes_expect {kind : Kind} {blamed : Bool} {ts : List Token}
    (hwaits : Waits [kind] blamed (front s ts).kind) (hcons : blamed = true → ts ≠ []) :
    Goes (expect kind) s blamed ts [] := by
  by_cases hk : (front s ts).kind = kind
  · have heat : eat kind s ts = ⟨some (some (front s ts)), ts.tail, []⟩ := if_pos hk
    refine .of_some (bind_of_quiet heat) (.tail hcons) (waits_false _ _)
  · have heat : eat kind s ts = ⟨some none, ts, []⟩ := if_neg hk
    rw [hwaits.eq_false_of_ne hk]
    exact .of_eq (bind_of_quiet heat) (goes_mismatch_dropBefore kind ts)

/-- Giving up blames the token at hand, which nobody has blamed yet. -/
theorem goes_noViable (kinds : List Kind) (ts : List Token) :
    Goes (noViable kinds : Rule α) s false ts follow :=
  .of_none rfl (.blame .mismatchedToken (some (kinds.map s.label)) (.done true ts))

/-- Taking a token blames none. -/
theorem goes_eat (kind : Kind) (ts : List Token) : Goes (eat kind) s false ts [] := by
  by_cases hk : (front s ts).kind = kind
  · exact .of_some (if_pos hk) (.tail nofun) (waits_false _ _)
  · exact .of_some (if_neg hk) (.done false ts) (waits_false _ _)

/-- A literal that cannot be held is passed and blamed at once. -/
theorem goes_literal (ts : List Token) : Goes literal s false ts [] := by
  have hadvance : advance s ts = ⟨some (front s ts), ts.tail, []⟩ := rfl
  unfold Goes literal
  rw [bind_of_quiet hadvance]
  cases literalValue? (front s ts).image with
  | some value => exact ⟨false, .tail nofun, fun _ => waits_false _ _⟩
  | none =>
    -- the literal was blamed before it was passed
    cases ts with
    | nil => exact ⟨true, .blame _ _ (.done true []), fun hsome => by cases hsome⟩
    | cons t ts =>
      exact ⟨false, .blame .parseError none (.pass true t (.done false ts)),
        fun hsome => by cases hsome⟩

/-- A token behind the end of a program is blamed, and the rule gives up. -/
theorem goes_finish (ts : List Token) : Goes finish s false ts [] := by
  refine .of_eq (bind_of_quiet
    (show isAt .eof s ts = ⟨some ((front s ts).kind == .eof), ts, []⟩ from rfl)) ?_
  cases (front s ts).kind == .eof with
  | true => exact .of_some rfl (.done false ts) (waits_false _ _)
  | false => exact .of_none rfl (.blame .expectedEof (some []) (.done true ts))

/-- Where nothing is put in, no token is left blamed. -/
theorem composes_proceeds : Composes (fun {_} rule => Proceeds n rule s [] []) where
  pure := .pure
  bind := .bind
  setting _ hnext := Proceeds.bind (.of_look fun _ => ⟨_, rfl⟩) hnext
  peek := .of_look fun _ => ⟨_, rfl⟩
  advance := .of_false fun _ => .of_some rfl (.tail nofun) (waits_false _ _)
  eat kind := .of_false (goes_eat kind)
  expect _ := .of_false fun _ => goes_expect (waits_false _ _) nofun
  noViable kinds := .of_false (goes_noViable kinds)
  literal := .of_false goes_literal
  finish := .of_false goes_finish
  bounded _ h _ ts hn hwaits := h ts.length hn hwaits

/-! ## §4. Tokens that may have been blamed. -/

/-- Where something other than the end of input is at hand there is a token. -/
theorem ne_nil_of_front (hs : s.stop.kind = .eof) {ts : List Token}
    (h : (front s ts).kind ≠ .eof) : ts ≠ [] := by
  rintro rfl
  exact h hs

/-- Being ready for a token means taking it. -/
theorem proceeds_expect (hs : s.stop.kind = .eof) {kind : Kind} (hkind : kind ≠ .eof) :
    Proceeds n (expect kind) s [kind] [] := by
  intro blamed ts _ hwaits
  refine goes_expect hwaits fun hblamed => ne_nil_of_front hs ?_
  rw [List.mem_singleton.mp (hwaits hblamed)]
  exact hkind

/-- A `;` is put in before a token that may follow it, and that is then blamed. -/
theorem proceeds_expectTerminator (hs : s.stop.kind = .eof) (follow : List Kind) :
    Proceeds n (expectTerminator follow) s [.semicolon] follow := by
  intro blamed ts _ hwaits
  by_cases hk : (front s ts).kind = .semicolon
  · have heat : eat .semicolon s ts = ⟨some (some (front s ts)), ts.tail, []⟩ := if_pos hk
    have hcons : ts ≠ [] := ne_nil_of_front hs (by rw [hk]; decide)
    exact .of_some (bind_of_quiet heat) (.tail fun _ => hcons) (waits_false _ _)
  · rw [hwaits.eq_false_of_ne hk]
    have heq : expectTerminator follow s ts = _ := expectTerminator_of_ne hk
    split at heq
    · next hput =>
      have hmem : (front s ts).kind ∈ follow := by
        simpa using (Bool.and_eq_true_iff.mp hput).2
      exact .of_some heq (.blame _ _ (.done true ts)) fun _ => hmem
    · exact .of_eq heq (goes_mismatch_dropBefore .semicolon ts)

/-- A rule that takes the token at hand does not mind that it was blamed. -/
theorem Goes.of_taken {first : Rule α} {next : α → Rule β} {blamed : Bool} {ts : List Token} {a : α}
    (h : first s ts = ⟨some a, ts.tail, []⟩) (hcons : ts ≠ [])
    (hnext : Goes (next a) s false ts.tail follow) : Goes (first >>= next) s blamed ts follow := by
  obtain ⟨left, horderly, hend⟩ := hnext
  unfold Goes
  rw [bind_of_quiet h]
  exact ⟨left, (Orderly.tail fun _ => hcons).trans horderly, hend⟩

/-- The kind that was looked at is taken. -/
theorem goes_expect_bind (hs : s.stop.kind = .eof) {kind : Kind} {next : Token → Rule β}
    {blamed : Bool} {ts : List Token} (hkind : kind ≠ .eof) (hk : (front s ts).kind = kind)
    (hn : ts.length < n + 1) (hnext : ∀ t, Proceeds n (next t) s [] follow) :
    Goes (expect kind >>= next) s blamed ts follow := by
  have hcons : ts ≠ [] := ne_nil_of_front hs (hk ▸ hkind)
  have heat : eat kind s ts = ⟨some (some (front s ts)), ts.tail, []⟩ := if_pos hk
  refine .of_taken (bind_of_quiet heat) hcons (hnext _ ?_ (waits_false _ _))
  have := List.length_pos_iff.mpr hcons
  rw [List.length_tail]
  omega

/-! ## §5. Repetition and lists that resume. -/

section Repetition

variable {item : Rule α}

/-- The rule proceeds where one of `starts` is at hand, and passes it if it ends. -/
structure Items (n : Nat) (item : Rule α) (s : Setting) (starts follow : List Kind) : Prop where
  proceeds : Proceeds n item s starts follow
  shorter : ∀ ⦃ts a rest ds⦄, ts.length < n → (front s ts).kind ∈ starts →
    item s ts = ⟨some a, rest, ds⟩ → rest.length < ts.length

/-- A sequence passes what its first rule does. -/
theorem Items.of_bind {first : Rule β} {next : β → Rule α} {starts : List Kind}
    (hfirst : Proceeds n first s starts []) (hnext : ∀ b, Proceeds n (next b) s [] follow) :
    Items n (first >>= next) s starts follow where
  proceeds := hfirst.bind hnext
  shorter := by
    intro ts a rest ds hn hin hrun
    obtain ⟨b, mid, ds₁, ds₂, hb, ha, -⟩ := ends_bind.mp hrun
    have hlt := hfirst.length_lt hn hin hb
    have hgoes : Goes (next b) s false mid follow := hnext b (by omega) (waits_false _ _)
    obtain ⟨left, horderly, -⟩ := hgoes
    have hle := horderly.suffix.length_le
    rw [show next b s mid = ⟨some a, rest, ds₂⟩ from ha] at hle
    exact Nat.lt_of_le_of_lt hle hlt

/-- A choice by the token at hand starts with whatever one of the two starts with. -/
theorem Items.choice {kinds kinds' : List Kind} {yes no : Rule α}
    (hyes : Items n yes s kinds follow) (hno : Items n no s kinds' follow) :
    Items n (isAtAny kinds >>= fun b => if b = true then yes else no) s (kinds ++ kinds')
      follow := by
  have hin {ts : List Token} (h : (front s ts).kind ∈ kinds) :
      (isAtAny kinds >>= fun b => if b = true then yes else no) s ts = yes s ts := by
    rw [bind_of_quiet (isAtAny_eq kinds s ts), if_pos (by simpa using h)]
  have hout {ts : List Token} (h : (front s ts).kind ∉ kinds) :
      (isAtAny kinds >>= fun b => if b = true then yes else no) s ts = no s ts := by
    rw [bind_of_quiet (isAtAny_eq kinds s ts), if_neg (by simpa using h)]
  constructor
  · intro blamed ts hn hwaits
    by_cases h : (front s ts).kind ∈ kinds
    · exact .of_eq (hin h) (hyes.proceeds hn fun _ => h)
    · refine .of_eq (hout h) (hno.proceeds hn fun hb => ?_)
      exact (List.mem_append.mp (hwaits hb)).resolve_left h
  · intro ts a rest ds hn hmem hrun
    by_cases h : (front s ts).kind ∈ kinds
    · exact hyes.shorter hn h (hin h ▸ hrun)
    · exact hno.shorter hn ((List.mem_append.mp hmem).resolve_left h) (hout h ▸ hrun)

/-- An item and then more items, with fewer tokens. -/
theorem Items.goes_cons {starts kinds kinds' : List Kind} (hitem : Items n item s starts kinds)
    {more : Rule (List α)} {bound : Nat} {blamed : Bool} {ts : List Token} (hn : ts.length < n)
    (hbound : ts.length ≤ bound + 1) (hin : (front s ts).kind ∈ starts)
    (hmore : ∀ ⦃left rest⦄, rest.length < n → rest.length ≤ bound →
      Waits kinds left (front s rest).kind → Goes more s left rest kinds') :
    Goes (item >>= fun a => more >>= fun as => pure (a :: as)) s blamed ts kinds' := by
  refine (hitem.proceeds hn fun _ => hin).bind fun a left rest ds hrun _ hwaits => ?_
  have hlt := hitem.shorter hn hin hrun
  refine (hmore (by omega) (by omega) hwaits).bind fun as left' rest' ds' _ _ hwaits' => ?_
  exact .of_some rfl (.done left' rest') hwaits'

/-- Behind the last item none starts, so what is at hand there, if it was blamed, is one of the
kinds that may follow. -/
theorem Items.many {starts kinds kinds' : List Kind} (hitem : Items n item s starts kinds)
    (hend : s.stop.kind ∉ starts) (hkinds : ∀ kind ∈ kinds, kind ∉ starts → kind ∈ kinds') :
    Proceeds n (many starts item) s kinds kinds' := by
  have hbound : ∀ bound {blamed ts}, ts.length < n → ts.length ≤ bound →
      Waits kinds blamed (front s ts).kind →
      Goes (manyUpTo starts item bound) s blamed ts kinds' := by
    intro bound
    induction bound with
    | zero =>
      intro blamed ts _ hzero hwaits
      obtain rfl := List.length_eq_zero_iff.mp (Nat.le_zero.mp hzero)
      exact .of_some rfl (.done blamed []) fun hb => hkinds _ (hwaits hb) hend
    | succ bound ih =>
      intro blamed ts hn hle hwaits
      refine .of_eq (bind_of_quiet (isAtAny_eq starts s ts)) ?_
      by_cases hin : (front s ts).kind ∈ starts
      · rw [if_pos (by simpa using hin)]
        exact hitem.goes_cons hn hle hin fun _ _ => ih
      · rw [if_neg (by simpa using hin)]
        exact .of_some rfl (.done blamed ts) fun hb => hkinds _ (hwaits hb) hin
  exact fun blamed ts hn hwaits => hbound ts.length hn (Nat.le_refl _) hwaits

/-- What a list skips is blamed once, and it skips nothing if its closer was blamed. -/
theorem goes_resume {first resync : List Kind} {closer : Kind} {blamed : Bool} {ts : List Token}
    (hfirst : (front s ts).kind ∉ first) (hwaits : Waits [closer] blamed (front s ts).kind) :
    Goes (resume first closer resync) s blamed ts [closer] := by
  obtain ⟨b, rest, cs, hends⟩ := exists_ends_resume first closer resync s ts
  rcases ends_resume hfirst hends with ⟨rfl, rfl, rfl⟩ | ⟨stray, run, -, rfl, rfl, -⟩
  · exact .of_some hends (.done blamed _) hwaits
  · have hfree : blamed = false := by
      refine hwaits.eq_false_of_ne fun hcloser => ?_
      exact absurd (ends_resume_of_closer hcloser hends).2.2 (List.cons_ne_nil _ _)
    rw [hfree]
    exact .of_some hends (.blame _ _ (.pass true stray (.lost s run rest))) (waits_false _ _)

/-- Behind a list its closer is at hand, if what is at hand was blamed.  By induction on the turns
of the loop; one that skips garbage passes at least one token. -/
theorem Items.list {first resync : List Kind} {closer : Kind}
    (hitem : Items n item s first (first ++ [closer])) (hend : s.stop.kind ∉ first) :
    Proceeds n (list first closer resync item) s (first ++ [closer]) [closer] := by
  have hkinds {kind : Kind} (hmem : kind ∈ first ++ [closer]) (hout : kind ∉ first) :
      kind ∈ [closer] := (List.mem_append.mp hmem).resolve_left hout
  have hbound : ∀ bound {blamed ts}, ts.length < n → ts.length ≤ bound →
      Waits (first ++ [closer]) blamed (front s ts).kind →
      Goes (listUpTo first closer resync item bound) s blamed ts [closer] := by
    intro bound
    induction bound with
    | zero =>
      intro blamed ts _ hzero hwaits
      obtain rfl := List.length_eq_zero_iff.mp (Nat.le_zero.mp hzero)
      exact .of_some rfl (.done blamed []) fun hb => hkinds (hwaits hb) hend
    | succ bound ih =>
      intro blamed ts hn hle hwaits
      refine .of_eq (bind_of_quiet (isAtAny_eq first s ts)) ?_
      by_cases hin : (front s ts).kind ∈ first
      · rw [if_pos (by simpa using hin)]
        exact hitem.goes_cons hn hle hin fun _ _ => ih
      · rw [if_neg (by simpa using hin)]
        refine (goes_resume hin fun hb => hkinds (hwaits hb) hin).bind
          fun b left rest ds hrun _ hwaits' => ?_
        cases b with
        | false => exact .of_some rfl (.done left rest) hwaits'
        | true =>
          -- the list goes on behind at least one token that was skipped
          rcases ends_resume hin hrun with ⟨hb, -, -⟩ | ⟨stray, run, -, rfl, -, -⟩
          · cases hb
          · simp only [List.cons_append, List.length_cons, List.length_append] at hn hle
            exact ih (by omega) (by omega) (hwaits'.mono (List.subset_append_right _ _))
  exact fun blamed ts hn hwaits => hbound ts.length hn (Nat.le_refl _) hwaits

end Repetition

end RobotLang.Rule
