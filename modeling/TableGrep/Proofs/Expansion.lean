import Mathlib
import TableGrep.Proofs.Contraction

/-!
# The depth-first expansion behind reading before a match

A scan of one position handles its work list depth first. `Table.Expands` states that expansion
on its own terms: each state is expanded at most once, a branch's `next2` goes before its
`next1`, the successors of a state that reads are not followed, and acceptance ends it. A scan
follows the expansion of its work list step for step (`Find.scan_expands`): it accepts exactly
when the expansion reaches acceptance, and it notes a character read exactly when an expanded
state reads it.

A match is found without reading only at position 0, since acceptance from state 0 without
reading does not depend on the character (`Find.run_withoutChar_stop`). So `Match.withoutChar`
holds exactly when the match stops at 0 and either the line is empty or the expansion from
state 0 reaches acceptance before it expands a state that reads the first character
(`Table.find_withoutChar_iff_expands`). With `Table.find_eq_none_iff` and `Table.find_eq_some`
this says all that `Table.find` computes (`find_semantics`).
-/

namespace TableGrep

namespace Table

/-- The depth-first expansion of a work list, given the states `done` already expanded. Targets
are taken from the front. Acceptance ends the expansion. An unresolved target, a state already
expanded and an index past the table are dead ends. A branch is expanded and puts its `next2`,
then its `next1`, at the front. A state that reads is expanded and its successors are not
followed. `Expands t done work order found`: the states expanded are `order`, in that order, and
`found` tells whether acceptance was reached. -/
inductive Expands (t : Table) : List Nat → List Target → List Nat → Bool → Prop
  | exhausted (done : List Nat) : Expands t done [] [] false
  | accept (done : List Nat) (rest : List Target) : Expands t done (.accept :: rest) [] true
  | unresolved {done : List Nat} {rest : List Target} {order : List Nat} {found : Bool} :
      Expands t done rest order found → Expands t done (.unresolved :: rest) order found
  | again {done : List Nat} {rest : List Target} {order : List Nat} {found : Bool} {i : Nat} :
      i ∈ done → Expands t done rest order found → Expands t done (.state i :: rest) order found
  | missing {done : List Nat} {rest : List Target} {order : List Nat} {found : Bool} {i : Nat} :
      t.get? i = none → Expands t done rest order found →
      Expands t done (.state i :: rest) order found
  | branch {done : List Nat} {rest : List Target} {order : List Nat} {found : Bool} {i : Nat}
      {s : State} : i ∉ done → t.get? i = some s → s.kind = .branch →
      Expands t (i :: done) (s.next2 :: s.next1 :: rest) order found →
      Expands t done (.state i :: rest) (i :: order) found
  | read {done : List Nat} {rest : List Target} {order : List Nat} {found : Bool} {i : Nat}
      {s : State} : i ∉ done → t.get? i = some s → s.kind ≠ .branch →
      Expands t (i :: done) rest order found →
      Expands t done (.state i :: rest) (i :: order) found

/-- A target the expansion passes over, given the states `done`: unresolved, a state already
expanded, or an index past the table. -/
def Gone (t : Table) (done : List Nat) (x : Target) : Prop :=
  x = .unresolved ∨ ∃ i, x = .state i ∧ (i ∈ done ∨ t.get? i = none)

theorem Gone.mono {t : Table} {done : List Nat} {x : Target} (h : t.Gone done x) (j : Nat) :
    t.Gone (j :: done) x := by
  rcases h with rfl | ⟨i, rfl, hi | hi⟩
  · exact .inl rfl
  · exact .inr ⟨i, rfl, .inl (.tail _ hi)⟩
  · exact .inr ⟨i, rfl, .inr hi⟩

theorem Gone.skip {t : Table} {done : List Nat} {x : Target} (h : t.Gone done x) {rest : List Target}
    {order : List Nat} {found : Bool} (he : t.Expands done rest order found) :
    t.Expands done (x :: rest) order found := by
  rcases h with rfl | ⟨i, rfl, hi | hi⟩
  · exact .unresolved he
  · exact .again hi he
  · exact .missing hi he

namespace Expands

variable {t : Table}

theorem det {done : List Nat} {work : List Target} {order order' : List Nat} {found found' : Bool}
    (h : t.Expands done work order found) (h' : t.Expands done work order' found') :
    order = order' ∧ found = found' := by
  induction h generalizing order' found' with
  | exhausted => cases h'; exact ⟨rfl, rfl⟩
  | accept => cases h'; exact ⟨rfl, rfl⟩
  | unresolved _ ih => cases h' with | unresolved h' => exact ih h'
  | again hi _ ih =>
    cases h' with
    | again _ h' => exact ih h'
    | missing _ h' => exact ih h'
    | branch hi' => exact absurd hi hi'
    | read hi' => exact absurd hi hi'
  | missing hs _ ih =>
    cases h' with
    | again _ h' => exact ih h'
    | missing _ h' => exact ih h'
    | branch _ hs' => rw [hs] at hs'; cases hs'
    | read _ hs' => rw [hs] at hs'; cases hs'
  | branch hi hs hk _ ih =>
    cases h' with
    | again hi' => exact absurd hi' hi
    | missing hs' => rw [hs] at hs'; cases hs'
    | branch _ hs' _ h' =>
      rw [hs, Option.some.injEq] at hs'
      subst hs'
      obtain ⟨rfl, rfl⟩ := ih h'
      exact ⟨rfl, rfl⟩
    | read _ hs' hk' =>
      rw [hs, Option.some.injEq] at hs'
      subst hs'
      exact absurd hk hk'
  | read hi hs hk _ ih =>
    cases h' with
    | again hi' => exact absurd hi' hi
    | missing hs' => rw [hs] at hs'; cases hs'
    | branch _ hs' hk' =>
      rw [hs, Option.some.injEq] at hs'
      subst hs'
      exact absurd hk' hk
    | read _ hs' _ h' =>
      rw [hs, Option.some.injEq] at hs'
      subst hs'
      obtain ⟨rfl, rfl⟩ := ih h'
      exact ⟨rfl, rfl⟩

/-- A target the expansion passes over can stand anywhere in the work list. -/
theorem insert_gone {done : List Nat} {pre rest : List Target} {order : List Nat} {found : Bool}
    (h : t.Expands done (pre ++ rest) order found) {x : Target} (hx : t.Gone done x) :
    t.Expands done (pre ++ x :: rest) order found := by
  generalize hw : pre ++ rest = work at h
  induction h generalizing pre with
  | exhausted =>
    obtain ⟨rfl, rfl⟩ := List.append_eq_nil_iff.1 hw
    exact hx.skip (.exhausted _)
  | accept done rest' =>
    cases pre with
    | nil =>
      subst hw
      exact hx.skip (.accept _ _)
    | cons y pre =>
      simp only [List.cons_append, List.cons.injEq] at hw
      obtain ⟨rfl, -⟩ := hw
      exact .accept _ _
  | unresolved h ih =>
    cases pre with
    | nil =>
      subst hw
      exact hx.skip (.unresolved h)
    | cons y pre =>
      simp only [List.cons_append, List.cons.injEq] at hw
      obtain ⟨rfl, hw⟩ := hw
      exact .unresolved (ih hx hw)
  | again hi h ih =>
    cases pre with
    | nil =>
      subst hw
      exact hx.skip (.again hi h)
    | cons y pre =>
      simp only [List.cons_append, List.cons.injEq] at hw
      obtain ⟨rfl, hw⟩ := hw
      exact .again hi (ih hx hw)
  | missing hi h ih =>
    cases pre with
    | nil =>
      subst hw
      exact hx.skip (.missing hi h)
    | cons y pre =>
      simp only [List.cons_append, List.cons.injEq] at hw
      obtain ⟨rfl, hw⟩ := hw
      exact .missing hi (ih hx hw)
  | branch hi hs hk h ih =>
    cases pre with
    | nil =>
      subst hw
      exact hx.skip (.branch hi hs hk h)
    | cons y pre =>
      simp only [List.cons_append, List.cons.injEq] at hw
      obtain ⟨rfl, hw⟩ := hw
      -- the successors go in front of the rest of `pre`, and `x` stays passed over
      exact .branch hi hs hk (@ih (_ :: _ :: pre) (hx.mono _) (by rw [← hw]; rfl))
  | read hi hs hk h ih =>
    cases pre with
    | nil =>
      subst hw
      exact hx.skip (.read hi hs hk h)
    | cons y pre =>
      simp only [List.cons_append, List.cons.injEq] at hw
      obtain ⟨rfl, hw⟩ := hw
      exact .read hi hs hk (ih (hx.mono _) hw)

theorem dup {done : List Nat} {x : Target} {rest : List Target} {order : List Nat}
    {found : Bool} (h : t.Expands done (x :: rest) order found) :
    t.Expands done (x :: x :: rest) order found := by
  cases h with
  | accept => exact .accept _ _
  | unresolved h => exact .unresolved (.unresolved h)
  | again hi h => exact .again hi (.again hi h)
  | missing hi h => exact .missing hi (.missing hi h)
  | branch hi hs hk h =>
    exact .branch hi hs hk (@insert_gone _ _ [_, _] _ _ _ h _ (.inr ⟨_, rfl, .inl (.head _)⟩))
  | read hi hs hk h =>
    exact .read hi hs hk (@insert_gone _ _ [] _ _ _ h _ (.inr ⟨_, rfl, .inl (.head _)⟩))

theorem of_successors {done : List Nat} {s : State} {rest : List Target} {order : List Nat}
    {found : Bool} (h : t.Expands done (s.successors.reverse ++ rest) order found) :
    t.Expands done (s.next2 :: s.next1 :: rest) order found := by
  unfold State.successors at h
  split at h
  · rename_i he
    rw [← he]
    exact dup h
  · exact h

end Expands

/-- The state at `i` reads `c`: a literal of `c`, or the wildcard (nothing reads the end of the
line, `none`). -/
def Consumes (t : Table) (c : Option Char) (i : Nat) : Prop :=
  ∃ s, t.get? i = some s ∧ c.any s.kind.consumes = true

theorem not_consumes {t : Table} {c : Option Char} {i : Nat} {s : State} (hs : t.get? i = some s)
    (h : ¬ c.any s.kind.consumes = true) : ¬ t.Consumes c i := by
  rintro ⟨s', hs', hc⟩
  rw [hs, Option.some.injEq] at hs'
  subst hs'
  exact h hc

theorem consumes_cons_iff {t : Table} {c : Option Char} {i : Nat} (hi : ¬ t.Consumes c i)
    {order : List Nat} : (∃ j ∈ i :: order, t.Consumes c j) ↔ ∃ j ∈ order, t.Consumes c j := by
  constructor
  · rintro ⟨j, hj, hc⟩
    rcases List.mem_cons.1 hj with rfl | hj
    · exact absurd hc hi
    · exact ⟨j, hj, hc⟩
  · rintro ⟨j, hj, hc⟩
    exact ⟨j, .tail _ hj, hc⟩

end Table

namespace Find

open Table

variable {t : Table} {c : Option Char}

/-- The marks of a scan record exactly the states `done` it has expanded. -/
def Records (t : Table) (seen : Marks) (done : List Nat) : Prop :=
  seen.size = t.size ∧ ∀ i, seen[i]? = some true ↔ i ∈ done

theorem records_none (t : Table) : Records t (Marks.none t.size) [] := by
  refine ⟨by simp [Marks.none], fun i => ?_⟩
  rw [none_getElem?]
  split <;> simp

theorem Records.set {seen : Marks} {done : List Nat} (h : Records t seen done) {i : Nat}
    (hi : i < seen.size) : Records t (seen.set i true hi) (i :: done) := by
  refine ⟨by simp [h.1], fun j => ?_⟩
  rw [set_getElem? hi, List.mem_cons, ← h.2 j]
  by_cases e : i = j
  · simp [e]
  · simp [e, Ne.symm e]

theorem Records.not_mem {seen : Marks} {done : List Nat} (h : Records t seen done) {i : Nat}
    (hlt : i < seen.size) (hi : ¬ seen[i] = true) : i ∉ done := by
  rw [← h.2 i, Array.getElem?_eq_getElem hlt]
  simpa using hi

/-- A scan expands the states of the depth-first expansion of its work list, in order, and accepts
when the expansion reaches acceptance. -/
theorem scan_expands (now : List Target) (seen : Marks) (later : List Target) (b : Bool) :
    ∀ done, Records t seen done → ∃ order,
      t.Expands done now order (scan t c now seen later b).accepted ∧
      ((scan t c now seen later b).consumed = true ↔
        b = true ∨ ∃ i ∈ order, t.Consumes c i) := by
  fun_induction scan t c now seen later b with
  | case1 => exact fun _ _ => ⟨[], .exhausted _, by simp⟩
  | case2 => exact fun _ _ => ⟨[], .accept _ _, by simp⟩
  | case3 _ _ _ _ ih =>
    intro done h
    obtain ⟨order, he, hc⟩ := ih done h
    exact ⟨order, .unresolved he, hc⟩
  | case4 _ _ _ i _ hlt hi ih =>
    intro done h
    obtain ⟨order, he, hc⟩ := ih done h
    have hd : i ∈ done := (h.2 i).1 (by simp [Array.getElem?_eq_getElem hlt, hi])
    exact ⟨order, .again hd he, hc⟩
  | case5 _ _ _ i _ hlt _ _ hs _ =>
    intro done h
    have := get?_eq_none_iff.1 hs
    have := h.1
    omega
  | case6 _ _ _ i _ hlt hi _ s hs hk ih =>
    intro done h
    obtain ⟨order, he, hc⟩ := ih (i :: done) (h.set hlt)
    have hnc : ¬ t.Consumes c i :=
      not_consumes hs (by simp [isBranch_iff.1 hk, any_consumes_branch])
    exact ⟨i :: order, .branch (h.not_mem hlt hi) hs (isBranch_iff.1 hk) he.of_successors,
      hc.trans (or_congr_right (consumes_cons_iff hnc).symm)⟩
  | case7 _ _ _ i _ hlt hi _ s hs hk hc' ih =>
    intro done h
    obtain ⟨order, he, hc⟩ := ih (i :: done) (h.set hlt)
    refine ⟨i :: order, .read (h.not_mem hlt hi) hs (mt isBranch_iff.2 hk) he, ?_⟩
    exact ⟨fun _ => .inr ⟨i, .head _, s, hs, hc'⟩, fun _ => hc.2 (.inl rfl)⟩
  | case8 _ _ _ i _ hlt hi _ s hs hk hc' ih =>
    intro done h
    obtain ⟨order, he, hc⟩ := ih (i :: done) (h.set hlt)
    exact ⟨i :: order, .read (h.not_mem hlt hi) hs (mt isBranch_iff.2 hk) he,
      hc.trans (or_congr_right (consumes_cons_iff (not_consumes hs hc')).symm)⟩
  | case9 _ _ _ i _ hlt ih =>
    intro done h
    obtain ⟨order, he, hc⟩ := ih done h
    have hs : t.get? i = none := get?_eq_none_iff.2 (by rw [← h.1]; omega)
    exact ⟨order, .missing hs he, hc⟩

/-- A match found without reading stops where the run started. -/
theorem run_withoutChar_stop {cs : List Char} {p : Nat} {m : Match}
    (h : run t [] false p cs = some m) (hw : m.withoutChar = true) :
    m.stop = p ∧ (scan t cs[0]? [.state 0] (Marks.none t.size) [] false).accepted = true := by
  induction cs generalizing p with
  | nil =>
    rcases run_eq_some h with ⟨hacc, rfl⟩ | ⟨c, rest, e, -⟩
    · exact ⟨rfl, hacc⟩
    · cases e
  | cons c cs ih =>
    rcases run_eq_some h with ⟨hacc, rfl⟩ | ⟨c', rest, e, hacc, h⟩
    · exact ⟨rfl, hacc⟩
    obtain ⟨rfl, rfl⟩ := List.cons_eq_cons.1 e
    simp only [List.nil_append] at h hacc
    cases ho : (scan t (some c) [.state 0] (Marks.none t.size) [] false).consumed
    · -- nothing read: the next position is scanned from state 0 alone, and would accept here
      have hl := ((scan_sound [.state 0] (Marks.none t.size) [] false).2.2 ho).2
      rw [ho, hl] at h
      obtain ⟨-, hacc'⟩ := ih h
      have here : (scan t (some c) [.state 0] (Marks.none t.size) [] false).accepted = true :=
        (scan_accepted_iff _ _ _).2 ((scan_accepted_iff _ _ _).1 hacc')
      rw [hacc] at here
      cases here
    · rw [ho] at h
      rw [run_withoutChar_false h] at hw
      cases hw

end Find

namespace Table

open Find

/-- A match is found without reading exactly when it stops at 0 and the line is empty or the
expansion from state 0 accepts before it expands a state that reads the first character. -/
theorem find_withoutChar_iff_expands {t : Table} {l : List Char} {m : Match}
    (h : t.find l = some m) :
    m.withoutChar = true ↔ m.stop = 0 ∧ (l = [] ∨ ∃ c rest order, l = c :: rest ∧
      t.Expands [] [.state 0] order true ∧
      ∀ i ∈ order, ∀ s, t.get? i = some s → s.kind.consumes c = false) := by
  have hfresh := find_withoutChar_iff h
  constructor
  · intro hw
    obtain ⟨hstop, hacc⟩ := run_withoutChar_stop h hw
    have h0 := (hfresh.1 hw) 0 (Nat.zero_le _)
    refine ⟨hstop, ?_⟩
    cases l with
    | nil => exact .inl rfl
    | cons c rest =>
      obtain ⟨order, he, hc⟩ :=
        @scan_expands t (some c) [.state 0] (Marks.none t.size) [] false [] (records_none t)
      simp only [List.getElem?_cons_zero] at hacc h0
      rw [hacc] at he
      refine .inr ⟨c, rest, order, rfl, he, fun i hi s hs => ?_⟩
      -- a state of the expansion that read `c` would have made the scan note a read
      cases hr : s.kind.consumes c
      · rfl
      · have := hc.2 (.inr ⟨i, hi, s, hs, by simpa using hr⟩)
        rw [h0] at this
        cases this
  · rintro ⟨hstop, hl⟩
    refine hfresh.2 fun j hj => ?_
    obtain rfl : j = 0 := by omega
    rcases hl with rfl | ⟨c, rest, order, rfl, he, hr⟩
    · obtain ⟨order, -, hc⟩ :=
        @scan_expands t none [.state 0] (Marks.none t.size) [] false [] (records_none t)
      simp only [List.getElem?_nil]
      cases hcon : (scan t none [.state 0] (Marks.none t.size) [] false).consumed
      · rfl
      · obtain ⟨i, -, s, -, hs⟩ := (hc.1 hcon).resolve_left (by simp)
        cases hs
    · obtain ⟨order', he', hc⟩ :=
        @scan_expands t (some c) [.state 0] (Marks.none t.size) [] false [] (records_none t)
      obtain ⟨rfl, -⟩ := he'.det he
      simp only [List.getElem?_cons_zero]
      cases hcon : (scan t (some c) [.state 0] (Marks.none t.size) [] false).consumed
      · rfl
      · obtain ⟨i, hi, s, hs, hcs⟩ := (hc.1 hcon).resolve_left (by simp)
        simp [hr i hi s hs] at hcs

end Table

/-- What finding a match computes, for every table and line: no match exactly when no stretch is
accepted from state 0, else the least end of one, found without reading as the expansion says. -/
theorem find_semantics (t : Table) (l : List Char) :
    (t.find l = none ↔ ∀ j ≤ l.length, ¬ t.MatchEnds l j) ∧
    ∀ m, t.find l = some m →
      m.stop ≤ l.length ∧ t.MatchEnds l m.stop ∧ (∀ j < m.stop, ¬ t.MatchEnds l j) ∧
      (m.withoutChar = true ↔ m.stop = 0 ∧ (l = [] ∨ ∃ c rest order, l = c :: rest ∧
        t.Expands [] [.state 0] order true ∧
        ∀ i ∈ order, ∀ s, t.get? i = some s → s.kind.consumes c = false)) := by
  refine ⟨Table.find_eq_none_iff, fun m h => ?_⟩
  obtain ⟨h₁, h₂, h₃⟩ := Table.find_eq_some h
  exact ⟨h₁, h₂, h₃, Table.find_withoutChar_iff_expands h⟩

/-- On "ab" the table of "a?" tries acceptance before the state that reads "a", so the match is
found at 0 without reading. -/
theorem find_semantics_optional :
    Table.find ⟨#[⟨.branch, .state 1, .accept⟩, ⟨.literal 'a', .accept, .accept⟩]⟩ ['a', 'b'] =
      some ⟨0, true⟩ ∧
    ∃ order, Table.Expands ⟨#[⟨.branch, .state 1, .accept⟩, ⟨.literal 'a', .accept, .accept⟩]⟩
      [] [.state 0] order true := by
  have h : Table.find ⟨#[⟨.branch, .state 1, .accept⟩, ⟨.literal 'a', .accept, .accept⟩]⟩
      ['a', 'b'] = some ⟨0, true⟩ := by cbv
  obtain ⟨-, -, -, hw⟩ := (find_semantics _ _).2 _ h
  obtain ⟨-, hl | ⟨c, rest, order, -, he, -⟩⟩ := hw.1 rfl
  · cases hl
  · exact ⟨h, order, he⟩

end TableGrep
