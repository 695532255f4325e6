import TableGrep.Proofs.Find
import TableGrep.Proofs.Relabel

/-!
# Scans of a contracted table

A scan handles the threads of one position depth first and stops at acceptance; whether it reads
a character on the way decides `Match.withoutChar`. `Contracts t t' R K g rank` says that `t'` is
`t` with the pass-through states of `R` outside `K` contracted and the others relabelled by `g`,
as far as the states `R` reached from state 0 go. The scan of `t'` then follows the scan of `t`
step by step, standing still while `t` walks a pass-through state, whose rank grows along every
such walk; so the two scans from state 0 alone report the same acceptance and the same reading
(`Contracts.fresh`).

A match is found without reading exactly when no scan from state 0 alone read a character, at
any position up to the match (`find_withoutChar_iff`). Tables whose fresh scans read alike and
that accept the same words therefore find the same matches (`find_eq_of_fresh`).
-/

namespace TableGrep

namespace Find

variable {t : Table} {c : Option Char}

/-! ## One step of a scan -/

theorem scan_nil (seen : Marks) (later : List Target) (b : Bool) :
    scan t c [] seen later b = ⟨false, later, b⟩ := by
  rw [scan]

theorem scan_accept (rest : List Target) (seen : Marks) (later : List Target) (b : Bool) :
    scan t c (.accept :: rest) seen later b = ⟨true, later, b⟩ := by
  rw [scan]

/-- A target the marks have finished with: unresolved, marked, or past the marks. -/
def Dead (seen : Marks) (x : Target) : Prop :=
  x = .unresolved ∨ ∃ k, x = .state k ∧ seen[k]? ≠ some false

theorem Dead.set {seen : Marks} {x : Target} (hx : Dead seen x) {i : Nat} (h : i < seen.size) :
    Dead (seen.set i true h) x := by
  rcases hx with rfl | ⟨k, rfl, hk⟩
  · exact .inl rfl
  · refine .inr ⟨k, rfl, ?_⟩
    rw [set_getElem? h]
    split <;> simp_all

theorem scan_dead {x : Target} {seen : Marks} (hx : Dead seen x) (rest later : List Target)
    (b : Bool) : scan t c (x :: rest) seen later b = scan t c rest seen later b := by
  rcases hx with rfl | ⟨k, rfl, hk⟩
  · rw [scan]
  · rw [scan]
    split
    · rename_i h
      have hm : seen[k] = true := by
        rw [Array.getElem?_eq_getElem h] at hk
        simpa using hk
      simp [hm]
    · rfl

theorem scan_branch {i : Nat} {seen : Marks} (h : i < seen.size) (hi : seen[i] = false)
    {s : State} (hs : t.get? i = some s) (hk : s.kind = .branch) (rest later : List Target)
    (b : Bool) :
    scan t c (.state i :: rest) seen later b =
      scan t c (s.successors.reverse ++ rest) (seen.set i true h) later b := by
  rw [scan, dif_pos h]
  simp [hi, hs, hk, Kind.isBranch]

theorem scan_read {i : Nat} {seen : Marks} (h : i < seen.size) (hi : seen[i] = false)
    {s : State} (hs : t.get? i = some s) (hk : s.kind ≠ .branch) (rest later : List Target)
    (b : Bool) :
    scan t c (.state i :: rest) seen later b =
      if c.any s.kind.consumes then
        scan t c rest (seen.set i true h) (s.successors.reverse ++ later) true
      else scan t c rest (seen.set i true h) later b := by
  have hb : s.kind.isBranch = false := Bool.eq_false_iff.2 (mt isBranch_iff.1 hk)
  rw [scan, dif_pos h]
  simp [hi, hs, hb]

/-! ## Reading before a match -/

theorem scan_consumed_true (now : List Target) (seen : Marks) (later : List Target) :
    (scan t c now seen later true).consumed = true := by
  cases h : (scan t c now seen later true).consumed
  · exact absurd ((scan_sound now seen later true).2.2 h).1 (by simp)
  · rfl

/-- A search that finds a match accepted at its first position, or found it from the next one. -/
theorem run_eq_some {cs : List Char} {carried : List Target} {b : Bool} {p : Nat} {m : Match}
    (h : run t carried b p cs = some m) :
    ((scan t cs[0]? (carried ++ [.state 0]) (Marks.none t.size) [] b).accepted = true ∧
        m = ⟨p, !(scan t cs[0]? (carried ++ [.state 0]) (Marks.none t.size) [] b).consumed⟩) ∨
      ∃ c rest, cs = c :: rest ∧
        (scan t (some c) (carried ++ [.state 0]) (Marks.none t.size) [] b).accepted = false ∧
        run t (scan t (some c) (carried ++ [.state 0]) (Marks.none t.size) [] b).later.reverse
          (scan t (some c) (carried ++ [.state 0]) (Marks.none t.size) [] b).consumed (p + 1)
          rest = some m := by
  cases cs with
  | nil =>
    simp only [run] at h
    split at h
    · rename_i hacc
      cases h
      exact .inl ⟨hacc, rfl⟩
    · cases h
  | cons c rest =>
    unfold run at h
    dsimp only at h
    split at h
    · rename_i hacc
      cases h
      exact .inl ⟨hacc, rfl⟩
    · rename_i hacc
      exact .inr ⟨c, rest, rfl, by simpa using hacc, h⟩

theorem run_stop_ge {cs : List Char} {carried : List Target} {b : Bool} {p : Nat} {m : Match}
    (h : run t carried b p cs = some m) : p ≤ m.stop := by
  induction cs generalizing carried b p with
  | nil =>
    rcases run_eq_some h with ⟨-, rfl⟩ | ⟨c, rest, e, -⟩
    · exact Nat.le_refl _
    · cases e
  | cons c cs ih =>
    rcases run_eq_some h with ⟨-, rfl⟩ | ⟨c', rest, e, -, h⟩
    · exact Nat.le_refl _
    · obtain ⟨rfl, rfl⟩ := List.cons_eq_cons.1 e
      exact Nat.le_of_succ_le (ih h)

theorem run_withoutChar_false {cs : List Char} {carried : List Target} {p : Nat} {m : Match}
    (h : run t carried true p cs = some m) : m.withoutChar = false := by
  induction cs generalizing carried p with
  | nil =>
    rcases run_eq_some h with ⟨-, rfl⟩ | ⟨c, rest, e, -⟩
    · simp [scan_consumed_true]
    · cases e
  | cons c cs ih =>
    rcases run_eq_some h with ⟨-, rfl⟩ | ⟨c', rest, e, -, h⟩
    · simp [scan_consumed_true]
    · obtain ⟨rfl, rfl⟩ := List.cons_eq_cons.1 e
      rw [scan_consumed_true] at h
      exact ih h

/-- From no carried threads, a match is found without reading exactly when no scan up to it read. -/
theorem run_withoutChar_iff (cs : List Char) (p : Nat) (m : Match)
    (h : run t [] false p cs = some m) :
    m.withoutChar = true ↔ ∀ j, p + j ≤ m.stop →
      (scan t cs[j]? [.state 0] (Marks.none t.size) [] false).consumed = false := by
  induction cs generalizing p with
  | nil =>
    rcases run_eq_some h with ⟨-, rfl⟩ | ⟨c, rest, e, -⟩
    · exact here
    · cases e
  | cons c cs ih =>
    rcases run_eq_some h with ⟨-, rfl⟩ | ⟨c', rest, e, -, h⟩
    · exact here
    obtain ⟨rfl, rfl⟩ := List.cons_eq_cons.1 e
    simp only [List.nil_append] at h
    have hp := run_stop_ge h
    cases ho : (scan t (some c) [.state 0] (Marks.none t.size) [] false).consumed
    · -- nothing read at `p`: nothing is carried to `p + 1`
      have hl := ((scan_sound [.state 0] (Marks.none t.size) [] false).2.2 ho).2
      rw [ho, hl] at h
      rw [ih (p + 1) h]
      constructor
      · intro hall j hj
        cases j with
        | zero => exact ho
        | succ j => simpa using hall j (by omega)
      · intro hall j hj
        simpa using hall (j + 1) (by omega)
    · rw [ho] at h
      rw [run_withoutChar_false h]
      refine ⟨fun hw => (by cases hw), fun hall => ?_⟩
      have h0 := hall 0 (by omega)
      simp [ho] at h0
where
  -- a match at `p` itself: only the scan at `p` counts
  here {cs : List Char} {p : Nat} :
      (!(scan t cs[0]? ([] ++ [.state 0]) (Marks.none t.size) [] false).consumed) = true ↔
        ∀ j, p + j ≤ p →
          (scan t cs[j]? [.state 0] (Marks.none t.size) [] false).consumed = false := by
    constructor
    · intro hw j hj
      obtain rfl : j = 0 := by omega
      simpa using hw
    · intro hall
      simpa using hall 0 (by simp)

end Find

namespace Table

open Find

/-- A match is found without reading exactly when no scan from state 0 alone up to it reads. -/
theorem find_withoutChar_iff {t : Table} {l : List Char} {m : Match} (h : t.find l = some m) :
    m.withoutChar = true ↔
      ∀ j ≤ m.stop, (scan t l[j]? [.state 0] (Marks.none t.size) [] false).consumed = false := by
  rw [run_withoutChar_iff l 0 m h]
  simp

/-- Tables that accept alike from state 0 and whose fresh scans read alike find the same matches. -/
theorem find_eq_of_fresh {t t' : Table}
    (hacc : ∀ w, t'.Accepts (.state 0) w ↔ t.Accepts (.state 0) w)
    (hfresh : ∀ c, (scan t' c [.state 0] (Marks.none t'.size) [] false).consumed =
      (scan t c [.state 0] (Marks.none t.size) [] false).consumed)
    (l : List Char) : t'.find l = t.find l := by
  have hstop := find_stop_congr hacc l
  cases h : t.find l with
  | none =>
    rw [h] at hstop
    exact Option.map_eq_none_iff.1 hstop
  | some m =>
    rw [h] at hstop
    obtain ⟨m', h', hs⟩ := Option.map_eq_some_iff.1 hstop
    have hw : m'.withoutChar = m.withoutChar := by
      rw [Bool.eq_iff_iff, find_withoutChar_iff h', find_withoutChar_iff h, hs]
      simp only [hfresh]
    rw [h']
    cases m
    cases m'
    simp_all

/-! ## Contracting pass-through states -/

/-- The target is no state, or a state of rank above `r`. -/
def Above (rank : Nat → Nat) (r : Nat) (x : Target) : Prop :=
  ∀ j, x = .state j → r < rank j

/-- `t'` is `t` with the pass-through states of `R` outside `K` contracted and the others
relabelled by `g`, as far as the states `R`, reached from state 0, go. A contracted state leads
to a state of higher rank, and is sent where its successor is sent. -/
structure Contracts (t t' : Table) (R K : Nat → Prop) (g : Nat → Target) (rank : Nat → Nat) :
    Prop where
  zero : R 0 ∧ g 0 = .state 0
  lt_size : ∀ i, R i → i < t.size
  closed : ∀ i st, R i → t.get? i = some st → st.kind = .branch → ∀ x ∈ st.successors, Kept R x
  kept : ∀ i st, R i → K i → t.get? i = some st → ∃ i' st', g i = .state i' ∧
    t'.get? i' = some st' ∧ st'.kind = st.kind ∧
    (st.kind = .branch → st'.successors = st.successors.map (·.relabel g))
  pass : ∀ i st, R i → ¬ K i → t.get? i = some st →
    st.kind = .branch ∧ st.next2 = st.next1 ∧ g i = st.next1.relabel g ∧
      Above rank (rank i) st.next1
  inj : ∀ i j, R i → R j → K i → K j → g i = g j → i = j

/-- How a scan of `t` at `now` and `seen` stands to the scan of `t'` at the image of `now` and
`seen'`: kept states carry the same marks, and a marked contracted state is either still being
walked from the head of `now`, or its image is finished for `t'`. -/
structure Tracks (t : Table) (R K : Nat → Prop) (g : Nat → Target) (rank : Nat → Nat)
    (now : List Target) (seen seen' : Marks) : Prop where
  size : seen.size = t.size
  targets : ∀ x ∈ now, Kept R x
  kept : ∀ i i', R i → K i → g i = .state i' → seen[i]? = seen'[i']?
  pass : ∀ i, R i → ¬ K i → seen[i]? = some true →
    (∃ x rest, now = x :: rest ∧ x.relabel g = g i ∧ Above rank (rank i) x) ∨ Dead seen' (g i)

section Tracks

variable {t t' : Table} {R K : Nat → Prop} {g : Nat → Target} {rank : Nat → Nat}
  {x : Target} {rest : List Target} {seen seen' : Marks}

theorem Tracks.tail (h : Tracks t R K g rank (x :: rest) seen seen')
    (hx : Dead seen' (x.relabel g)) : Tracks t R K g rank rest seen seen' where
  size := h.size
  targets y hy := h.targets y (.tail _ hy)
  kept := h.kept
  pass i hi hK hm := by
    rcases h.pass i hi hK hm with ⟨y, r, e, hy, -⟩ | hd
    · cases e
      exact .inr (hy ▸ hx)
    · exact .inr hd

theorem Tracks.mark_kept (hc : Contracts t t' R K g rank)
    (h : Tracks t R K g rank (.state i :: rest) seen seen') (hi : R i) (hK : K i)
    {i' : Nat} (hg : g i = .state i') (hlt : i < seen.size) (hlt' : i' < seen'.size)
    (new : List Target) (hnew : ∀ y ∈ new, Kept R y) :
    Tracks t R K g rank (new ++ rest) (seen.set i true hlt) (seen'.set i' true hlt') where
  size := by simpa using h.size
  targets y hy := by
    rcases List.mem_append.1 hy with hy | hy
    · exact hnew y hy
    · exact h.targets y (.tail _ hy)
  kept j j' hj hKj hgj := by
    rw [set_getElem? hlt, set_getElem? hlt']
    by_cases e : i = j
    · subst e
      rw [hg, Target.state.injEq] at hgj
      simp [hgj]
    · have e' : i' ≠ j' := by
        rintro rfl
        exact e (hc.inj i j hi hj hK hKj (hg.trans hgj.symm))
      rw [if_neg e, if_neg e']
      exact h.kept j j' hj hKj hgj
  pass p hp hKp hm := by
    have hpi : i ≠ p := by rintro rfl; exact hKp hK
    rw [set_getElem? hlt, if_neg hpi] at hm
    rcases h.pass p hp hKp hm with ⟨y, r, e, hy, -⟩ | hd
    · -- the walk from `p` reached the kept state `i`, now marked
      cases e
      rw [← hy, Target.relabel, hg]
      exact .inr (.inr ⟨i', rfl, by simp⟩)
    · exact .inr (hd.set hlt')

theorem Tracks.mark_pass (hc : Contracts t t' R K g rank)
    (h : Tracks t R K g rank (.state i :: rest) seen seen') (hi : R i) (hK : ¬ K i)
    {st : State} (hs : t.get? i = some st) (hlt : i < seen.size) :
    Tracks t R K g rank (st.next1 :: rest) (seen.set i true hlt) seen' where
  size := by simpa using h.size
  targets y hy := by
    obtain ⟨hk, -, -, -⟩ := hc.pass i st hi hK hs
    rcases List.mem_cons.1 hy with rfl | hy
    · exact hc.closed i st hi hs hk _ (State.next1_mem_successors st)
    · exact h.targets y (.tail _ hy)
  kept j j' hj hKj hgj := by
    have hij : i ≠ j := by rintro rfl; exact hK hKj
    rw [set_getElem? hlt, if_neg hij]
    exact h.kept j j' hj hKj hgj
  pass p hp hKp hm := by
    obtain ⟨-, -, hgi, habove⟩ := hc.pass i st hi hK hs
    rw [set_getElem? hlt] at hm
    by_cases e : i = p
    · subst e
      exact .inl ⟨st.next1, rest, rfl, hgi.symm, habove⟩
    · rw [if_neg e] at hm
      rcases h.pass p hp hKp hm with ⟨y, r, e', hy, hab⟩ | hd
      · -- an earlier state of the same walk: its rank is below that of `i`
        cases e'
        refine .inl ⟨_, _, rfl, by rw [← hy, Target.relabel, hgi], fun j hj => ?_⟩
        exact Nat.lt_trans (hab i rfl) (habove j hj)
      · exact .inr hd

theorem Tracks.image_unmarked {now : List Target} (h : Tracks t R K g rank now seen seen')
    (hi : R i) (hK : K i) {i' : Nat} (hg : g i = .state i') (hlt : i < seen.size)
    (hmark : ¬seen[i] = true) : ∃ hlt' : i' < seen'.size, seen'[i'] = false := by
  have hm' : seen'[i']? = some false := by
    rw [← h.kept i i' hi hK hg]
    simp [hlt, hmark]
  exact Array.getElem?_eq_some_iff.1 hm'

end Tracks

namespace Contracts

variable {t t' : Table} {R K : Nat → Prop} {g : Nat → Target} {rank : Nat → Nat}
  (hc : Contracts t t' R K g rank)
include hc

theorem kept_of_reads {i : Nat} {st : State} (hi : R i) (hs : t.get? i = some st)
    (hk : st.kind ≠ .branch) : K i :=
  Classical.byContradiction fun hK => hk (hc.pass i st hi hK hs).1

theorem tracks_none :
    Tracks t R K g rank [.state 0] (Marks.none t.size) (Marks.none t'.size) where
  size := by simp [Marks.none]
  targets y hy := by
    rw [List.mem_singleton.1 hy]
    rintro j ⟨⟩
    exact hc.zero.1
  kept i i' hi hK hg := by
    obtain ⟨j, st', hj, hst', -⟩ := hc.kept i _ hi hK (exists_get? (hc.lt_size i hi)).choose_spec
    rw [hg, Target.state.injEq] at hj
    subst hj
    rw [none_getElem?, none_getElem?, if_pos (hc.lt_size i hi), if_pos (lt_size_of_get? hst')]
  pass i hi _ hm := by
    rw [none_getElem?, if_pos (hc.lt_size i hi)] at hm
    cases hm

/-- The scan of `t'` at the image of the work list accepts and reads as the scan of `t` does. -/
theorem scan_eq (now : List Target) (seen : Marks) (later : List Target) (b : Bool) :
    ∀ (seen' : Marks) (later' : List Target), Tracks t R K g rank now seen seen' →
      (scan t c now seen later b).accepted =
          (scan t' c (now.map (·.relabel g)) seen' later' b).accepted ∧
        (scan t c now seen later b).consumed =
          (scan t' c (now.map (·.relabel g)) seen' later' b).consumed := by
  fun_induction scan t c now seen later b with
  | case1 => intro seen' later' _; simp [scan_nil]
  | case2 => intro seen' later' _; simp [Target.relabel, scan_accept]
  | case3 seen later b rest ih =>
    intro seen' later' htr
    have hd : Dead seen' (Target.unresolved.relabel g) := .inl rfl
    rw [List.map_cons, scan_dead hd]
    exact ih seen' later' (htr.tail hd)
  | case4 seen later b i rest hi hmark ih =>
    intro seen' later' htr
    have hRi : R i := htr.targets _ (.head _) i rfl
    -- a marked state: marked for `t'` too when kept, finished for `t'` when contracted
    have hd : Dead seen' ((Target.state i).relabel g) := by
      have hm : seen[i]? = some true := by simp [hi, hmark]
      by_cases hK : K i
      · obtain ⟨i', st', hg, -⟩ := hc.kept i _ hRi hK (exists_get? (hc.lt_size i hRi)).choose_spec
        refine .inr ⟨i', hg, ?_⟩
        rw [← htr.kept i i' hRi hK hg, hm]
        simp
      · rcases htr.pass i hRi hK hm with ⟨y, r, e, -, hab⟩ | hd
        · cases e
          exact absurd (hab i rfl) (Nat.lt_irrefl _)
        · exact hd
    rw [List.map_cons, scan_dead hd]
    exact ih seen' later' (htr.tail hd)
  | case5 seen later b i rest hi _ _ hs _ =>
    intro seen' later' htr
    obtain ⟨st, hst⟩ := exists_get? (hc.lt_size i (htr.targets _ (.head _) i rfl))
    rw [hst] at hs
    cases hs
  | case6 seen later b i rest hi hmark seen₁ s hs hk ih =>
    intro seen' later' htr
    have hRi : R i := htr.targets _ (.head _) i rfl
    have hk' : s.kind = .branch := isBranch_iff.1 hk
    by_cases hK : K i
    · -- a kept branch: `t'` handles its image, whose successors are the images of its own
      obtain ⟨i', st', hg, hst', hkind, hsucc⟩ := hc.kept i s hRi hK hs
      obtain ⟨hlt', hfalse⟩ := htr.image_unmarked hRi hK hg hi hmark
      have e : (Target.state i :: rest).map (·.relabel g) = .state i' :: rest.map (·.relabel g) := by
        simp [Target.relabel, hg]
      rw [e, scan_branch hlt' hfalse hst' (hkind.trans hk'), hsucc hk', ← List.map_reverse,
        ← List.map_append]
      exact ih _ later' (htr.mark_kept hc hRi hK hg hi hlt' _
        fun y hy => hc.closed i s hRi hs hk' y (List.mem_reverse.1 hy))
    · -- a contracted branch: `t'` stands still while `t` walks on to its successor
      obtain ⟨-, h21, hgi, -⟩ := hc.pass i s hRi hK hs
      have hsucc : s.successors = [s.next1] := by simp [State.successors, h21]
      have e : (Target.state i :: rest).map (·.relabel g) =
          (s.successors.reverse ++ rest).map (·.relabel g) := by
        simp [hsucc, Target.relabel, hgi]
      rw [e]
      have htr' := htr.mark_pass hc hRi hK hs hi
      rw [← List.singleton_append, ← List.reverse_singleton, ← hsucc] at htr'
      exact ih seen' later' htr'
  | case7 seen later b i rest hi hmark seen₁ s hs hk hcons ih
  | case8 seen later b i rest hi hmark seen₁ s hs hk hcons ih =>
    -- a state that reads is kept, and `t'` reads at its image or does not, as `t` does
    intro seen' later' htr
    have hRi : R i := htr.targets _ (.head _) i rfl
    have hk' : s.kind ≠ .branch := fun h => by simp [h, Kind.isBranch] at hk
    have hK : K i := hc.kept_of_reads hRi hs hk'
    obtain ⟨i', st', hg, hst', hkind, -⟩ := hc.kept i s hRi hK hs
    obtain ⟨hlt', hfalse⟩ := htr.image_unmarked hRi hK hg hi hmark
    have e : (Target.state i :: rest).map (·.relabel g) = .state i' :: rest.map (·.relabel g) := by
      simp [Target.relabel, hg]
    rw [e, scan_read hlt' hfalse hst' (hkind ▸ hk'), hkind]
    simp only [hcons, ↓reduceIte]
    exact ih _ _ (htr.mark_kept hc hRi hK hg hi hlt' [] (by simp))
  | case9 seen later b i rest hi ih =>
    intro seen' later' htr
    have := hc.lt_size i (htr.targets _ (.head _) i rfl)
    rw [← htr.size] at this
    exact absurd this hi

theorem fresh (c : Option Char) :
    (scan t c [.state 0] (Marks.none t.size) [] false).accepted =
        (scan t' c [.state 0] (Marks.none t'.size) [] false).accepted ∧
      (scan t c [.state 0] (Marks.none t.size) [] false).consumed =
        (scan t' c [.state 0] (Marks.none t'.size) [] false).consumed := by
  have h := hc.scan_eq (c := c) [.state 0] (Marks.none t.size) [] false (Marks.none t'.size) []
    hc.tracks_none
  simpa [Target.relabel, hc.zero.2] using h

end Contracts

end Table

end TableGrep
