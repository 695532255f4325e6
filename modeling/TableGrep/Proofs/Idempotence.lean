import TableGrep.Proofs.CompactFind
import TableGrep.Proofs.LineGrammar

/-!
# Compaction is idempotent

Compacting a compacted table gives it back unchanged (`compact_idempotent`).

The rounds stop at the first that changes nothing. Such a round did not move state 0, and it
left every unflagged state as its redirect found it (`rounds_converged`): the table is `Stable`.
In a stable table an unflagged state whose two successors name another state does not lead to a
branch (`Compaction.Stable.not_branch`): a redirect would have chased that branch, and the
chase would either loop or move the state.

Renumbering then keeps the states reached from state 0, all unflagged, and relabels them by
their new indices, which keeps the successors of each state apart. So in the kept table no state
but 0 passes control through, every successor pair is `Quiet` and every state is reached from
state 0. A second compaction finds the first round unchanged and keeps every state in place
(`Compaction.compact_of_stable`).
-/

namespace TableGrep

namespace Table

open Compaction

/-- The states reached from state 0 along transitions. -/
inductive Reaches (t : Table) : Nat → Prop
  | start : Reaches t 0
  | step {i k : Nat} : Reaches t i → k ∈ Compaction.nextIndices t i → Reaches t k

theorem WellFormed.successor {u : Table} (hw : u.WellFormed) {st : State}
    (hst : st ∈ u.states.toList) {x : Target} (hx : x ∈ st.successors) :
    x = .accept ∨ ∃ m, x = .state m ∧ m < u.size := by
  obtain ⟨-, hres⟩ := wellFormed_iff.1 hw
  obtain ⟨⟨r1, r2⟩, b1, b2⟩ := hres st hst
  have key : ∀ y : Target, y ≠ .unresolved → y.Below u.size →
      y = .accept ∨ ∃ m, y = .state m ∧ m < u.size := by
    intro y hy hb
    cases y with
    | state m => exact .inr ⟨m, rfl, hb m rfl⟩
    | accept => exact .inl rfl
    | unresolved => exact absurd rfl hy
  rcases State.mem_successors.1 hx with rfl | rfl
  · exact key _ r1 b1
  · exact key _ r2 b2

theorem isPassThrough_relabel {f : Nat → Target} {s : State}
    (hf : s.next1.relabel f = s.next2.relabel f → s.next1 = s.next2) :
    (s.relabel f).isPassThrough = s.isPassThrough := by
  simp only [State.isPassThrough, State.relabel]
  by_cases h : s.next1 = s.next2
  · simp [h]
  · have h' : s.next1.relabel f ≠ s.next2.relabel f := fun e => h (hf e)
    rw [beq_false_of_ne h, beq_false_of_ne h']

theorem chase_loop {t : Table} {id m : Nat} {st : State} (hs : t.get? m = some st)
    (hk : st.kind = .branch) (h1 : st.next1 = .state m) (h2 : st.next2 = .state m)
    (hm : m ≠ id) : ∀ fuel, chase t id fuel (.state m) (.state m) = .error .loop
  | 0 => by
    unfold chase
    simp [hm, hs, hk, Kind.isBranch]
  | fuel + 1 => by
    rw [chase_branch hm hs hk, h1, h2]
    exact chase_loop hs hk h1 h2 hm fuel

theorem skip_unflagged {t : Table} {flagged : Array Bool} {fuel : Nat} {x : Target} {k : Nat}
    (h : skip t flagged fuel x = .ok (.state k)) : flagged[k]? = some false := by
  fun_induction skip t flagged fuel x with
  | case1 => cases h
  | case2 => cases h; assumption
  | case3 => cases h
  | case4 => cases h
  | case5 _ _ _ _ _ ih => exact ih h
  | case6 => cases h; simp_all

theorem skip_not_state {t : Table} {flagged : Array Bool} {fuel : Nat} (x : Target)
    (hx : ∀ m, x ≠ .state m) : skip t flagged fuel x = .ok x := by
  cases x with
  | state m => exact absurd rfl (hx m)
  | accept => unfold skip; rfl
  | unresolved => unfold skip; rfl

end Table

namespace Compaction

open Table

/-! ## Rounds that change nothing -/

/-- A table that every redirect leaves alone: each unflagged state keeps its successors. -/
def Stable (u : Table) : Prop :=
  ∀ id st, (flags u)[id]? = some false → u.get? id = some st →
    redirect u (flags u) id st = .ok (st.next1, st.next2)

theorem redirectAll_changed {flagged : Array Bool} :
    ∀ {ids : List Nat} {u u' : Table} {c : Bool},
      redirectAll flagged ids (u, true) = .ok (u', c) → c = true
  | [], _, _, _, h => by cases h; rfl
  | id :: ids, u, u', c, h => by
    rcases redirectAll_cons_ok h with ⟨-, h⟩ | ⟨s, a, b, -, -, -, ⟨-, -, h⟩ | ⟨-, h⟩⟩
    · exact redirectAll_changed h
    · exact redirectAll_changed h
    · exact redirectAll_changed h

theorem redirectAll_unchanged {flagged : Array Bool} :
    ∀ {ids : List Nat} {u u' : Table}, redirectAll flagged ids (u, false) = .ok (u', false) →
      u' = u ∧ ∀ id ∈ ids, ∀ st, flagged[id]? = some false → u.get? id = some st →
        redirect u flagged id st = .ok (st.next1, st.next2)
  | [], _, _, h => by cases h; exact ⟨rfl, by simp⟩
  | id :: ids, u, u', h => by
    rcases redirectAll_cons_ok h with ⟨hno, h⟩ | ⟨s, a, b, -, hs, hr, ⟨h1, h2, h⟩ | ⟨-, h⟩⟩
    · obtain ⟨rfl, hrest⟩ := redirectAll_unchanged h
      refine ⟨rfl, fun j hj st hfj hsj => ?_⟩
      rcases List.mem_cons.1 hj with rfl | hj
      · exact absurd hsj (hno st hfj)
      · exact hrest j hj st hfj hsj
    · obtain ⟨rfl, hrest⟩ := redirectAll_unchanged h
      refine ⟨rfl, fun j hj st hfj hsj => ?_⟩
      rcases List.mem_cons.1 hj with rfl | hj
      · rw [hs, Option.some.injEq] at hsj
        subst hsj
        rw [hr, h1, h2]
      · exact hrest j hj st hfj hsj
    · exact absurd (redirectAll_changed h) Bool.false_ne_true

theorem recenter_unmoved {u u' : Table} :
    recenter u = .ok (u', false) ↔
      u' = u ∧ ∀ e s, u.get? 0 = some e → e.isPassThrough = true → e.next1 = .state s → s = 0 := by
  unfold recenter
  split
  · rename_i e he
    split
    · rename_i s hp hs
      split
      · rename_i hs0
        simp only [Except.ok.injEq, Prod.mk.injEq, and_true]
        refine ⟨fun h => ⟨h.symm, fun _ _ _ _ _ => ?_⟩, fun h => h.1.symm⟩
        simp_all
      · split
        · simp only [Except.ok.injEq, Prod.mk.injEq, Bool.true_eq_false, and_false, false_iff,
            not_and, not_forall]
          exact fun _ => ⟨e, s, he, hp, hs, ‹_›⟩
        · simp only [reduceCtorEq, false_iff, not_and, not_forall]
          exact fun _ => ⟨e, s, he, hp, hs, ‹_›⟩
    · rename_i hno
      simp only [Except.ok.injEq, Prod.mk.injEq, and_true]
      refine ⟨fun h => ⟨h.symm, fun e' s he' hp hs => ?_⟩, fun h => h.1.symm⟩
      rw [he, Option.some.injEq] at he'
      subst he'
      exact absurd (hno s hp hs) id
  · rename_i hnone
    simp only [Except.ok.injEq, Prod.mk.injEq, and_true]
    refine ⟨fun h => ⟨h.symm, fun e _ he => ?_⟩, fun h => h.1.symm⟩
    rw [hnone] at he
    cases he

theorem round_unchanged {u u' : Table} {flagged : Array Bool}
    (h : round u = .ok (u', flagged, false)) :
    u' = u ∧ flagged = flags u ∧ recenter u = .ok (u, false) ∧ Stable u := by
  obtain ⟨t₁, moved, hr, rfl, ha⟩ := round_cases h
  cases moved with
  | true => exact absurd (redirectAll_changed ha) Bool.false_ne_true
  | false =>
    obtain ⟨rfl, -⟩ := recenter_unmoved.1 hr
    obtain ⟨rfl, hred⟩ := redirectAll_unchanged ha
    exact ⟨rfl, rfl, hr, fun id st hf hs =>
      hred id (List.mem_range.2 (Table.unflagged_lt hf)) st hf hs⟩

/-- Rounds that succeed stop at a table that recentring and every redirect leave alone. -/
theorem rounds_converged : ∀ {fuel : Nat} {t u : Table} {flagged : Array Bool},
    rounds fuel t = .ok (u, flagged) →
      flagged = flags u ∧ recenter u = .ok (u, false) ∧ Stable u
  | 0, _, _, _, h => by cases h
  | fuel + 1, t, u, flagged, h => by
    unfold rounds at h
    obtain ⟨⟨t₁, flagged₁, changed⟩, hr, h⟩ := bind_eq_ok h
    cases changed with
    | true => exact rounds_converged h
    | false =>
      cases h
      obtain ⟨rfl, hf, hrec, hs⟩ := round_unchanged hr
      exact ⟨hf, hrec, hs⟩

/-- A round changes nothing exactly when recentring and every redirect leave the table alone. -/
theorem round_eq_unchanged_iff {u : Table} :
    round u = .ok (u, flags u, false) ↔ recenter u = .ok (u, false) ∧ Stable u := by
  refine ⟨fun h => ?_, fun ⟨hr, hs⟩ => ?_⟩
  · obtain ⟨-, -, hr, hs⟩ := round_unchanged h
    exact ⟨hr, hs⟩
  · unfold round
    simp only [hr, bind, Except.bind, redirectAll_keeps hs, pure, Except.pure]

/-- Once the rounds converge, agreeing successors of an unflagged state never lead to a branch. -/
theorem Stable.not_branch {u : Table} (hs : Stable u) (hr : recenter u = .ok (u, false))
    {i k : Nat} {st sk : State} (hf : (flags u)[i]? = some false) (hst : u.get? i = some st)
    (h1 : st.next1 = .state k) (h2 : st.next2 = .state k) (hki : k ≠ i)
    (hsk : u.get? k = some sk) : sk.kind ≠ .branch := by
  intro hb
  obtain ⟨n, hn⟩ : ∃ n, u.size = n + 1 := ⟨u.size - 1, by have := lt_size_of_get? hst; omega⟩
  obtain ⟨n1, n2, hc, ha, hb'⟩ := redirect_cases (hs i st hf hst)
  rw [h1] at ha
  rw [h2] at hb'
  rw [h1, h2, hn, chase_branch hki hsk hb] at hc
  have hk : (flags u)[k]? = some false := skip_unflagged ha
  by_cases he : sk.next1 = sk.next2
  · -- `k` passes control on, so it is state 0, which recentring left pointing at itself or at
    -- no state
    have hp : sk.isPassThrough = true := by simp [State.isPassThrough, hb, Kind.isBranch, he]
    have hk0 : k = 0 := by
      rw [flags_of_get? hsk, hp] at hk
      simpa using hk
    subst hk0
    rw [← he] at hc
    cases hx : sk.next1 with
    | state s =>
      obtain rfl := (recenter_unmoved.1 hr).2 sk s hsk hp hx
      rw [hx, chase_loop hsk hb hx (he.symm.trans hx) hki n] at hc
      cases hc
    | accept | unresolved =>
      -- a target that is no state is left where it is, so it cannot skip to state 0
      have hns : ∀ m, sk.next1 ≠ .state m := by simp [hx]
      rw [chase_not_state _ hns] at hc
      obtain ⟨rfl, -⟩ : sk.next1 = n1 ∧ sk.next1 = n2 := by simpa using hc
      rw [skip_not_state _ hns] at ha
      exact hns 0 (Except.ok.inj ha)
  · -- `k` keeps its own successors, which both skip to `k`, so they agree
    rw [chase_ne he] at hc
    obtain ⟨rfl, rfl⟩ : sk.next1 = n1 ∧ sk.next2 = n2 := by simpa using hc
    obtain ⟨m1, m2, hc', ha', hb''⟩ := redirect_cases (hs k sk hk hsk)
    rw [chase_ne he] at hc'
    obtain ⟨rfl, rfl⟩ : sk.next1 = m1 ∧ sk.next2 = m2 := by simpa using hc'
    rw [ha, Except.ok.injEq] at ha'
    rw [hb', Except.ok.injEq] at hb''
    exact he (ha'.symm.trans hb'')

/-! ## What marking finds -/

/-- A marking that marks and stacks only unflagged states reached from state 0. -/
structure Sound (u : Table) (m : Marking) : Prop where
  marks : ∀ i : Nat, m.1[i]? = some true → (flags u)[i]? = some false ∧ u.Reaches i
  stack : ∀ i ∈ m.2, (flags u)[i]? = some false ∧ u.Reaches i

theorem reach_sound {u : Table} {id next : Nat} {m m' : Marking}
    (h : reach u (flags u) id m next = .ok m') (hn : u.Reaches next) (hm : Sound u m) :
    Sound u m' := by
  unfold reach at h
  split at h
  · cases h
  · cases h
  · rename_i hf
    split at h
    · rename_i hlt
      split at h
      · cases h
        exact hm
      · cases h
        refine ⟨fun i hi => ?_, fun i hi => ?_⟩
        · rw [Find.set_getElem? hlt] at hi
          split at hi
          · rename_i e
            rw [← e]
            exact ⟨hf, hn⟩
          · exact hm.marks i hi
        · rcases List.mem_cons.1 hi with rfl | hi
          · exact ⟨hf, hn⟩
          · exact hm.stack i hi
    · cases h

theorem reachAll_sound {u : Table} {id : Nat} :
    ∀ {nexts : List Nat} {m m' : Marking}, reachAll u (flags u) id nexts m = .ok m' →
      (∀ k ∈ nexts, u.Reaches k) → Sound u m → Sound u m'
  | [], _, _, h, _, hm => by cases h; exact hm
  | next :: rest, m, m', h, hn, hm => by
    unfold reachAll at h
    split at h
    · cases h
    · rename_i m₁ hr
      exact reachAll_sound h (fun k hk => hn k (.tail _ hk))
        (reach_sound hr (hn next (.head _)) hm)

theorem markFrom_sound {u : Table} {seen seen' : Marks} {stack : List Nat}
    (h : markFrom u (flags u) seen stack = .ok seen') (hm : Sound u (seen, stack)) :
    Sound u (seen', []) := by
  fun_induction markFrom u (flags u) seen stack with
  | case1 => cases h; exact hm
  | case2 => cases h
  | case3 seen id stack seen₁ stack₁ he ih =>
    -- the state visited is on the stack, so it is reached, and so are the states it leads to
    have hid := (hm.stack id (.head _)).2
    exact ih h (reachAll_sound he (fun k hk => .step hid hk)
      ⟨hm.marks, fun i hi => hm.stack i (.tail _ hi)⟩)

theorem reachable_sound {u : Table} {seen : Marks} (h : reachable u (flags u) = .ok seen)
    (h0 : 0 < u.size) {i : Nat} (hi : seen[i]? = some true) :
    (flags u)[i]? = some false ∧ u.Reaches i := by
  obtain ⟨s0, hs0⟩ := exists_get? h0
  have hf0 : (flags u)[0]? = some false := by rw [flags_of_get? hs0]; rfl
  refine (markFrom_sound h ⟨fun j hj => ?_, fun j hj => ?_⟩).marks i hi
  · simp only [Marks.none, Array.set!_eq_setIfInBounds, Array.getElem?_setIfInBounds,
      Array.size_replicate] at hj
    split at hj
    · subst_vars
      exact ⟨hf0, .start⟩
    · simp [Array.getElem?_replicate] at hj
  · rw [List.mem_singleton.1 hj]
    exact ⟨hf0, .start⟩

/-- A finished marking marks every state reached from state 0. -/
theorem Marked.reaches {t : Table} {seen : Marks} (hm : Marked t (seen, [])) {i : Nat}
    (h : t.Reaches i) : seen[i]? = some true := by
  induction h with
  | start => exact hm.zero
  | step _ hk ih => exact hm.closed _ ih List.not_mem_nil _ hk

/-! ## Keeping the marked states -/

theorem renumbered_of_marked {seen : Marks} {i : Nat} (hi : seen[i]? = some true) :
    renumbered seen i = .state ((seen.toList.take i).count true) := by
  simp [renumbered, newIndex, hi]

theorem relabel_renumbered_eq_state {seen : Marks} {x : Target} {m : Nat}
    (e : x.relabel (renumbered seen) = .state m) :
    ∃ k, x = .state k ∧ seen[k]? = some true ∧ (seen.toList.take k).count true = m := by
  cases x with
  | state k =>
    simp only [Target.relabel, renumbered, newIndex] at e
    split at e
    · rename_i hk
      simp only [Option.map_some, Option.getD_some, Target.state.injEq] at e
      exact ⟨k, rfl, hk, e⟩
    · cases e
  | accept => cases e
  | unresolved => cases e

theorem exists_of_lt_length_filterMap {α : Type} : ∀ (l : List (α × Bool)) (j : Nat),
    j < (l.filterMap fun p => if p.2 then some p.1 else none).length →
      ∃ i, i < l.length ∧ (l.map Prod.snd)[i]? = some true ∧
        ((l.map Prod.snd).take i).count true = j
  | [], _, h => absurd h (by simp)
  | p :: l, j, h => by
    cases hb : p.2 with
    | false =>
      simp only [List.filterMap_cons, hb, Bool.false_eq_true, ↓reduceIte] at h
      obtain ⟨i, hi, h1, h2⟩ := exists_of_lt_length_filterMap l j h
      exact ⟨i + 1, by simpa using hi, by simpa using h1, by simpa [hb] using h2⟩
    | true =>
      cases j with
      | zero => exact ⟨0, by simp, by simp [hb], by simp⟩
      | succ j =>
        simp only [List.filterMap_cons, hb, ↓reduceIte, List.length_cons,
          Nat.add_lt_add_iff_right] at h
        obtain ⟨i, hi, h1, h2⟩ := exists_of_lt_length_filterMap l j h
        exact ⟨i + 1, by simpa using hi, by simpa using h1, by simp [hb, h2]⟩

theorem keep_get?_eq_some {t : Table} {seen : Marks} (hsize : seen.size = t.size) {j : Nat}
    {st' : State} (h : (keep t seen).get? j = some st') :
    ∃ i st, seen[i]? = some true ∧ (seen.toList.take i).count true = j ∧ t.get? i = some st ∧
      st' = st.relabel (renumbered seen) := by
  have hj : j < ((t.states.toList.zip seen.toList).filterMap
      fun p => if p.2 then some p.1 else none).length := by
    have := lt_size_of_get? h
    simpa [keep, Table.size] using this
  obtain ⟨i, hi, h1, h2⟩ := exists_of_lt_length_filterMap _ j hj
  rw [zip_marks_snd hsize] at h1 h2
  have hi' : seen[i]? = some true := by simpa using h1
  obtain ⟨st, hst⟩ := exists_get? (show i < t.size from hsize ▸ (Array.getElem?_eq_some_iff.1 hi').1)
  have hk := keep_get? hsize hi'
  rw [h2, h, hst, Option.map_some, Option.some.injEq] at hk
  exact ⟨i, st, hi', h2, hst, hk⟩

theorem Marked.keep_get? {t : Table} {seen : Marks} (hm : Marked t (seen, [])) {i : Nat}
    (hi : seen[i]? = some true) :
    (keep t seen).get? ((seen.toList.take i).count true) =
      (t.get? i).map (·.relabel (renumbered seen)) :=
  Compaction.keep_get? hm.size hi

theorem Marked.relabel_next_inj {t : Table} {seen : Marks} (hm : Marked t (seen, [])) {i : Nat}
    {st : State} (hi : seen[i]? = some true) (hst : t.get? i = some st)
    (e : st.next1.relabel (renumbered seen) = st.next2.relabel (renumbered seen)) :
    st.next1 = st.next2 :=
  relabel_renumbered_inj (hm.successor hi hst (State.next1_mem_successors st))
    (hm.successor hi hst (State.next2_mem_successors st)) e

/-- Keeping every state of a table whose transitions stay in it gives the table back. -/
theorem keep_all {u : Table} {seen : Marks} (hsize : seen.size = u.size)
    (hall : ∀ j < u.size, seen[j]? = some true)
    (hsucc : ∀ st ∈ u.states.toList, ∀ x ∈ st.successors,
      x = .accept ∨ ∃ m, x = .state m ∧ m < u.size) :
    keep u seen = u := by
  have hl : seen.toList = List.replicate u.states.toList.length true := by
    refine List.ext_getElem? fun j => ?_
    by_cases hj : j < u.size
    · have := hall j hj
      simp only [Array.getElem?_toList] at this ⊢
      simp [this, show j < u.states.size from hj]
    · have hj' : seen.size ≤ j := by omega
      simp [Array.getElem?_eq_none hj', show ¬ j < u.states.size from hj]
  have hmove : ∀ j < u.size, renumbered seen j = .state j := by
    intro j hj
    rw [renumbered_of_marked (hall j hj), hl, List.take_replicate, List.count_replicate_self]
    simp [Table.size] at hj
    simp [Nat.min_eq_left (Nat.le_of_lt hj)]
  have hstates : ∀ st ∈ u.states.toList, st.relabel (renumbered seen) = st := by
    intro st hst
    have hx : ∀ x ∈ st.successors, x.relabel (renumbered seen) = x := by
      intro x hx
      rcases hsucc st hst x hx with rfl | ⟨m, rfl, hm⟩
      · rfl
      · exact hmove m hm
    have h1 := hx _ (State.next1_mem_successors st)
    have h2 := hx _ (State.next2_mem_successors st)
    simp only [State.relabel, h1, h2]
  simp only [keep]
  rw [hl, filterMap_marked_replicate]
  show (⟨(u.states.toList.map (·.relabel (renumbered seen))).toArray⟩ : Table) = u
  rw [List.map_congr_left hstates, List.map_id']

/-! ## A compacted table is its own compaction -/

/-- A well-formed table is its own compaction when every state is reached, none but 0 passes
control through, and recentring and every redirect leave it alone. -/
theorem compact_of_stable {u : Table} (hw : u.WellFormed)
    (hpass : ∀ j st, j ≠ 0 → u.get? j = some st → st.isPassThrough = false)
    (hreach : ∀ j < u.size, u.Reaches j) (hrec : recenter u = .ok (u, false)) (hs : Stable u) :
    u.compact = .ok u := by
  have h0 : 0 < u.size := (wellFormed_iff.1 hw).1
  have hunf : ∀ j < u.size, (flags u)[j]? = some false := by
    intro j hj
    obtain ⟨st, hst⟩ := exists_get? hj
    rw [flags_of_get? hst]
    by_cases h : j = 0
    · simp [h]
    · simp [hpass j st h hst]
  -- every state is unflagged and every transition stays in the table, so marking marks them all
  have hc : u.ClosedUnflagged := by
    intro i k _ hk
    obtain ⟨st, hst, hx⟩ := mem_nextIndices.1 hk
    rcases hw.successor (mem_toList_of_get? hst) hx with e | ⟨m, e, hm⟩
    · cases e
    · cases e
      exact hunf k hm
  obtain ⟨seen, hseen, -⟩ := reachable_ok hc h0
  have hm := reachable_marked hseen h0
  have hkeep : keep u seen = u :=
    keep_all hm.size (fun j hj => hm.reaches (hreach j hj)) fun _ hst _ hx => hw.successor hst hx
  unfold Table.compact
  rw [if_neg (by omega)]
  simp only [rounds, round_eq_unchanged_iff.2 ⟨hrec, hs⟩, bind, Except.bind, Bool.false_eq_true,
    ↓reduceIte, pure, Except.pure]
  unfold renumber
  simp only [hseen, hkeep, bind, Except.bind]
  rw [show u.defect? = none from hw]
  rfl

section Converged

/-! The rounds stop at a table `u` that recentring does not move and every redirect leaves alone;
renumbering then keeps the states `seen` marks. -/

variable {u : Table} {seen : Marks} (hseen : reachable u (flags u) = .ok seen) (h0 : 0 < u.size)
include hseen h0

theorem keep_passThrough {j : Nat} {st' : State} (h : (keep u seen).get? j = some st')
    (hj : j ≠ 0) : st'.isPassThrough = false := by
  have hm := reachable_marked hseen h0
  obtain ⟨i, st, hi, rfl, hst, rfl⟩ := keep_get?_eq_some hm.size h
  have hi0 : i ≠ 0 := by
    rintro rfl
    simp at hj
  rw [isPassThrough_relabel (hm.relabel_next_inj hi hst)]
  have hf := (reachable_sound hseen h0 hi).1
  rw [flags_of_get? hst] at hf
  simpa [hi0] using hf

theorem keep_unflagged {m : Nat} (hm : m < (keep u seen).size) :
    (flags (keep u seen))[m]? = some false := by
  obtain ⟨st', hst'⟩ := exists_get? hm
  rw [flags_of_get? hst']
  by_cases h : m = 0
  · simp [h]
  · simp [keep_passThrough hseen h0 hst' h]

theorem keep_reaches {j : Nat} (hj : j < (keep u seen).size) : (keep u seen).Reaches j := by
  have hm := reachable_marked hseen h0
  -- a state reached in `u` is marked, and its new index is reached in the kept table
  have key : ∀ i, u.Reaches i → (keep u seen).Reaches ((seen.toList.take i).count true) := by
    intro i hri
    induction hri with
    | start =>
      simp only [List.take_zero, List.count_nil]
      exact .start
    | @step i k hri hk ih =>
      have hi := hm.reaches hri
      obtain ⟨s, hs, hx⟩ := mem_nextIndices.1 hk
      have hk' := hm.successor hi hs hx k rfl
      refine .step ih (mem_nextIndices.2 ⟨s.relabel (renumbered seen), ?_, ?_⟩)
      · rw [hm.keep_get? hi, hs]
        rfl
      · rw [← renumbered_of_marked hk']
        exact State.mem_successors_relabel.2 ⟨_, hx, rfl⟩
  obtain ⟨st', hst'⟩ := exists_get? hj
  obtain ⟨i, st, hi, rfl, -, -⟩ := keep_get?_eq_some hm.size hst'
  exact key i (reachable_sound hseen h0 hi).2

variable (hr : recenter u = .ok (u, false))
include hr

theorem keep_recenter : recenter (keep u seen) = .ok (keep u seen, false) := by
  have hm := reachable_marked hseen h0
  refine recenter_unmoved.2 ⟨rfl, fun e s he hp hs => ?_⟩
  obtain ⟨st0, hst0⟩ := exists_get? h0
  have hk0 := hm.keep_get? hm.zero
  rw [hst0, show (seen.toList.take 0).count true = 0 by simp, he, Option.map_some,
    Option.some.injEq] at hk0
  subst hk0
  rw [isPassThrough_relabel (hm.relabel_next_inj hm.zero hst0)] at hp
  obtain ⟨k, hk1, -, rfl⟩ := relabel_renumbered_eq_state hs
  obtain rfl := (recenter_unmoved.1 hr).2 st0 k hst0 hp hk1
  simp

theorem keep_quiet (hs : Stable u) (hd : (keep u seen).defect? = none) {j : Nat} {st' : State}
    (h : (keep u seen).get? j = some st') : (keep u seen).Quiet j st' := by
  have hm := reachable_marked hseen h0
  have hterm : ∀ x ∈ st'.successors, (keep u seen).Terminal x := by
    intro x hx
    rcases WellFormed.successor hd (mem_toList_of_get? h) hx with rfl | ⟨m, rfl, hm'⟩
    · exact .inl rfl
    · exact .inr ⟨m, rfl, keep_unflagged hseen h0 hm'⟩
  refine ⟨hterm _ (State.next1_mem_successors _), hterm _ (State.next2_mem_successors _),
    fun m' e1 e2 => ?_⟩
  obtain ⟨i, st, hi, rfl, hst, rfl⟩ := keep_get?_eq_some hm.size h
  obtain ⟨k, hk1, hk, rfl⟩ := relabel_renumbered_eq_state e1
  have hk2 : st.next2 = .state k := (hm.relabel_next_inj hi hst (e1.trans e2.symm)).symm.trans hk1
  by_cases hki : k = i
  · exact .inl (by rw [hki])
  · -- the successors name another state, which does not branch since a redirect would chase it
    obtain ⟨sk, hsk⟩ := exists_get? (hm.size ▸ (Array.getElem?_eq_some_iff.1 hk).1)
    have hb := hs.not_branch hr (reachable_sound hseen h0 hi).1 hst hk1 hk2 hki hsk
    exact .inr ⟨sk.relabel (renumbered seen), by rw [hm.keep_get? hk, hsk]; rfl, hb⟩

end Converged

end Compaction

open Compaction in
/-- Compaction is idempotent: compacting a compacted table gives it back unchanged. -/
theorem compact_idempotent {t t' : Table} (h : t.compact = .ok t') : t'.compact = .ok t' := by
  obtain ⟨h0, u, flagged, hr, hn⟩ := compact_cases h
  obtain ⟨rfl, hrec, hs⟩ := rounds_converged hr
  obtain ⟨seen, hseen, rfl, hd⟩ := renumber_cases hn
  have hu0 : 0 < u.size := (rounds_accepts hr).1 ▸ h0
  exact compact_of_stable hd (fun _ _ hj hst => keep_passThrough hseen hu0 hst hj)
    (fun _ hj => keep_reaches hseen hu0 hj) (keep_recenter hseen hu0 hrec)
    fun _ _ _ hst => Table.redirect_quiet (keep_quiet hseen hu0 hrec hs hd hst)

/-- The table of "a|b" built without compaction is compacted in two rounds to its own compaction. -/
theorem compact_idempotent_choice :
    Table.compact ⟨#[⟨.branch, .state 2, .state 2⟩, ⟨.literal 'a', .state 4, .state 4⟩,
        ⟨.branch, .state 1, .state 3⟩, ⟨.literal 'b', .state 4, .state 4⟩,
        ⟨.branch, .state 5, .state 5⟩, ⟨.branch, .accept, .accept⟩]⟩ =
      .ok ⟨#[⟨.branch, .state 1, .state 2⟩, ⟨.literal 'a', .accept, .accept⟩,
        ⟨.literal 'b', .accept, .accept⟩]⟩ ∧
    Table.compact ⟨#[⟨.branch, .state 1, .state 2⟩, ⟨.literal 'a', .accept, .accept⟩,
        ⟨.literal 'b', .accept, .accept⟩]⟩ =
      .ok ⟨#[⟨.branch, .state 1, .state 2⟩, ⟨.literal 'a', .accept, .accept⟩,
        ⟨.literal 'b', .accept, .accept⟩]⟩ := by
  refine ⟨?h, compact_idempotent ?h⟩
  cbv

end TableGrep
