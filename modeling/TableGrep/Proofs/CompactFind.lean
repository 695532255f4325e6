import TableGrep.Proofs.Compile
import TableGrep.Proofs.Contraction

/-!
# Compaction keeps the matches

Compaction keeps what state 0 accepts, so a compacted table finds matches that stop where the
matches of the table stop (`compact_find`, first part). On the table of a pattern it keeps more:
each of its three steps contracts pass-through states and relabels the others in the sense of
`Table.Contracts`, so the scans from state 0 alone read alike, and the matches found agree on
whether a character was read as well.

* Recentring contracts the entry, which passes control to the state that becomes state 0.
* The first round contracts the flagged states: a state is sent where skipping sends it, and the
  redirected branches lead where their old successors are sent.
* Renumbering keeps the reachable states and relabels them by their new indices.
-/

namespace TableGrep

namespace State

theorem successors_relabel {f : Nat → Target} {s : State}
    (hf : ∀ x ∈ s.successors, ∀ y ∈ s.successors, x.relabel f = y.relabel f → x = y) :
    (s.relabel f).successors = s.successors.map (·.relabel f) := by
  obtain ⟨k, n1, n2⟩ := s
  by_cases h : n1 = n2
  · subst h
    simp [relabel, successors]
  · have h' : n1.relabel f ≠ n2.relabel f := fun e =>
      h (hf n1 (by simp [successors, h]) n2 (by simp [successors, h]) e)
    simp [relabel, successors, h, h']

end State

namespace Table

open Find Compaction

/-! ## Recentring -/

theorem Shaped.successor_ne_zero {t : Table} (h : t.Shaped) {i : Nat} {st : State}
    (hst : t.get? i = some st) {x : Target} (hx : x ∈ st.successors) : x ≠ .state 0 := by
  obtain ⟨st', hst', hc⟩ := h.get_cases (lt_size_of_get? hst)
  rw [hst, Option.some.injEq] at hst'
  subst hst'
  rcases hc with ⟨-, s, hs, -, rfl⟩ | ⟨hpos, -, hin⟩ | ⟨-, rfl⟩
  · rw [State.mem_successors] at hx
    rcases hx with rfl | rfl <;> simp <;> omega
  · rw [State.mem_successors] at hx
    cases hin with
    | read _ hij _ => rcases hx with rfl | rfl <;> simp <;> omega
    | pass hij _ => rcases hx with rfl | rfl <;> simp <;> omega
    | choose ha _ hij _ _ => rcases hx with rfl | rfl <;> simp <;> omega
  · rw [State.mem_successors] at hx
    rcases hx with rfl | rfl <;> simp

theorem relabel_trade_inj {s : Nat} :
    ∀ {x y : Target}, x.relabel (trade s) = y.relabel (trade s) → x = y
  | .state a, .state b, e => by
    rw [relabel_trade_state, relabel_trade_state, Target.state.injEq] at e
    rw [swapIndex_inj e]
  | .state _, .accept, e | .state _, .unresolved, e => by rw [relabel_trade_state] at e; cases e
  | .accept, .state _, e | .unresolved, .state _, e => by rw [relabel_trade_state] at e; cases e
  | .accept, .accept, _ | .unresolved, .unresolved, _ => rfl
  | .accept, .unresolved, e | .unresolved, .accept, e => by cases e

/-- Recentring a shaped table contracts its entry and trades the indices 0 and `s`. -/
theorem Shaped.contracts_recenter {t t₀ : Table} (h : t.Shaped) {s : Nat} (hs : 0 < s)
    (he : t.get? 0 = some ⟨.branch, .state s, .state s⟩)
    (hget : ∀ j, t₀.get? j = (t.get? (swapIndex s j)).map (·.relabel (trade s))) :
    Contracts t t₀ (· < t.size) (· ≠ 0) (fun i => if i = 0 then .state 0 else .state (swapIndex s i))
      (fun i => if i = 0 then 0 else 1) where
  zero := ⟨lt_size_of_get? he, rfl⟩
  lt_size _ hi := hi
  closed i st _ hst _ x hx := by
    rintro j rfl
    rcases h.successor hst hx with e | ⟨j', e, hj'⟩
    · cases e
    · cases e
      exact hj'
  kept i st _ hK hst := by
    refine ⟨swapIndex s i, st.relabel (trade s), if_neg hK, ?_, rfl, fun _ => ?_⟩
    · rw [hget, swapIndex_swapIndex, hst, Option.map_some]
    · -- the trade keeps targets apart, and agrees with the map on every target but state 0
      rw [State.successors_relabel fun x _ y _ e => ?_]
      · refine List.map_congr_left fun x hx => ?_
        cases x with
        | state m =>
          have hm : m ≠ 0 := fun e => h.successor_ne_zero hst hx (by rw [e])
          simp [Target.relabel, trade_eq, hm]
        | accept => rfl
        | unresolved => rfl
      · exact relabel_trade_inj e
  pass i st _ hK hst := by
    obtain rfl : i = 0 := Classical.not_not.1 hK
    rw [he, Option.some.injEq] at hst
    subst hst
    refine ⟨rfl, rfl, ?_, ?_⟩
    · simp [Target.relabel, Nat.pos_iff_ne_zero.1 hs]
    · rintro j ⟨⟩
      simp [Nat.pos_iff_ne_zero.1 hs]
  inj i j _ _ hi hj e := by
    simp only [if_neg hi, if_neg hj, Target.state.injEq] at e
    exact swapIndex_inj e

/-! ## The first round -/

/-- Where skipping sends the state `i` at the start of a round. -/
def skipped (t : Table) (i : Nat) : Target :=
  match skip t (flags t) t.size (.state i) with
  | .ok e => e
  | .error _ => .unresolved

theorem relabel_skipped {t : Table} {x e : Target} (h : skip t (flags t) t.size x = .ok e) :
    x.relabel (skipped t) = e := by
  cases x with
  | state m => simp [Target.relabel, skipped, h]
  | accept =>
    unfold skip at h
    cases h
    rfl
  | unresolved =>
    unfold skip at h
    cases h
    rfl

theorem skip_succ {t : Table} {flagged : Array Bool} :
    ∀ {fuel : Nat} {x e : Target}, skip t flagged fuel x = .ok e →
      skip t flagged (fuel + 1) x = .ok e
  | fuel, .state i, e, h => by
    unfold skip at h ⊢
    cases hf : flagged[i]? with
    | none => rw [hf] at h; cases h
    | some b =>
      rw [hf] at h
      cases b with
      | false => exact h
      | true =>
        cases fuel with
        | zero => cases h
        | succ fuel =>
          cases hs : t.get? i with
          | none => rw [hs] at h; cases h
          | some s =>
            rw [hs] at h
            exact skip_succ h
  | _, .accept, _, h => by unfold skip at h ⊢; exact h
  | _, .unresolved, _, h => by unfold skip at h ⊢; exact h

theorem Forward.kept {t : Table} {rank : Nat → Nat} {r : Nat} {x : Target}
    (h : t.Forward rank r x) : Kept (· < t.size) x := by
  rintro j rfl
  obtain ⟨m, e, hm, -⟩ := h.resolve_left (by simp)
  cases e
  exact hm

/-- The first round over a ranked table contracts each flagged state to where skipping sends it. -/
theorem Midway.contracts {t u : Table} {rank : Nat → Nat} (hr : t.Ranked rank)
    (hm : t.Midway rank t.size u) (h0 : 0 < t.size) :
    Contracts t u (· < t.size) (fun i => (flags t)[i]? = some false) (skipped t) rank where
  zero := by
    obtain ⟨st, hst⟩ := exists_get? h0
    have hf0 : (flags t)[0]? = some false := by rw [flags_of_get? hst]; rfl
    exact ⟨h0, by simp [skipped, skip_terminal (.inr ⟨0, rfl, hf0⟩)]⟩
  lt_size _ hi := hi
  closed i st hi hst hk x hx := by
    obtain ⟨st', hst', hstep⟩ := hr.step i hi
    rw [hst, Option.some.injEq] at hst'
    subst hst'
    rw [State.mem_successors] at hx
    cases hstep with
    | pass _ hy => rcases hx with rfl | rfl <;> exact hy.kept
    | read hk' _ => exact absurd hk hk'
    | choose ha _ _ hy =>
      rcases hx with rfl | rfl
      · rintro j ⟨⟩
        exact ha
      · exact hy.kept
  kept i st hi hK hst := by
    obtain ⟨st', hu, hred⟩ := hm.redirected i st hi hst hK
    refine ⟨i, st', by simp [skipped, skip_terminal (.inr ⟨i, rfl, hK⟩)], hu, hred.kind,
      fun hk => ?_⟩
    -- a redirected branch keeps its first successor and skips its second
    obtain ⟨a, ha, ha', hra, hf, hskip⟩ := hred.branch hk
    obtain ⟨a₀, ha₀, -, hfa, -, hx⟩ := hr.choose_of_branch hst hk hK
    rw [ha, Target.state.injEq] at ha₀
    subst ha₀
    have hne : st.next1 ≠ st.next2 := by
      rw [ha]
      exact (hx.ne_state (Nat.le_of_lt hra)).symm
    have hne' : st'.next1 ≠ st'.next2 := by
      rw [ha']
      exact (hf.ne_state (Nat.le_of_lt hra)).symm
    have ea : (Target.state a).relabel (skipped t) = .state a :=
      relabel_skipped (skip_terminal (.inr ⟨a, rfl, hfa⟩) _)
    rw [State.successors, State.successors, if_neg hne, if_neg hne']
    simp only [List.map_cons, List.map_nil, ha, ha', ea, relabel_skipped hskip]
  pass i st hi hK hst := by
    obtain ⟨st', hst', hstep⟩ := hr.step i hi
    rw [hst, Option.some.injEq] at hst'
    subst hst'
    rcases hstep.flag hst with ⟨hf, y, rfl, hy⟩ | ⟨hf, -⟩
    · -- a flagged state is sent where its successor is sent, one step of fuel earlier
      obtain ⟨n, hn⟩ : ∃ n, t.size = n + 1 := ⟨t.size - 1, by omega⟩
      obtain ⟨e, he, -, -⟩ := hr.skip_ok n y (rank i) hy (by omega)
      have hstate : skip t (flags t) t.size (.state i) = .ok e := by
        rw [hn]
        unfold skip
        rw [hf, hst]
        exact he
      refine ⟨rfl, rfl, ?_, fun j hj => ?_⟩
      · rw [relabel_skipped (hn ▸ skip_succ he)]
        simp [skipped, hstate]
      · have hj' : y = .state j := hj
        obtain ⟨m, e', -, hrm⟩ := hy.resolve_left (by rintro rfl; cases hj')
        rw [hj', Target.state.injEq] at e'
        subst e'
        exact hrm
    · exact absurd hf hK
  inj i j _ _ hi hj e := by
    simp only [skipped, skip_terminal (.inr ⟨i, rfl, hi⟩), skip_terminal (.inr ⟨j, rfl, hj⟩),
      Target.state.injEq] at e
    exact e

/-! ## Renumbering -/

theorem count_take_lt {l : List Bool} {i j : Nat} (hij : i < j) (hi : l[i]? = some true) :
    (l.take i).count true < (l.take j).count true := by
  have e : l.take j = l.take i ++ (l.take j).drop i := by
    conv => lhs; rw [← List.take_append_drop i (l.take j)]
    rw [List.take_take, Nat.min_eq_left (Nat.le_of_lt hij)]
  have h0 : ((l.take j).drop i)[0]? = some true := by
    simp [hij, hi]
  have hpos := List.count_pos_iff.2 (List.mem_of_getElem? h0)
  rw [e, List.count_append]
  omega

theorem newIndex_inj {seen : Marks} {i j : Nat} (hi : seen[i]? = some true)
    (hj : seen[j]? = some true)
    (e : ((newIndex seen i).map Target.state).getD Target.unresolved =
      ((newIndex seen j).map Target.state).getD Target.unresolved) : i = j := by
  simp only [newIndex, hi, hj, if_true, Option.map_some, Option.getD_some,
    Target.state.injEq] at e
  have hi' : seen.toList[i]? = some true := by simpa using hi
  have hj' : seen.toList[j]? = some true := by simpa using hj
  rcases Nat.lt_trichotomy i j with h | h | h
  · have := count_take_lt h hi'
    omega
  · exact h
  · have := count_take_lt h hj'
    omega

end Table

namespace Compaction

open Table

/-- Where renumbering sends state `i`: to its new index when it is kept, else nowhere. -/
def renumbered (seen : Marks) (i : Nat) : Target :=
  ((newIndex seen i).map .state).getD .unresolved

theorem relabel_renumbered_inj {seen : Marks} {x y : Target}
    (hx : ∀ k, x = .state k → seen[k]? = some true)
    (hy : ∀ k, y = .state k → seen[k]? = some true)
    (e : x.relabel (renumbered seen) = y.relabel (renumbered seen)) : x = y := by
  cases x with
  | state a =>
    cases y with
    | state b => exact congrArg _ (newIndex_inj (hx a rfl) (hy b rfl) e)
    | accept | unresolved => simp [Target.relabel, renumbered, newIndex, hx a rfl] at e
  | accept | unresolved =>
    cases y with
    | state b => simp [Target.relabel, renumbered, newIndex, hy b rfl] at e
    | accept | unresolved => first | rfl | cases e

theorem Marked.successor {t : Table} {seen : Marks} (hm : Marked t (seen, [])) {i : Nat}
    {st : State} (hi : seen[i]? = some true) (hst : t.get? i = some st) {x : Target}
    (hx : x ∈ st.successors) : ∀ k, x = .state k → seen[k]? = some true := by
  rintro k rfl
  exact hm.closed i hi List.not_mem_nil k (mem_nextIndices.2 ⟨st, hst, hx⟩)

end Compaction

namespace Table

open Find Compaction

/-- Renumbering keeps the marked states and relabels them by their new indices. -/
theorem contracts_keep {u : Table} {seen : Marks} (hm : Marked u (seen, [])) :
    Contracts u (keep u seen) (fun i => seen[i]? = some true) (fun i => seen[i]? = some true)
      (fun j => ((newIndex seen j).map .state).getD .unresolved) (fun _ => 0) where
  zero := ⟨hm.zero, by simp [newIndex, hm.zero]⟩
  lt_size i hi := hm.size ▸ (Array.getElem?_eq_some_iff.1 hi).1
  closed i st hi hst _ x hx := hm.successor hi hst hx
  kept i st hi _ hst := by
    refine ⟨(seen.toList.take i).count true, st.relabel _, by simp [newIndex, hi],
      by rw [keep_get? hm.size hi, hst]; rfl,
      rfl, fun _ => State.successors_relabel fun x hx y hy e => ?_⟩
    -- the successors of a marked state are marked, and marked states keep distinct indices
    exact relabel_renumbered_inj (hm.successor hi hst hx) (hm.successor hi hst hy) e
  pass _ _ hi hK _ := absurd hi hK
  inj _ _ hi hj _ _ e := newIndex_inj hi hj e

/-! ## Compacting the table of a pattern -/

/-- Compaction of a shaped table keeps whether the scans from state 0 alone read. -/
theorem Shaped.compact_fresh {t t' : Table} (h : t.Shaped) (ht : t.compact = .ok t')
    (c : Option Char) :
    (scan t' c [.state 0] (Marks.none t'.size) [] false).consumed =
      (scan t c [.state 0] (Marks.none t.size) [] false).consumed := by
  obtain ⟨s, t₀, u, seen, hs₁, hs₂, he, -, hsz, hget, hr, hm, hseen, hc⟩ := h.compact_eq
  rw [ht, Except.ok.injEq] at hc
  subst hc
  have hmk := reachable_marked hseen (by rw [hm.size, hsz]; omega)
  have hA := (h.contracts_recenter hs₁ he hget).fresh c
  have hB := (hm.contracts hr (by omega)).fresh c
  have hC := (contracts_keep hmk).fresh c
  exact (hA.2.trans (hB.2.trans hC.2)).symm

end Table

open Table in
/-- A compacted table finds matches that stop where the table's do; on a pattern's table, built
without compaction, the matches are the same, down to whether a character was read. -/
theorem compact_find {t t' : Table} (h : t.compact = .ok t') :
    (∀ l, (t'.find l).map Match.stop = (t.find l).map Match.stop) ∧
    ((∃ p, compile p { compact := false } = .ok t) → ∀ l, t'.find l = t.find l) := by
  refine ⟨find_stop_congr (compact_accepts h), fun ⟨p, hp⟩ l => ?_⟩
  obtain ⟨-, r, -, -, -, ht⟩ := compile_cases hp
  simp only [Bool.false_eq_true, ↓reduceIte] at ht
  subst ht
  exact find_eq_of_fresh (compact_accepts h) ((shaped_toTable r).compact_fresh h) l

/-- The table of "a|b" built without compaction, and its compaction, meet the theorem above. -/
theorem compact_find_choice :
    Table.compact ⟨#[⟨.branch, .state 2, .state 2⟩, ⟨.literal 'a', .state 4, .state 4⟩,
        ⟨.branch, .state 1, .state 3⟩, ⟨.literal 'b', .state 4, .state 4⟩,
        ⟨.branch, .state 5, .state 5⟩, ⟨.branch, .accept, .accept⟩]⟩ =
      .ok ⟨#[⟨.branch, .state 1, .state 2⟩, ⟨.literal 'a', .accept, .accept⟩,
        ⟨.literal 'b', .accept, .accept⟩]⟩ ∧
    compile "a|b" { compact := false } =
      .ok ⟨#[⟨.branch, .state 2, .state 2⟩, ⟨.literal 'a', .state 4, .state 4⟩,
        ⟨.branch, .state 1, .state 3⟩, ⟨.literal 'b', .state 4, .state 4⟩,
        ⟨.branch, .state 5, .state 5⟩, ⟨.branch, .accept, .accept⟩]⟩ ∧
    (∀ l, (Table.find ⟨#[⟨.branch, .state 1, .state 2⟩, ⟨.literal 'a', .accept, .accept⟩,
        ⟨.literal 'b', .accept, .accept⟩]⟩ l).map Match.stop =
      (Table.find ⟨#[⟨.branch, .state 2, .state 2⟩, ⟨.literal 'a', .state 4, .state 4⟩,
        ⟨.branch, .state 1, .state 3⟩, ⟨.literal 'b', .state 4, .state 4⟩,
        ⟨.branch, .state 5, .state 5⟩, ⟨.branch, .accept, .accept⟩]⟩ l).map Match.stop) ∧
    ∀ l, Table.find ⟨#[⟨.branch, .state 1, .state 2⟩, ⟨.literal 'a', .accept, .accept⟩,
        ⟨.literal 'b', .accept, .accept⟩]⟩ l =
      Table.find ⟨#[⟨.branch, .state 2, .state 2⟩, ⟨.literal 'a', .state 4, .state 4⟩,
        ⟨.branch, .state 1, .state 3⟩, ⟨.literal 'b', .state 4, .state 4⟩,
        ⟨.branch, .state 5, .state 5⟩, ⟨.branch, .accept, .accept⟩]⟩ l :=
  ⟨by cbv, by cbv, (compact_find (by cbv)).1, (compact_find (by cbv)).2 ⟨"a|b", by cbv⟩⟩

end TableGrep
