import TableGrep.Table.Basic

/-!
# Runs of a table

A table is a nondeterministic automaton with silent moves: a branch goes on to either of its
successors without reading, a literal or the wildcard reads one character and goes on to either
of its successors. `Table.Run t x w y` says that some run starts at target `x`, reads exactly `w`
and stops at target `y`; acceptance and unresolved targets have no moves of their own. The table
accepts `w` from `x` when a run reads `w` and stops at acceptance.

The second half is about regions: a block of states `lo ≤ i < hi` that only lead to each other or
to unresolved targets, where only one state, the region's stop, has unresolved successors. When
the stop is later connected to `k`, a run leaving the region is a run of the region to its open
end followed by a run from `k` (`Exits.escape`, `Exits.enter`). This is how the states a pattern
appends keep their meaning while the enclosing constructs connect them.
-/

namespace TableGrep

namespace State

theorem mem_successors {s : State} {x : Target} : x ∈ s.successors ↔ x = s.next1 ∨ x = s.next2 := by
  unfold successors
  split <;> simp_all

theorem next1_mem_successors (s : State) : s.next1 ∈ s.successors :=
  mem_successors.2 (.inl rfl)

theorem next2_mem_successors (s : State) : s.next2 ∈ s.successors :=
  mem_successors.2 (.inr rfl)

@[simp] theorem fill_unresolved (s : State) : s.fill .unresolved = s := by
  cases s with
  | mk k n1 n2 => cases n1 <;> cases n2 <;> rfl

@[simp] theorem fill_kind (s : State) (k : Target) : (s.fill k).kind = s.kind := rfl

theorem mem_successors_fill {s : State} {k x : Target} (h : x ∈ (s.fill k).successors) :
    x = k ∧ .unresolved ∈ s.successors ∨ x ∈ s.successors ∧ x ≠ .unresolved := by
  obtain ⟨kind, n1, n2⟩ := s
  simp only [mem_successors, fill] at h ⊢
  cases n1 <;> cases n2 <;> simp [Target.isUnresolved] at h ⊢ <;> grind

theorem mem_successors_fill_of_unresolved {s : State} {k : Target}
    (h : .unresolved ∈ s.successors) : k ∈ (s.fill k).successors := by
  obtain ⟨kind, n1, n2⟩ := s
  simp only [mem_successors, fill] at h ⊢
  cases n1 <;> cases n2 <;> simp [Target.isUnresolved] at h ⊢

theorem mem_successors_fill_of_ne {s : State} {k x : Target} (h : x ∈ s.successors)
    (hx : x ≠ .unresolved) : x ∈ (s.fill k).successors := by
  obtain ⟨kind, n1, n2⟩ := s
  simp only [mem_successors, fill] at h ⊢
  cases n1 <;> cases n2 <;> simp [Target.isUnresolved] at h ⊢ <;> grind

theorem isPassThrough_of_kind {s : State} (h : s.kind ≠ .branch) : s.isPassThrough = false := by
  cases s with
  | mk k n1 n2 => cases k <;> simp_all [isPassThrough, Kind.isBranch]

theorem isPassThrough_of_ne {s : State} (h : s.next1 ≠ s.next2) : s.isPassThrough = false := by
  simp [isPassThrough, h]

end State

namespace Table

theorem lt_size_of_get? {t : Table} {i : Nat} {s : State} (h : t.get? i = some s) : i < t.size :=
  (Array.getElem?_eq_some_iff.1 h).1

theorem get?_eq_none_iff {t : Table} {i : Nat} : t.get? i = none ↔ t.size ≤ i := by
  simp [get?, size]

theorem exists_get? {t : Table} {i : Nat} (h : i < t.size) : ∃ s, t.get? i = some s :=
  ⟨t.states[i], by simp [get?, size] at h ⊢⟩

theorem mem_toList_of_get? {t : Table} {i : Nat} {st : State} (h : t.get? i = some st) :
    st ∈ t.states.toList :=
  Array.mem_toList_iff.2 (Array.mem_of_getElem? h)

/-- A run from `x` that reads `w` and stops at `y`. -/
inductive Run (t : Table) : Target → List Char → Target → Prop where
  | refl (x : Target) : Run t x [] x
  | branch {i : Nat} {s : State} {x y : Target} {w : List Char} (hs : t.get? i = some s)
      (hk : s.kind = .branch) (hx : x ∈ s.successors) (h : Run t x w y) : Run t (.state i) w y
  | read {i : Nat} {s : State} {c : Char} {x y : Target} {w : List Char} (hs : t.get? i = some s)
      (hc : s.kind.consumes c = true) (hx : x ∈ s.successors) (h : Run t x w y) :
      Run t (.state i) (c :: w) y

/-- The table accepts `w` from `x`. -/
def Accepts (t : Table) (x : Target) (w : List Char) : Prop := t.Run x w .accept

variable {t : Table}

namespace Run

theorem trans {x y z : Target} {u v : List Char} (h₁ : t.Run x u y) (h₂ : t.Run y v z) :
    t.Run x (u ++ v) z := by
  induction h₁ with
  | refl => exact h₂
  | branch hs hk hx _ ih => exact .branch hs hk hx (ih h₂)
  | read hs hc hx _ ih => exact .read hs hc hx (ih h₂)

theorem of_unresolved {w : List Char} {y : Target} (h : t.Run .unresolved w y) :
    w = [] ∧ y = .unresolved := by
  cases h with
  | refl => exact ⟨rfl, rfl⟩

/-- A run splits wherever its word does. -/
theorem split {x y : Target} {u v : List Char} (h : t.Run x (u ++ v) y) :
    ∃ z, t.Run x u z ∧ t.Run z v y := by
  generalize hw : u ++ v = w at h
  induction h generalizing u with
  | refl x =>
    obtain ⟨rfl, rfl⟩ := List.append_eq_nil_iff.1 hw
    exact ⟨x, .refl x, .refl x⟩
  | branch hs hk hx _ ih =>
    obtain ⟨z, h₁, h₂⟩ := ih hw
    exact ⟨z, .branch hs hk hx h₁, h₂⟩
  | @read i s c x y w hs hc hx h ih =>
    cases u with
    | nil => exact ⟨.state i, .refl _, by simpa [← hw] using Run.read hs hc hx h⟩
    | cons d u =>
      simp only [List.cons_append, List.cons.injEq] at hw
      obtain ⟨rfl, hw⟩ := hw
      obtain ⟨z, h₁, h₂⟩ := ih hw
      exact ⟨z, .read hs hc hx h₁, h₂⟩

theorem of_singleton {x y : Target} {c : Char} (h : t.Run x [c] y) :
    ∃ i s z, t.Run x [] (.state i) ∧ t.get? i = some s ∧ s.kind.consumes c = true ∧
      z ∈ s.successors ∧ t.Run z [] y := by
  generalize hw : [c] = w at h
  induction h with
  | refl => cases hw
  | branch hs hk hx _ ih =>
    obtain ⟨i, s, z, hm, hi⟩ := ih hw
    exact ⟨i, s, z, .branch hs hk hx hm, hi⟩
  | @read i s d x' y' w' hs hd hx h _ =>
    simp only [List.cons.injEq] at hw
    obtain ⟨rfl, rfl⟩ := hw
    exact ⟨i, s, x', .refl _, hs, hd, hx, h⟩

/-- The last character of a run is read by a state reached after the rest, and silence follows. -/
theorem split_last {x y : Target} {w : List Char} {c : Char} (h : t.Run x (w ++ [c]) y) :
    ∃ i s z, t.Run x w (.state i) ∧ t.get? i = some s ∧ s.kind.consumes c = true ∧
      z ∈ s.successors ∧ t.Run z [] y := by
  obtain ⟨m, h₁, h₂⟩ := h.split
  obtain ⟨i, s, z, hm, hi⟩ := of_singleton h₂
  exact ⟨i, s, z, by simpa using h₁.trans hm, hi⟩

theorem snoc {x y z : Target} {w : List Char} {c : Char} {i : Nat} {s : State}
    (h : t.Run x w (.state i)) (hs : t.get? i = some s) (hc : s.kind.consumes c = true)
    (hz : z ∈ s.successors) (hy : t.Run z [] y) : t.Run x (w ++ [c]) y :=
  h.trans (.read hs hc hz hy)

/-- Runs only look at states that exist, so a table that has every state of `t` has its runs. -/
theorem mono {t' : Table} (ht : ∀ i s, t.get? i = some s → t'.get? i = some s) {x y : Target}
    {w : List Char} (h : t.Run x w y) : t'.Run x w y := by
  induction h with
  | refl => exact .refl _
  | branch hs hk hx _ ih => exact .branch (ht _ _ hs) hk hx ih
  | read hs hc hx _ ih => exact .read (ht _ _ hs) hc hx ih

end Run

theorem run_branch_iff {i : Nat} {s : State} (hs : t.get? i = some s) (hk : s.kind = .branch)
    {w : List Char} {y : Target} :
    t.Run (.state i) w y ↔ (w = [] ∧ y = .state i) ∨ ∃ x ∈ s.successors, t.Run x w y := by
  constructor
  · intro h
    cases h with
    | refl => exact .inl ⟨rfl, rfl⟩
    | branch hs' _ hx h => rw [hs] at hs'; cases hs'; exact .inr ⟨_, hx, h⟩
    | read hs' hc _ _ => rw [hs] at hs'; cases hs'; simp [hk, Kind.consumes] at hc
  · rintro (⟨rfl, rfl⟩ | ⟨x, hx, h⟩)
    · exact .refl _
    · exact .branch hs hk hx h

/-- A branch to one target `x` that names no state reaches `x` on the empty word only. -/
theorem run_terminal_branch {i : Nat} {x : Target} (hx : ∀ m, x ≠ .state m)
    (hs : t.get? i = some ⟨.branch, x, x⟩) {w : List Char} : t.Run (.state i) w x ↔ w = [] := by
  rw [run_branch_iff hs rfl]
  constructor
  · rintro (⟨rfl, -⟩ | ⟨y, hy, h⟩)
    · rfl
    · simp only [State.successors, ite_true, List.mem_singleton] at hy
      subst hy
      cases h with
      | refl => rfl
      | branch => exact absurd rfl (hx _)
      | read => exact absurd rfl (hx _)
  · rintro rfl
    exact .inr ⟨x, by simp [State.successors], .refl _⟩

theorem run_open_branch {i : Nat} (hs : t.get? i = some ⟨.branch, .unresolved, .unresolved⟩)
    {w : List Char} : t.Run (.state i) w .unresolved ↔ w = [] :=
  run_terminal_branch (by simp) hs

theorem accepts_accepting_branch {i : Nat} (hs : t.get? i = some ⟨.branch, .accept, .accept⟩)
    {w : List Char} : t.Accepts (.state i) w ↔ w = [] :=
  run_terminal_branch (by simp) hs

/-! ## Regions -/

/-- The states `lo ≤ i < hi` exist and only lead to each other or to unresolved targets, and only
`stop` has unresolved successors. -/
structure Region (t : Table) (lo hi stop : Nat) : Prop where
  stop_ge : lo ≤ stop
  stop_lt : stop < hi
  closed : ∀ i, lo ≤ i → i < hi → ∃ s, t.get? i = some s ∧
    ∀ x ∈ s.successors, x = .unresolved ∨ ∃ j, x = .state j ∧ lo ≤ j ∧ j < hi
  resolved : ∀ i s, lo ≤ i → i < hi → i ≠ stop → t.get? i = some s →
    .unresolved ∉ s.successors

/-- `t'` holds the region of `t` with its stop connected to `k`. -/
structure Exits (t t' : Table) (lo hi stop : Nat) (k : Target) : Prop where
  region : t.Region lo hi stop
  same : ∀ i, lo ≤ i → i < hi → i ≠ stop → t'.get? i = t.get? i
  fill : t'.get? stop = (t.get? stop).map (·.fill k)

theorem Region.succ_cases {lo hi stop : Nat} (hr : t.Region lo hi stop) {i : Nat} (hlo : lo ≤ i)
    (hhi : i < hi) {s : State} (hs : t.get? i = some s) {x : Target} (hx : x ∈ s.successors) :
    x = .unresolved ∨ ∃ j, x = .state j ∧ lo ≤ j ∧ j < hi := by
  obtain ⟨s', hs', hsucc⟩ := hr.closed i hlo hhi
  rw [hs] at hs'
  cases hs'
  exact hsucc x hx

namespace Exits

variable {t' : Table} {lo hi stop : Nat} {k : Target}

/-- A state of the region moves alike in `t'`, except the stop's unresolved moves, now to `k`. -/
theorem step_cases (he : Exits t t' lo hi stop k) {i : Nat} (hlo : lo ≤ i) (hhi : i < hi)
    {s' : State} (hs' : t'.get? i = some s') {x : Target} (hx : x ∈ s'.successors) :
    ∃ s, t.get? i = some s ∧ s'.kind = s.kind ∧
      ((∃ j, x = .state j ∧ lo ≤ j ∧ j < hi ∧ x ∈ s.successors) ∨
        (i = stop ∧ x = k ∧ .unresolved ∈ s.successors)) := by
  obtain ⟨s, hs, -⟩ := he.region.closed i hlo hhi
  by_cases hi : i = stop
  · subst hi
    rw [he.fill, hs, Option.map_some, Option.some.injEq] at hs'
    subst hs'
    refine ⟨s, hs, rfl, ?_⟩
    rcases State.mem_successors_fill hx with ⟨rfl, hu⟩ | ⟨hx, hxu⟩
    · exact .inr ⟨rfl, rfl, hu⟩
    · rcases he.region.succ_cases hlo hhi hs hx with hu | ⟨j, rfl, hj⟩
      · exact absurd hu hxu
      · exact .inl ⟨j, rfl, hj.1, hj.2, hx⟩
  · rw [he.same i hlo hhi hi, hs, Option.some.injEq] at hs'
    subst hs'
    refine ⟨s, hs, rfl, .inl ?_⟩
    rcases he.region.succ_cases hlo hhi hs hx with rfl | ⟨j, rfl, hj⟩
    · exact absurd hx (he.region.resolved i s hlo hhi hi hs)
    · exact ⟨j, rfl, hj.1, hj.2, hx⟩

theorem step_back (he : Exits t t' lo hi stop k) {i : Nat} (hlo : lo ≤ i) (hhi : i < hi)
    {s : State} (hs : t.get? i = some s) :
    ∃ s', t'.get? i = some s' ∧ s'.kind = s.kind ∧
      (∀ x ∈ s.successors, x ≠ .unresolved → x ∈ s'.successors) ∧
      (.unresolved ∈ s.successors → i = stop ∧ k ∈ s'.successors) := by
  by_cases hi : i = stop
  · subst hi
    refine ⟨s.fill k, by rw [he.fill, hs]; rfl, rfl, fun x hx hxu => ?_, fun hu => ?_⟩
    · exact State.mem_successors_fill_of_ne hx hxu
    · exact ⟨rfl, State.mem_successors_fill_of_unresolved hu⟩
  · refine ⟨s, by rw [he.same i hlo hhi hi, hs], rfl, fun x hx _ => hx, fun hu => ?_⟩
    exact absurd hu (he.region.resolved i s hlo hhi hi hs)

/-- A run leaving the region goes through the stop: a run to its open end, then a run from `k`. -/
theorem escape (he : Exits t t' lo hi stop k) {x : Nat} (hlo : lo ≤ x) (hhi : x < hi)
    {w : List Char} {y : Target} (h : t'.Run (.state x) w y)
    (hy : ∀ j, y = .state j → j < lo ∨ hi ≤ j) :
    ∃ u v, w = u ++ v ∧ t.Run (.state x) u .unresolved ∧ t'.Run k v y := by
  generalize hz : Target.state x = z at h
  induction h generalizing x with
  | refl =>
    subst hz
    rcases hy x rfl with h | h <;> omega
  | @branch i s' x' y' w hs' hk hx h ih =>
    cases hz
    obtain ⟨s, hs, hkind, ⟨j, rfl, hjlo, hjhi, hxs⟩ | ⟨-, rfl, hu⟩⟩ := he.step_cases hlo hhi hs' hx
    · obtain ⟨u, v, rfl, hu, hv⟩ := ih hjlo hjhi hy rfl
      exact ⟨u, v, rfl, .branch hs (hkind ▸ hk) hxs hu, hv⟩
    · exact ⟨[], w, rfl, .branch hs (hkind ▸ hk) hu (.refl _), h⟩
  | @read i s' c x' y' w hs' hc hx h ih =>
    cases hz
    obtain ⟨s, hs, hkind, ⟨j, rfl, hjlo, hjhi, hxs⟩ | ⟨-, rfl, hu⟩⟩ := he.step_cases hlo hhi hs' hx
    · obtain ⟨u, v, rfl, hu, hv⟩ := ih hjlo hjhi hy rfl
      exact ⟨c :: u, v, rfl, .read hs (hkind ▸ hc) hxs hu, hv⟩
    · exact ⟨[c], w, rfl, .read hs (hkind ▸ hc) hu (.refl _), h⟩

/-- Conversely, a run of the region to its open end followed by a run from `k` is a run of `t'`. -/
theorem enter (he : Exits t t' lo hi stop k) {x : Nat} (hlo : lo ≤ x) (hhi : x < hi)
    {u v : List Char} {y : Target} (hu : t.Run (.state x) u .unresolved) (hv : t'.Run k v y) :
    t'.Run (.state x) (u ++ v) y := by
  generalize hz : Target.state x = z at hu
  generalize hu' : Target.unresolved = e at hu
  induction hu generalizing x with
  | refl => subst hz; cases hu'
  | @branch i s x' y' w hs hk hx h ih =>
    cases hz
    obtain ⟨s', hs', hkind, hkeep, hopen⟩ := he.step_back hlo hhi hs
    rcases he.region.succ_cases hlo hhi hs hx with rfl | ⟨j, rfl, hjlo, hjhi⟩
    · -- the move to the open end now leads to `k`
      subst hu'
      obtain ⟨rfl, -⟩ := h.of_unresolved
      exact .branch hs' (hkind ▸ hk) (hopen hx).2 hv
    · exact .branch hs' (hkind ▸ hk) (hkeep _ hx (by simp)) (ih hjlo hjhi rfl hu')
  | @read i s c x' y' w hs hc hx h ih =>
    cases hz
    obtain ⟨s', hs', hkind, hkeep, hopen⟩ := he.step_back hlo hhi hs
    rcases he.region.succ_cases hlo hhi hs hx with rfl | ⟨j, rfl, hjlo, hjhi⟩
    · subst hu'
      obtain ⟨rfl, -⟩ := h.of_unresolved
      exact .read hs' (hkind ▸ hc) (hopen hx).2 hv
    · exact .read hs' (hkind ▸ hc) (hkeep _ hx (by simp)) (ih hjlo hjhi rfl hu')

end Exits

end Table

end TableGrep
