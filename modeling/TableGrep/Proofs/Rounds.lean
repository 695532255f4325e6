import TableGrep.Proofs.Shape
import TableGrep.Proofs.Compaction

/-!
# Compacting a pattern's table

Compaction stops with a fault only on tables unlike those a pattern builds: on a shaped table it
ends after two rounds and keeps the states reachable from the start (`Shaped.compact_eq`).

The first round moves the entry's target to index 0. The table it leaves is `Ranked` by the old
indices: every transition leads to a higher rank, except the first successor of a branch that
chooses, which leads back to a state that does not pass control through. So every walk along
pass-through states ends within the table's size, each redirected state ends up `Settled`, leading
only to states that do not pass control through, and the second round finds nothing to change.
-/

namespace TableGrep

namespace Table

/-- The index a state has once states 0 and `s` trade places. -/
def swapIndex (s i : Nat) : Nat := if i = s then 0 else if i = 0 then s else i

theorem trade_eq (s i : Nat) : trade s i = .state (swapIndex s i) := by
  unfold trade swapIndex
  split
  · rfl
  · split <;> rfl

@[simp] theorem swapIndex_swapIndex (s i : Nat) : swapIndex s (swapIndex s i) = i := by
  unfold swapIndex
  by_cases h₁ : i = s <;> by_cases h₂ : i = 0 <;> by_cases h₃ : s = 0 <;> simp_all

@[simp] theorem swapIndex_self (s : Nat) : swapIndex s s = 0 := by
  simp [swapIndex]

theorem swapIndex_lt {s i n : Nat} (hs : s < n) (hi : i < n) : swapIndex s i < n := by
  unfold swapIndex
  split
  · omega
  · split <;> omega

variable {t : Table} {rank : Nat → Nat}

/-- Where a transition from a state of rank `r` may lead: to acceptance, or to a state of a
higher rank. -/
def Forward (t : Table) (rank : Nat → Nat) (r : Nat) (x : Target) : Prop :=
  x = .accept ∨ ∃ m, x = .state m ∧ m < t.size ∧ r < rank m

/-- A state of a ranked table: a branch that passes control on, a state that reads, or a branch
that chooses between a state of lower rank that does not pass control through and a transition
forward. -/
inductive Step (t : Table) (rank : Nat → Nat) (j : Nat) : State → Prop
  | pass {x : Target} : j ≠ 0 → t.Forward rank (rank j) x → Step t rank j ⟨.branch, x, x⟩
  | read {k : Kind} {x : Target} : k ≠ .branch → t.Forward rank (rank j) x →
      Step t rank j ⟨k, x, x⟩
  | choose {a : Nat} {x : Target} : a < t.size → rank a < rank j →
      (∀ st, t.get? a = some st → st.isPassThrough = false) → t.Forward rank (rank j) x →
      Step t rank j ⟨.branch, .state a, x⟩

/-- Every state steps as `Step` says, against ranks below the table's size. -/
structure Ranked (t : Table) (rank : Nat → Nat) : Prop where
  rank_lt : ∀ j, j < t.size → rank j < t.size
  step : ∀ j, j < t.size → ∃ st, t.get? j = some st ∧ t.Step rank j st

/-- A target that skipping leaves alone: acceptance, or a state that is not flagged. -/
def Terminal (t : Table) (x : Target) : Prop :=
  x = .accept ∨ ∃ m, x = .state m ∧ (Compaction.flags t)[m]? = some false

theorem Forward.mono {r r' : Nat} {x : Target} (h : t.Forward rank r x) (hr : r' ≤ r) :
    t.Forward rank r' x := by
  rcases h with rfl | ⟨m, rfl, hm, hr'⟩
  · exact .inl rfl
  · exact .inr ⟨m, rfl, hm, by omega⟩

theorem Forward.ne_state {r a : Nat} {x : Target} (h : t.Forward rank r x) (ha : rank a ≤ r) :
    x ≠ .state a := by
  rcases h with rfl | ⟨m, rfl, -, hr⟩
  · simp
  · rintro ⟨⟩
    omega

theorem flags_getElem? (t : Table) (j : Nat) :
    (Compaction.flags t)[j]? = (t.get? j).map fun st => j != 0 && st.isPassThrough := by
  simp [Compaction.flags, Array.getElem?_mapIdx, get?]

theorem flags_of_get? {j : Nat} {st : State} (hs : t.get? j = some st) :
    (Compaction.flags t)[j]? = some (j != 0 && st.isPassThrough) := by
  rw [flags_getElem?, hs]
  rfl

theorem unflagged_of_kind {j : Nat} {st : State} (hs : t.get? j = some st) (hk : st.kind ≠ .branch) :
    (Compaction.flags t)[j]? = some false := by
  rw [flags_of_get? hs, State.isPassThrough_of_kind hk, Bool.and_false]

theorem unflagged_of_ne {j : Nat} {st : State} (hs : t.get? j = some st)
    (hne : st.next1 ≠ st.next2) : (Compaction.flags t)[j]? = some false := by
  rw [flags_of_get? hs, State.isPassThrough_of_ne hne, Bool.and_false]

theorem flagged_of_pass {j : Nat} {x : Target} (hs : t.get? j = some ⟨.branch, x, x⟩)
    (hj : j ≠ 0) : (Compaction.flags t)[j]? = some true := by
  rw [flags_of_get? hs]
  simp [hj, State.isPassThrough, Kind.isBranch]

/-- The state at `j` is flagged exactly when `Step` makes it a branch that passes control on. -/
theorem Step.flag {j : Nat} {st : State} (h : t.Step rank j st) (hs : t.get? j = some st) :
    ((Compaction.flags t)[j]? = some true ∧ ∃ x, st = ⟨.branch, x, x⟩ ∧ t.Forward rank (rank j) x) ∨
      ((Compaction.flags t)[j]? = some false ∧ ∀ x, st ≠ ⟨.branch, x, x⟩) := by
  cases h with
  | pass hj hx => exact .inl ⟨flagged_of_pass hs hj, _, rfl, hx⟩
  | read hk _ => exact .inr ⟨unflagged_of_kind hs hk, fun x e => hk (by cases e; rfl)⟩
  | choose _ ha _ hx =>
    have hne := hx.ne_state (Nat.le_of_lt ha)
    exact .inr ⟨unflagged_of_ne hs (Ne.symm hne), fun x e => by cases e; exact hne rfl⟩

namespace Ranked

variable (h : t.Ranked rank)
include h

/-- With enough fuel, skipping from a target forward of rank `r` ends at a terminal one. -/
theorem skip_ok : ∀ (fuel : Nat) (x : Target) (r : Nat), t.Forward rank r x →
    t.size ≤ fuel + r + 1 →
    ∃ e, Compaction.skip t (Compaction.flags t) fuel x = .ok e ∧ t.Forward rank r e ∧ t.Terminal e
  | fuel, .accept, r, _, _ => ⟨.accept, by unfold Compaction.skip; rfl, .inl rfl, .inl rfl⟩
  | _, .unresolved, _, hx, _ => by rcases hx with hx | ⟨_, hx, _⟩ <;> cases hx
  | fuel, .state m, r, hx, hfuel => by
    obtain ⟨_, ⟨⟩, hm, hr⟩ := hx.resolve_left (by simp)
    obtain ⟨st, hst, hstep⟩ := h.step m hm
    have hrm := h.rank_lt m hm
    rcases hstep.flag hst with ⟨hf, y, rfl, hy⟩ | ⟨hf, -⟩
    · -- a flagged state: one step along its successor, which is of higher rank
      cases fuel with
      | zero => omega
      | succ fuel =>
        obtain ⟨e, he, hef, het⟩ := skip_ok fuel y (rank m) hy (by omega)
        refine ⟨e, ?_, hef.mono (Nat.le_of_lt hr), het⟩
        unfold Compaction.skip
        rw [hf, hst]
        exact he
    · refine ⟨.state m, ?_, .inr ⟨m, rfl, hm, hr⟩, .inr ⟨m, rfl, hf⟩⟩
      unfold Compaction.skip
      rw [hf]

end Ranked

theorem skip_terminal {x : Target} (hx : t.Terminal x) (fuel : Nat) :
    Compaction.skip t (Compaction.flags t) fuel x = .ok x := by
  rcases hx with rfl | ⟨m, rfl, hm⟩
  · unfold Compaction.skip; rfl
  · unfold Compaction.skip; rw [hm]

/-! ## The first recentring -/

theorem swapIndex_inj {s i j : Nat} (h : swapIndex s i = swapIndex s j) : i = j := by
  rw [← swapIndex_swapIndex s i, h, swapIndex_swapIndex]

theorem get?_traded {s : Nat} (hs : s < t.size) (h0 : 0 < t.size) (j : Nat) :
    (⟨(t.states.swapIfInBounds 0 s).map (·.relabel (trade s))⟩ : Table).get? j =
      (t.get? (swapIndex s j)).map (·.relabel (trade s)) := by
  obtain ⟨j', hj', e⟩ := (relabels_trade hs h0).image (swapIndex s j) trivial
  rw [trade_eq, swapIndex_swapIndex, Target.state.injEq] at hj'
  rw [← hj'] at e
  exact e

theorem relabel_trade_state (s m : Nat) :
    (Target.state m).relabel (trade s) = .state (swapIndex s m) := trade_eq s m

theorem Inner.relabel_not_passThrough {i : Nat} {st : State} (hin : t.Inner i st)
    (ho : t.Opens i) (hs : t.get? i = some st) (s : Nat) :
    (st.relabel (trade s)).isPassThrough = false := by
  cases hin with
  | read hk => exact State.isPassThrough_of_kind hk
  | pass hij => exact absurd hs (ho.not_pass hij)
  | choose _ hai hij =>
    refine State.isPassThrough_of_ne ?_
    simp only [State.relabel, relabel_trade_state, ne_eq, Target.state.injEq]
    intro e
    have := swapIndex_inj e
    omega

namespace Shaped

variable (h : t.Shaped)
include h

omit h in
theorem entry_eq {s s' : Nat} (he : t.get? 0 = some ⟨.branch, .state s', .state s'⟩)
    (he' : t.get? 0 = some ⟨.branch, .state s, .state s⟩) : s' = s := by
  rw [he] at he'
  cases he'
  rfl

/-- The first recentring of a shaped table leaves a table ranked by the old indices. -/
theorem recenter_ranked : ∃ s t₀, 0 < s ∧ s + 1 < t.size ∧
    t.get? 0 = some ⟨.branch, .state s, .state s⟩ ∧
    Compaction.recenter t = .ok (t₀, true) ∧ t₀.size = t.size ∧
    (∀ j, t₀.get? j = (t.get? (swapIndex s j)).map (·.relabel (trade s))) ∧
    t₀.Ranked (swapIndex s) := by
  obtain ⟨s, hs₁, hs₂, he, ho⟩ := h.entry
  have h0 : 0 < t.size := by omega
  have hget := get?_traded (show s < t.size by omega) h0
  have hsz : (⟨(t.states.swapIfInBounds 0 s).map (·.relabel (trade s))⟩ : Table).size = t.size := by
    simp [size]
  have hrec : Compaction.recenter t =
      .ok (⟨(t.states.swapIfInBounds 0 s).map (·.relabel (trade s))⟩, true) := by
    unfold Compaction.recenter
    simp only [he, State.isPassThrough, Kind.isBranch, beq_self_eq_true, Bool.and_self]
    rw [if_neg (by omega), if_pos (by omega)]
    rfl
  generalize (⟨(t.states.swapIfInBounds 0 s).map (·.relabel (trade s))⟩ : Table) = t₀ at hget hsz hrec
  refine ⟨s, t₀, hs₁, hs₂, he, hrec, hsz, hget, ?_⟩
  have hlt : ∀ m, m < t.size → swapIndex s m < t₀.size := fun m hm => by
    rw [hsz]; exact swapIndex_lt (by omega) hm
  have hs0 : swapIndex s 0 = s := by
    unfold swapIndex; rw [if_neg (by omega), if_pos rfl]
  refine ⟨fun j hj => swapIndex_lt (by omega) (by omega), fun j hj => ?_⟩
  have hi : swapIndex s j < t.size := swapIndex_lt (by omega) (by omega)
  obtain ⟨st, hst, hc⟩ := h.get_cases hi
  refine ⟨st.relabel (trade s), by rw [hget, hst]; rfl, ?_⟩
  rcases hc with ⟨h₀, s', -, -, rfl⟩ | ⟨hpos, hlt', hin⟩ | ⟨hl, rfl⟩
  · -- the old entry, now at `s`, passes control on to index 0
    have hjs : j = s := by rw [← swapIndex_swapIndex s j, h₀, hs0]
    rw [h₀] at hst
    cases entry_eq hst he
    rw [hjs]
    simp only [State.relabel, relabel_trade_state]
    refine .pass (by omega) (.inr ⟨_, rfl, hlt s (by omega), ?_⟩)
    rw [swapIndex_swapIndex, swapIndex_self]
    exact hs₁
  · cases hin with
    | read hk hij hm =>
      simp only [State.relabel, relabel_trade_state]
      exact .read hk (.inr ⟨_, rfl, hlt _ hm, by simpa using hij⟩)
    | pass hij hm =>
      simp only [State.relabel, relabel_trade_state]
      refine .pass ?_ (.inr ⟨_, rfl, hlt _ hm, by simpa using hij⟩)
      -- the target of the entry opens a construct, so it does not pass control on
      rintro rfl
      rw [hs0] at hst hij
      exact ho.not_pass hij hst
    | choose ha hai hij hm hoa =>
      simp only [State.relabel, relabel_trade_state]
      refine .choose (hlt _ hoa.lt_size) (by simpa using hai) (fun st' hst' => ?_)
        (.inr ⟨_, rfl, hlt _ hm, by simpa using hij⟩)
      rw [hget, swapIndex_swapIndex] at hst'
      obtain ⟨sta, hsta, hca⟩ := h.get_cases hoa.lt_size
      rw [hsta, Option.map_some, Option.some.injEq] at hst'
      subst hst'
      rcases hca with ⟨h₀', -⟩ | ⟨-, -, hina⟩ | ⟨hl', -⟩
      · omega
      · exact hina.relabel_not_passThrough hoa hsta s
      · omega
  · -- the accepting branch passes control on to acceptance
    refine .pass ?_ (.inl rfl)
    rintro rfl
    rw [hs0] at hl
    omega

end Shaped

/-! ## The first round

The first round redirects the unflagged states of a ranked table in index order. `Midway` says
what the table looks like part way: the states redirected so far are `Redirected`, the others are
as they were. Flagged states are never rewritten, so every walk of `skip` sees the table of the
start of the round, and a walk of `chase` sees each unflagged branch still choosing between a
state of lower rank and a forward transition.
-/

theorem skip_congr {t t' : Table} {flagged : Array Bool}
    (h : ∀ j, flagged[j]? = some true → t'.get? j = t.get? j) :
    ∀ (fuel : Nat) (x : Target),
      Compaction.skip t' flagged fuel x = Compaction.skip t flagged fuel x
  | fuel, .state i => by
    unfold Compaction.skip
    cases hf : flagged[i]? with
    | none => rfl
    | some b =>
      cases b with
      | false => rfl
      | true =>
        rw [h i hf]
        cases fuel with
        | zero => rfl
        | succ fuel =>
          cases t.get? i with
          | none => rfl
          | some s => exact skip_congr h fuel s.next1
  | _, .accept => by unfold Compaction.skip; rfl
  | _, .unresolved => by unfold Compaction.skip; rfl

theorem chase_ne {t : Table} {id fuel : Nat} {a b : Target} (h : a ≠ b) :
    Compaction.chase t id fuel a b = .ok (a, b) := by
  unfold Compaction.chase
  rw [if_neg h]

theorem chase_branch {t : Table} {id m fuel : Nat} {st : State} (hne : m ≠ id)
    (hs : t.get? m = some st) (hk : st.kind = .branch) :
    Compaction.chase t id (fuel + 1) (.state m) (.state m) =
      Compaction.chase t id fuel st.next1 st.next2 := by
  rw [Compaction.chase, if_pos rfl]
  simp [hne, hs, hk, Kind.isBranch]

theorem chase_read {t : Table} {id m fuel : Nat} {st : State} (hs : t.get? m = some st)
    (hk : st.kind ≠ .branch) :
    Compaction.chase t id fuel (.state m) (.state m) = .ok (.state m, .state m) := by
  have hb : st.kind.isBranch = false := Bool.eq_false_iff.2 (mt Find.isBranch_iff.1 hk)
  unfold Compaction.chase
  by_cases hm : m = id <;> simp [hm, hs, hb]

theorem redirect_eq {t : Table} {flagged : Array Bool} {id : Nat} {s : State} {n1 n2 a b : Target}
    (hc : Compaction.chase t id t.size s.next1 s.next2 = .ok (n1, n2))
    (ha : Compaction.skip t flagged t.size n1 = .ok a)
    (hb : Compaction.skip t flagged t.size n2 = .ok b) :
    Compaction.redirect t flagged id s = .ok (a, b) := by
  unfold Compaction.redirect
  simp only [hc, ha, hb, bind, Except.bind, pure, Except.pure]

/-- A pair of successors that a round leaves alone: both terminal and, when they agree,
acceptance or a state that reads. -/
def Settled (t : Table) (a b : Target) : Prop :=
  t.Terminal a ∧ t.Terminal b ∧
    (a = b → a = .accept ∨ ∃ m st, a = .state m ∧ t.get? m = some st ∧ st.kind ≠ .branch)

/-- What the first round makes of the unflagged state `st` at `j`: a state of the same kind with
settled successors; a branch keeps its first successor, of lower rank, and its second stays
forward. -/
structure Redirected (t : Table) (rank : Nat → Nat) (j : Nat) (st st' : State) : Prop where
  kind : st'.kind = st.kind
  settled : t.Settled st'.next1 st'.next2
  branch : st.kind = .branch → ∃ a, st.next1 = .state a ∧ st'.next1 = .state a ∧
    rank a < rank j ∧ t.Forward rank (rank j) st'.next2 ∧
    Compaction.skip t (Compaction.flags t) t.size st.next2 = .ok st'.next2

/-- The table `u` part way through the first round over `t`: the unflagged states before `k`
are redirected, all the others are as in `t`. -/
structure Midway (t : Table) (rank : Nat → Nat) (k : Nat) (u : Table) : Prop where
  size : u.size = t.size
  same : ∀ j, (k ≤ j ∨ (Compaction.flags t)[j]? = some true) → u.get? j = t.get? j
  redirected : ∀ j st, j < k → t.get? j = some st → (Compaction.flags t)[j]? = some false →
    ∃ st', u.get? j = some st' ∧ t.Redirected rank j st st'

theorem midway_iff_partway {k : Nat} {u : Table} :
    t.Midway rank k u ↔ Compaction.Partway t (t.Redirected rank) k u :=
  ⟨fun h => ⟨h.size, h.same, h.redirected⟩, fun h => ⟨h.size, h.same, h.done⟩⟩

/-- Where `chase` stops on the successors of an unflagged state of a ranked table: at
acceptance, at a state that reads, or at a pair whose first is an unflagged state of rank below
a bound `r` that the second is forward of. -/
def Chased (t : Table) (rank : Nat → Nat) (p : Target × Target) : Prop :=
  p = (.accept, .accept) ∨
    (∃ m st, p = (.state m, .state m) ∧ t.get? m = some st ∧ st.kind ≠ .branch) ∨
    ∃ a r, p.1 = .state a ∧ a < t.size ∧ (Compaction.flags t)[a]? = some false ∧ rank a < r ∧
      t.Forward rank r p.2

theorem Redirected.passThrough {j : Nat} {st st' : State} (h : t.Redirected rank j st st') :
    st'.isPassThrough = false := by
  by_cases hk : st'.kind = .branch
  · obtain ⟨a, -, ha, hra, hb, -⟩ := h.branch (h.kind ▸ hk)
    refine State.isPassThrough_of_ne ?_
    rw [ha]
    exact (hb.ne_state (Nat.le_of_lt hra)).symm
  · exact State.isPassThrough_of_kind hk

theorem Midway.start : t.Midway rank 0 t :=
  ⟨rfl, fun _ _ => rfl, fun _ _ h => absurd h (Nat.not_lt_zero _)⟩

namespace Ranked

variable (h : t.Ranked rank)
include h

theorem choose_of_branch {m : Nat} {st : State} (hst : t.get? m = some st)
    (hk : st.kind = .branch) (hf : (Compaction.flags t)[m]? = some false) :
    ∃ a, st.next1 = .state a ∧ a < t.size ∧ (Compaction.flags t)[a]? = some false ∧
      rank a < rank m ∧ t.Forward rank (rank m) st.next2 := by
  obtain ⟨st', hst', hstep⟩ := h.step m (lt_size_of_get? hst)
  rw [hst, Option.some.injEq] at hst'
  subst hst'
  cases hstep with
  | pass hm _ => rw [flagged_of_pass hst hm] at hf; cases hf
  | read hk' _ => exact absurd hk hk'
  | choose ha hra hpt hx =>
    obtain ⟨sa, hsa⟩ := exists_get? ha
    refine ⟨_, rfl, ha, ?_, hra, hx⟩
    rw [flags_of_get? hsa, hpt sa hsa, Bool.and_false]

theorem settle_choose {a r : Nat} {x : Target} (ha : (Compaction.flags t)[a]? = some false)
    (hra : rank a < r) (hx : t.Forward rank r x) :
    ∃ e, Compaction.skip t (Compaction.flags t) t.size x = .ok e ∧ t.Forward rank r e ∧
      t.Settled (.state a) e := by
  obtain ⟨e, he, hef, het⟩ := h.skip_ok t.size x r hx (by omega)
  exact ⟨e, he, hef, .inr ⟨a, rfl, ha⟩, het, fun e' => absurd e'.symm (hef.ne_state (by omega))⟩

theorem settle_chased {p : Target × Target} (hp : t.Chased rank p) :
    ∃ a b, Compaction.skip t (Compaction.flags t) t.size p.1 = .ok a ∧
      Compaction.skip t (Compaction.flags t) t.size p.2 = .ok b ∧ t.Settled a b := by
  rcases hp with rfl | ⟨m, st, rfl, hst, hk⟩ | ⟨a, r, hp1, hat, ha, hra, hx⟩
  · have hacc : Compaction.skip t (Compaction.flags t) t.size .accept = .ok .accept :=
      skip_terminal (.inl rfl) _
    exact ⟨_, _, hacc, hacc, .inl rfl, .inl rfl, fun _ => .inl rfl⟩
  · have hm : Compaction.skip t (Compaction.flags t) t.size (.state m) = .ok (.state m) :=
      skip_terminal (.inr ⟨m, rfl, unflagged_of_kind hst hk⟩) _
    exact ⟨_, _, hm, hm, .inr ⟨m, rfl, unflagged_of_kind hst hk⟩,
      .inr ⟨m, rfl, unflagged_of_kind hst hk⟩, fun _ => .inr ⟨m, st, rfl, hst, hk⟩⟩
  · obtain ⟨e, he, -, hs⟩ := h.settle_choose ha hra hx
    exact ⟨_, e, by rw [hp1]; exact skip_terminal (.inr ⟨a, rfl, ha⟩) _, he, hs⟩

end Ranked

namespace Midway

variable {k : Nat} {u : Table} (hm : t.Midway rank k u) (h : t.Ranked rank)
include hm h

theorem current {m : Nat} {st : State} (hst : t.get? m = some st)
    (hf : (Compaction.flags t)[m]? = some false) :
    ∃ st', u.get? m = some st' ∧ st'.kind = st.kind ∧
      (st.kind = .branch → ∃ a, st.next1 = .state a ∧ st'.next1 = .state a ∧
        t.Forward rank (rank m) st'.next2) := by
  by_cases hkm : k ≤ m
  · refine ⟨st, by rw [hm.same m (.inl hkm), hst], rfl, fun hk => ?_⟩
    obtain ⟨a, ha, -, -, -, hx⟩ := h.choose_of_branch hst hk hf
    exact ⟨a, ha, ha, hx⟩
  · obtain ⟨st', hst', hred⟩ := hm.redirected m st (by omega) hst hf
    refine ⟨st', hst', hred.kind, fun hk => ?_⟩
    obtain ⟨a, ha, ha', -, hx, -⟩ := hred.branch hk
    exact ⟨a, ha, ha', hx⟩

/-- With enough fuel, `chase` from two equal forward successors stops where `Chased` says. -/
theorem chase_forward {id : Nat} :
    ∀ (fuel : Nat) (x : Target) (r : Nat), t.Forward rank r x → rank id ≤ r →
      t.size ≤ fuel + r + 1 → ∃ p, Compaction.chase u id fuel x x = .ok p ∧ t.Chased rank p
  | fuel, .accept, _, _, _, _ => ⟨_, by unfold Compaction.chase; simp, .inl rfl⟩
  | _, .unresolved, _, hx, _, _ => by rcases hx with hx | ⟨_, hx, _⟩ <;> cases hx
  | fuel, .state m, r, hx, hid, hfuel => by
    obtain ⟨_, ⟨⟩, hmt, hrm⟩ := hx.resolve_left (by simp)
    have hne : m ≠ id := by rintro rfl; omega
    have hrank := h.rank_lt m hmt
    obtain ⟨st, hst, hstep⟩ := h.step m hmt
    rcases hstep.flag hst with ⟨hf, y, rfl, hy⟩ | ⟨hf, -⟩
    · -- a flagged state passes control on: the walk goes on from its successor, one rank up
      obtain ⟨fuel, rfl⟩ : ∃ f, fuel = f + 1 := ⟨fuel - 1, by omega⟩
      have hu : u.get? m = some ⟨.branch, y, y⟩ := by rw [hm.same m (.inr hf), hst]
      obtain ⟨p, hp, hc⟩ :=
        chase_forward fuel y (rank m) hy (show rank id ≤ rank m by omega) (by omega)
      exact ⟨p, by rw [chase_branch hne hu rfl]; exact hp, hc⟩
    · obtain ⟨st', hu, hk, hb⟩ := hm.current h hst hf
      by_cases hkb : st.kind = .branch
      · -- an unflagged branch: its successors differ, and the walk stops there
        obtain ⟨fuel, rfl⟩ : ∃ f, fuel = f + 1 := ⟨fuel - 1, by omega⟩
        obtain ⟨a, ha, ha', hy⟩ := hb hkb
        obtain ⟨a₀, ha₀, hat, hfa, hra, -⟩ := h.choose_of_branch hst hkb hf
        rw [ha, Target.state.injEq] at ha₀
        subst ha₀
        have hne' : st'.next1 ≠ st'.next2 := by
          rw [ha']
          exact (hy.ne_state (Nat.le_of_lt hra)).symm
        refine ⟨_, by rw [chase_branch hne hu (hk.trans hkb), chase_ne hne'], ?_⟩
        exact .inr (.inr ⟨a, rank m, ha', hat, hfa, hra, hy⟩)
      · exact ⟨_, chase_read hu (hk ▸ hkb), .inr (.inl ⟨m, st, rfl, hst, hkb⟩)⟩

/-- Redirecting the next unflagged state settles its successors. -/
theorem redirect_settles {st : State} (hst : t.get? k = some st)
    (hf : (Compaction.flags t)[k]? = some false) :
    ∃ a b, Compaction.redirect u (Compaction.flags t) k st = .ok (a, b) ∧
      t.Redirected rank k st ⟨st.kind, a, b⟩ := by
  have hskip : ∀ fuel x, Compaction.skip u (Compaction.flags t) fuel x =
      Compaction.skip t (Compaction.flags t) fuel x :=
    skip_congr fun j hj => hm.same j (.inr hj)
  have hk := h.rank_lt k (lt_size_of_get? hst)
  obtain ⟨st₀, hst₀, hstep⟩ := h.step k (lt_size_of_get? hst)
  rw [hst, Option.some.injEq] at hst₀
  subst hst₀
  cases hstep with
  | pass hk0 _ => rw [flagged_of_pass hst hk0] at hf; cases hf
  | @read kd x hkd hx =>
    obtain ⟨p, hc, hp⟩ := hm.chase_forward h u.size x (rank k) hx (Nat.le_refl _)
      (by rw [hm.size]; omega)
    obtain ⟨a, b, ha, hb, hs⟩ := h.settle_chased hp
    refine ⟨a, b, redirect_eq hc (by rw [hskip, hm.size]; exact ha)
      (by rw [hskip, hm.size]; exact hb), rfl, hs, fun e => absurd e hkd⟩
  | @choose a x hat hra hpt hx =>
    obtain ⟨a', ha', -, hfa, -, -⟩ := h.choose_of_branch hst rfl hf
    cases ha'
    obtain ⟨e, he, hef, hs⟩ := h.settle_choose hfa hra hx
    refine ⟨.state a, e, redirect_eq (chase_ne (hx.ne_state (Nat.le_of_lt hra)).symm)
      (by rw [hskip, hm.size]; exact skip_terminal (.inr ⟨a, rfl, hfa⟩) _)
      (by rw [hskip, hm.size]; exact he), rfl, hs, fun _ => ⟨a, rfl, rfl, hra, hef, he⟩⟩

end Midway

/-- The first round over a ranked table redirects every unflagged state, from `k` on. -/
theorem Midway.redirectAll (h : t.Ranked rank) :
    ∀ (n k : Nat) (u : Table), k + n = t.size → t.Midway rank k u →
      ∃ u', Compaction.redirectAll (Compaction.flags t) (List.range' k n) (u, true) =
        .ok (u', true) ∧ t.Midway rank t.size u'
  | 0, k, u, hkn, hm => ⟨u, rfl, by simpa using hkn ▸ hm⟩
  | n + 1, k, u, hkn, hm => by
    obtain ⟨st, hst⟩ := exists_get? (show k < t.size by omega)
    have hu : u.get? k = some st := by rw [hm.same k (.inl (Nat.le_refl _)), hst]
    show ∃ u', Compaction.redirectAll _ (k :: List.range' (k + 1) n) (u, true) = _ ∧ _
    unfold Compaction.redirectAll
    cases hfk : (Compaction.flags t)[k]? with
    | none => rw [flags_of_get? hst] at hfk; cases hfk
    | some b =>
      cases b with
      | true =>
        -- a flagged state stays as it is
        simp only
        exact Midway.redirectAll h n (k + 1) u (by omega)
          (midway_iff_partway.2 ((midway_iff_partway.1 hm).skip_flagged hfk))
      | false =>
        obtain ⟨a, b, hr, hred⟩ := hm.redirect_settles h hst hfk
        simp only [hu, hr]
        split
        · -- nothing changes
          rename_i he
          obtain ⟨h1, h2⟩ := he
          rw [← h1, ← h2] at hred
          exact Midway.redirectAll h n (k + 1) u (by omega)
            (midway_iff_partway.2 ((midway_iff_partway.1 hm).keep hst hred))
        · exact Midway.redirectAll h n (k + 1) _ (by omega)
            (midway_iff_partway.2 ((midway_iff_partway.1 hm).set hst hfk hred))

/-! ## The second round -/

/-- Every unflagged state has settled successors: a round changes nothing. -/
def Fixed (u : Table) : Prop :=
  ∀ j st, (Compaction.flags u)[j]? = some false → u.get? j = some st →
    u.Settled st.next1 st.next2

/-- Successors that a redirect of the state at `j` leaves alone: both terminal and, when they
agree on a state, that state is `j` itself or does not branch. -/
def Quiet (u : Table) (j : Nat) (st : State) : Prop :=
  u.Terminal st.next1 ∧ u.Terminal st.next2 ∧
    ∀ m, st.next1 = .state m → st.next2 = .state m →
      m = j ∨ ∃ s, u.get? m = some s ∧ s.kind ≠ .branch

theorem chase_self {t : Table} {id fuel : Nat} :
    Compaction.chase t id fuel (.state id) (.state id) = .ok (.state id, .state id) := by
  unfold Compaction.chase
  simp

theorem chase_not_state {t : Table} {id fuel : Nat} (x : Target) (hx : ∀ m, x ≠ .state m) :
    Compaction.chase t id fuel x x = .ok (x, x) := by
  cases x with
  | state m => exact absurd rfl (hx m)
  | accept => unfold Compaction.chase; simp
  | unresolved => unfold Compaction.chase; simp

theorem redirect_quiet {u : Table} {j : Nat} {st : State} (hq : u.Quiet j st) :
    Compaction.redirect u (Compaction.flags u) j st = .ok (st.next1, st.next2) := by
  obtain ⟨h1, h2, heq⟩ := hq
  refine redirect_eq ?_ (skip_terminal h1 _) (skip_terminal h2 _)
  by_cases he : st.next1 = st.next2
  · rw [← he]
    rcases h1 with e | ⟨m, e, -⟩
    · rw [e]
      exact chase_not_state .accept (by simp)
    · rw [e]
      rcases heq m e (he.symm.trans e) with rfl | ⟨s, hs, hk⟩
      · exact chase_self
      · exact chase_read hs hk
  · exact chase_ne he

theorem Settled.quiet {u : Table} {j : Nat} {st : State} (hs : u.Settled st.next1 st.next2) :
    u.Quiet j st := by
  obtain ⟨h1, h2, heq⟩ := hs
  refine ⟨h1, h2, fun m e1 e2 => .inr ?_⟩
  rcases heq (e1.trans e2.symm) with e | ⟨m', st', e, hst', hk⟩
  · rw [e1] at e
    cases e
  · rw [e1, Target.state.injEq] at e
    subst e
    exact ⟨st', hst', hk⟩

theorem redirect_settled {u : Table} {j : Nat} {st : State} (hs : u.Settled st.next1 st.next2) :
    Compaction.redirect u (Compaction.flags u) j st = .ok (st.next1, st.next2) :=
  redirect_quiet hs.quiet

theorem redirectAll_keeps {u : Table}
    (h : ∀ j st, (Compaction.flags u)[j]? = some false → u.get? j = some st →
      Compaction.redirect u (Compaction.flags u) j st = .ok (st.next1, st.next2)) :
    ∀ ids : List Nat, Compaction.redirectAll (Compaction.flags u) ids (u, false) = .ok (u, false)
  | [] => rfl
  | id :: ids => by
    unfold Compaction.redirectAll
    split
    · rename_i st hf hs
      rw [h id st hf hs]
      simp only [and_self, ↓reduceIte]
      exact redirectAll_keeps h ids
    · exact redirectAll_keeps h ids

theorem redirectAll_fixed {u : Table} (hu : u.Fixed) (ids : List Nat) :
    Compaction.redirectAll (Compaction.flags u) ids (u, false) = .ok (u, false) :=
  redirectAll_keeps (fun j st hf hs => redirect_settled (hu j st hf hs)) ids

theorem recenter_of_not_passThrough {u : Table} {st : State} (h0 : u.get? 0 = some st)
    (hp : st.isPassThrough = false) : Compaction.recenter u = .ok (u, false) := by
  unfold Compaction.recenter
  rw [h0]
  simp [hp]

/-- A round over a fixed table whose state 0 does not pass control through changes nothing. -/
theorem round_fixed {u : Table} (hu : u.Fixed) {st : State} (h0 : u.get? 0 = some st)
    (hp : st.isPassThrough = false) : Compaction.round u = .ok (u, Compaction.flags u, false) := by
  unfold Compaction.round
  simp only [recenter_of_not_passThrough h0 hp, bind, Except.bind, redirectAll_fixed hu,
    pure, Except.pure]

namespace Midway

variable {u : Table} (hm : t.Midway rank t.size u)
include hm

theorem kind_eq {j : Nat} {st : State} (hst : t.get? j = some st) :
    ∃ st', u.get? j = some st' ∧ st'.kind = st.kind := by
  cases hf : (Compaction.flags t)[j]? with
  | none => rw [flags_of_get? hst] at hf; cases hf
  | some b =>
    cases b with
    | true => exact ⟨st, by rw [hm.same j (.inr hf), hst], rfl⟩
    | false =>
      obtain ⟨st', hu, hred⟩ := hm.redirected j st (lt_size_of_get? hst) hst hf
      exact ⟨st', hu, hred.kind⟩

theorem flags_eq : Compaction.flags u = Compaction.flags t := by
  refine Array.ext_getElem? fun j => ?_
  rw [flags_getElem?, flags_getElem?]
  cases hst : t.get? j with
  | none =>
    rw [hm.same j (.inl (by have := get?_eq_none_iff.1 hst; omega)), hst]
  | some st =>
    cases hf : (j != 0 && st.isPassThrough) with
    | true =>
      have hfl : (Compaction.flags t)[j]? = some true := by rw [flags_of_get? hst, hf]
      rw [hm.same j (.inr hfl), hst]
    | false =>
      have hfl : (Compaction.flags t)[j]? = some false := by rw [flags_of_get? hst, hf]
      obtain ⟨st', hu, hred⟩ := hm.redirected j st (lt_size_of_get? hst) hst hfl
      rw [hu, Option.map_some, Option.map_some, hf, hred.passThrough, Bool.and_false]

theorem settled {a b : Target} (hs : t.Settled a b) : u.Settled a b := by
  obtain ⟨ha, hb, he⟩ := hs
  refine ⟨by rw [Terminal, hm.flags_eq]; exact ha, by rw [Terminal, hm.flags_eq]; exact hb,
    fun e => ?_⟩
  rcases he e with he | ⟨m, st, rfl, hst, hk⟩
  · exact .inl he
  · obtain ⟨st', hu, hk'⟩ := hm.kind_eq hst
    exact .inr ⟨m, st', rfl, hu, by rw [hk']; exact hk⟩

/-- After the first round every unflagged state has settled successors. -/
theorem fixed : u.Fixed := by
  intro j st' hf hu
  rw [hm.flags_eq] at hf
  have hj : j < t.size := by rw [← hm.size]; exact lt_size_of_get? hu
  obtain ⟨st, hst⟩ := exists_get? hj
  obtain ⟨st'', hu', hred⟩ := hm.redirected j st hj hst hf
  rw [hu, Option.some.injEq] at hu'
  subst hu'
  exact hm.settled hred.settled

end Midway

/-! ## Keeping the reachable states -/

theorem unflagged_lt {u : Table} {k : Nat} {b : Bool} (h : (Compaction.flags u)[k]? = some b) :
    k < u.size := by
  rw [flags_getElem?] at h
  cases hs : u.get? k with
  | none => rw [hs] at h; cases h
  | some s => exact lt_size_of_get? hs

/-- A marking that marks and stacks only unflagged states. -/
structure Unflagged (u : Table) (m : Compaction.Marking) : Prop where
  size : m.1.size = u.size
  marks : ∀ i : Nat, m.1[i]? = some true → (Compaction.flags u)[i]? = some false
  stack : ∀ i ∈ m.2, (Compaction.flags u)[i]? = some false

theorem reach_ok {u : Table} {id next : Nat} {m : Compaction.Marking}
    (hn : (Compaction.flags u)[next]? = some false) (hm : u.Unflagged m) :
    ∃ m', Compaction.reach u (Compaction.flags u) id m next = .ok m' ∧ u.Unflagged m' := by
  have hlt : next < m.1.size := hm.size ▸ unflagged_lt hn
  unfold Compaction.reach
  simp only [hn, hlt, dite_true]
  split
  · exact ⟨m, rfl, hm⟩
  · refine ⟨_, rfl, ⟨by simp [hm.size], fun i hi => ?_, fun i hi => ?_⟩⟩
    · rw [Find.set_getElem? hlt] at hi
      split at hi
      · rename_i e
        rw [← e]
        exact hn
      · exact hm.marks i hi
    · rcases List.mem_cons.1 hi with rfl | hi
      · exact hn
      · exact hm.stack i hi

theorem reachAll_ok {u : Table} {id : Nat} :
    ∀ {nexts : List Nat} {m : Compaction.Marking},
      (∀ k ∈ nexts, (Compaction.flags u)[k]? = some false) → u.Unflagged m →
      ∃ m', Compaction.reachAll u (Compaction.flags u) id nexts m = .ok m' ∧ u.Unflagged m'
  | [], m, _, hm => ⟨m, rfl, hm⟩
  | next :: rest, m, hn, hm => by
    obtain ⟨m₁, h₁, hm₁⟩ := @reach_ok u id next m (hn next (.head _)) hm
    obtain ⟨m₂, h₂, hm₂⟩ := reachAll_ok (fun k hk => hn k (.tail _ hk)) hm₁
    exact ⟨m₂, by unfold Compaction.reachAll; rw [h₁]; exact h₂, hm₂⟩

/-- Successors of unflagged states are unflagged, so marking meets no flagged state. -/
def ClosedUnflagged (u : Table) : Prop :=
  ∀ i k, (Compaction.flags u)[i]? = some false → k ∈ Compaction.nextIndices u i →
    (Compaction.flags u)[k]? = some false

theorem Fixed.closedUnflagged {u : Table} (hu : u.Fixed) : u.ClosedUnflagged := by
  intro i k hi hk
  obtain ⟨st, hst, hx⟩ := Compaction.mem_nextIndices.1 hk
  obtain ⟨h1, h2, -⟩ := hu i st hi hst
  have ht : u.Terminal (.state k) := by
    rcases State.mem_successors.1 hx with e | e <;> rw [e]
    · exact h1
    · exact h2
  rcases ht with e | ⟨m, e, hm⟩
  · cases e
  · cases e
    exact hm

section Marking

variable {u : Table} (hc : u.ClosedUnflagged)
include hc

theorem visit_ok {seen : Marks} {id : Nat} {stack : List Nat}
    (hm : u.Unflagged (seen, id :: stack)) :
    ∃ m', Compaction.reachAll u (Compaction.flags u) id (Compaction.nextIndices u id)
      (seen, stack) = .ok m' ∧ u.Unflagged m' :=
  reachAll_ok (fun _ hk => hc _ _ (hm.stack id (.head _)) hk)
    ⟨hm.size, hm.marks, fun i hi => hm.stack i (.tail _ hi)⟩

theorem markFrom_ok {seen : Marks} {stack : List Nat} (hm : u.Unflagged (seen, stack)) :
    ∃ seen', Compaction.markFrom u (Compaction.flags u) seen stack = .ok seen' ∧
      ∀ i : Nat, seen'[i]? = some true → (Compaction.flags u)[i]? = some false := by
  fun_induction Compaction.markFrom u (Compaction.flags u) seen stack with
  | case1 seen => exact ⟨seen, rfl, hm.marks⟩
  | case2 seen id stack e he =>
    obtain ⟨m', hm', -⟩ := visit_ok hc hm
    rw [hm'] at he
    cases he
  | case3 seen id stack seen₁ stack₁ he ih =>
    obtain ⟨m', hm', hinv⟩ := visit_ok hc hm
    rw [hm'] at he
    cases he
    exact ih hinv

/-- Marking from state 0 succeeds and marks only unflagged states. -/
theorem reachable_ok (h0 : 0 < u.size) :
    ∃ seen, Compaction.reachable u (Compaction.flags u) = .ok seen ∧
      ∀ i : Nat, seen[i]? = some true → (Compaction.flags u)[i]? = some false := by
  have hstart : u.Unflagged ((Marks.none u.size).set! 0 true, [0]) := by
    obtain ⟨s0, hs0⟩ := exists_get? h0
    have hf0 : (Compaction.flags u)[0]? = some false := by rw [flags_of_get? hs0]; rfl
    refine ⟨by simp [Marks.none], fun i hi => ?_, fun i hi => ?_⟩
    · simp only [Marks.none, Array.set!_eq_setIfInBounds, Array.getElem?_setIfInBounds,
        Array.size_replicate] at hi
      split at hi
      · subst_vars
        exact hf0
      · simp [Array.getElem?_replicate] at hi
    · rw [List.mem_singleton.1 hi]
      exact hf0
  exact markFrom_ok hc hstart

end Marking

theorem mem_keep {t : Table} {seen : Marks} {st' : State}
    (h : st' ∈ (Compaction.keep t seen).states.toList) :
    ∃ i st, seen[i]? = some true ∧ t.get? i = some st ∧
      st' = st.relabel fun j => ((Compaction.newIndex seen j).map .state).getD .unresolved := by
  simp only [Compaction.keep, List.toList_toArray, List.mem_map, List.mem_filterMap] at h
  obtain ⟨s, ⟨⟨s₀, b⟩, hp, hsb⟩, rfl⟩ := h
  cases b with
  | false => cases hsb
  | true =>
    cases hsb
    obtain ⟨i, hi, e⟩ := List.getElem_of_mem hp
    rw [List.getElem_zip, Prod.mk.injEq] at e
    obtain ⟨e1, e2⟩ := e
    refine ⟨i, _, ?_, ?_, rfl⟩
    · rw [← e2]
      simp
    · rw [← e1]
      simp [get?]

theorem defect?_eq_none_of {t : Table} (h0 : 0 < t.size)
    (h : ∀ st ∈ t.states.toList, ∀ x ∈ st.successors,
      x = .accept ∨ ∃ j, x = .state j ∧ j < t.size) : t.defect? = none := by
  have hne : t.states.isEmpty = false := by
    rw [Array.isEmpty_eq_false_iff, ← Array.size_pos_iff]
    exact h0
  rw [defect?, hne, if_neg (by simp)]
  exact defectFrom_eq_none h

theorem keep_defect_of_resolved {u : Table} {seen : Marks} (hm : Compaction.Marked u (seen, []))
    (hres : ∀ i st, seen[i]? = some true → u.get? i = some st →
      ∀ x ∈ st.successors, x ≠ .unresolved) :
    (Compaction.keep u seen).defect? = none := by
  refine defect?_eq_none_of ?_ fun st' hst' x hx => ?_
  · obtain ⟨s0, hs0⟩ := exists_get? (hm.size ▸ (Array.getElem?_eq_some_iff.1 hm.zero).1)
    have := Compaction.keep_get? hm.size hm.zero
    rw [hs0, Option.map_some] at this
    exact lt_size_of_get? this
  · obtain ⟨i, st, hi, hst, rfl⟩ := mem_keep hst'
    obtain ⟨y, hy, rfl⟩ := State.mem_successors_relabel.1 hx
    cases y with
    | accept => exact .inl rfl
    | unresolved => exact absurd rfl (hres i st hi hst _ hy)
    | state k =>
      -- a successor of a marked state is marked, so it has a new index
      have hkm : seen[k]? = some true :=
        hm.closed i hi List.not_mem_nil k (Compaction.mem_nextIndices.2 ⟨st, hst, hy⟩)
      obtain ⟨sk, hsk⟩ := exists_get? (hm.size ▸ (Array.getElem?_eq_some_iff.1 hkm).1)
      have hget := Compaction.keep_get? hm.size hkm
      rw [hsk, Option.map_some] at hget
      exact .inr ⟨_, by simp [Target.relabel, Compaction.newIndex, hkm], lt_size_of_get? hget⟩

namespace Fixed

variable {u : Table} (hu : u.Fixed)
include hu

/-- Keeping the marked states of a fixed table, all unflagged, gives a well-formed table. -/
theorem keep_defect {seen : Marks} (hm : Compaction.Marked u (seen, []))
    (hmarks : ∀ i : Nat, seen[i]? = some true → (Compaction.flags u)[i]? = some false) :
    (Compaction.keep u seen).defect? = none := by
  refine keep_defect_of_resolved hm fun i st hi hst x hx => ?_
  -- the successors of an unflagged state of a fixed table are terminal, so resolved
  obtain ⟨h1, h2, -⟩ := hu i st (hmarks i hi) hst
  have hty : u.Terminal x := by
    rcases State.mem_successors.1 hx with rfl | rfl
    · exact h1
    · exact h2
  rcases hty with rfl | ⟨k, rfl, -⟩ <;> simp

theorem renumber_ok (h0 : 0 < u.size) :
    ∃ seen, Compaction.reachable u (Compaction.flags u) = .ok seen ∧
      Compaction.renumber u (Compaction.flags u) = .ok (Compaction.keep u seen) := by
  obtain ⟨seen, hreach, hmarks⟩ := reachable_ok hu.closedUnflagged h0
  have hm := Compaction.reachable_marked hreach h0
  refine ⟨seen, hreach, ?_⟩
  unfold Compaction.renumber
  simp only [hreach, bind, Except.bind, hu.keep_defect hm hmarks, pure, Except.pure]

end Fixed

/-! ## Compacting a shaped table -/

/-- After a first round that settles a ranked table, the second changes nothing. -/
theorem rounds_of_midway {t t₀ u : Table} (hrec : Compaction.recenter t = .ok (t₀, true))
    (hsz : t₀.size = t.size) (h0 : 0 < t.size) (hm : t₀.Midway rank t₀.size u)
    (hra : Compaction.redirectAll (Compaction.flags t₀) (List.range t₀.size) (t₀, true) =
      .ok (u, true)) :
    Compaction.rounds (t.size + 1) t = .ok (u, Compaction.flags u) := by
  have hround : Compaction.round t = .ok (u, Compaction.flags t₀, true) := by
    unfold Compaction.round
    simp only [hrec, bind, Except.bind, hra, pure, Except.pure]
  -- state 0 is never flagged, so the first round settles it and it does not pass control through
  obtain ⟨st₀, hst₀⟩ := exists_get? (show 0 < t₀.size by omega)
  have hf0 : (Compaction.flags t₀)[0]? = some false := by rw [flags_of_get? hst₀]; rfl
  obtain ⟨st, hu0, hred⟩ := hm.redirected 0 st₀ (by omega) hst₀ hf0
  obtain ⟨n, hn⟩ : ∃ n, t.size = n + 1 := ⟨t.size - 1, by omega⟩
  rw [hn, Compaction.rounds, hround]
  simp only [bind, Except.bind, ↓reduceIte]
  rw [Compaction.rounds, round_fixed hm.fixed hu0 hred.passThrough]
  simp only [bind, Except.bind, Bool.false_eq_true, ↓reduceIte, pure, Except.pure]

namespace Shaped

variable (h : t.Shaped)
include h

/-- Compaction of a shaped table: the first round recentres it and settles every unflagged
state, the second changes nothing, and the states reachable from state 0 are kept. -/
theorem compact_eq : ∃ s t₀ u seen, 0 < s ∧ s + 1 < t.size ∧
    t.get? 0 = some ⟨.branch, .state s, .state s⟩ ∧
    Compaction.recenter t = .ok (t₀, true) ∧ t₀.size = t.size ∧
    (∀ j, t₀.get? j = (t.get? (swapIndex s j)).map (·.relabel (trade s))) ∧
    t₀.Ranked (swapIndex s) ∧ t₀.Midway (swapIndex s) t₀.size u ∧
    Compaction.reachable u (Compaction.flags u) = .ok seen ∧
    t.compact = .ok (Compaction.keep u seen) := by
  obtain ⟨s, t₀, hs₁, hs₂, he, hrec, hsz, hget, hr⟩ := h.recenter_ranked
  obtain ⟨u, hra, hm⟩ := Midway.redirectAll hr t₀.size 0 t₀ (Nat.zero_add _) Midway.start
  rw [← List.range_eq_range'] at hra
  have hrounds := rounds_of_midway hrec hsz (by omega) hm hra
  obtain ⟨seen, hseen, ht'⟩ := hm.fixed.renumber_ok (by rw [hm.size, hsz]; omega)
  refine ⟨s, t₀, u, seen, hs₁, hs₂, he, hrec, hsz, hget, hr, hm, hseen, ?_⟩
  unfold Table.compact
  rw [if_neg (by omega)]
  simp only [hrounds, bind, Except.bind, ht']

theorem compact_ok : ∃ t', t.compact = .ok t' := by
  obtain ⟨_, _, _, _, -, -, -, -, -, -, -, -, -, hc⟩ := h.compact_eq
  exact ⟨_, hc⟩

end Shaped

end Table

end TableGrep
