import TableGrep.Proofs.Idempotence

/-!
# What compaction gives back

Compaction reads a state only through a transition that names it, so on a table whose transitions
name only its own states it never reads a state that does not exist (`Table.InRange`; unresolved
transitions are allowed). Every step keeps that: recentring trades two indices of the table, and
a redirect only puts in successors that some state already had (`redirectAll_successor`). On a
well-formed table the only ways compaction can then fail are a cycle of pass-through states and
the round limit: the rounds stop at a `Stable` table, where the successors of unflagged states are
unflagged, so marking meets no flagged state, and the kept states are resolved and lead only to
kept states (`compact_safe`).

When compaction succeeds, its result is well formed, every state of it is reached from state 0,
no state but state 0 passes control through, and it is no larger than the table it came from; the
table a pattern builds, whose last state is an accepting pass-through branch, always loses a state
(`compact_result_spec`).
-/

namespace TableGrep

namespace Table

/-- Some state of the table leads to `x`. -/
def Successor (t : Table) (x : Target) : Prop :=
  ∃ i st, t.get? i = some st ∧ x ∈ st.successors

/-- Every transition that names a state names one of the table's. -/
def InRange (t : Table) : Prop := ∀ x, t.Successor x → x.Below t.size

/-- No transition is unresolved. -/
def Resolved (t : Table) : Prop := ∀ x, t.Successor x → x ≠ .unresolved

theorem inRange_iff {t : Table} :
    t.InRange ↔ ∀ s ∈ t.states.toList, ∀ x ∈ s.successors, ∀ j ∈ x.index?, j < t.size := by
  constructor
  · intro ht s hs x hx j hj
    obtain ⟨i, hi, rfl⟩ := List.getElem_of_mem hs
    cases x with
    | state m =>
      obtain rfl : m = j := by simpa using hj
      exact ht _ ⟨i, _, by simp [get?], hx⟩ m rfl
    | accept => simp at hj
    | unresolved => simp at hj
  · rintro h x ⟨i, st, hst, hx⟩ j rfl
    exact h st (mem_toList_of_get? hst) _ hx j rfl

instance (t : Table) : Decidable t.InRange := decidable_of_iff _ inRange_iff.symm

theorem WellFormed.inRange {t : Table} (hw : t.WellFormed) : t.InRange := by
  rintro x ⟨i, st, hst, hx⟩ j rfl
  rcases hw.successor (mem_toList_of_get? hst) hx with e | ⟨m, e, hm⟩
  · cases e
  · cases e
    exact hm

theorem WellFormed.resolved {t : Table} (hw : t.WellFormed) : t.Resolved := by
  rintro x ⟨i, st, hst, hx⟩ rfl
  rcases hw.successor (mem_toList_of_get? hst) hx with e | ⟨m, e, -⟩ <;> cases e

theorem InRange.next1_below {t : Table} (ht : t.InRange) {i : Nat} {s : State}
    (hs : t.get? i = some s) : s.next1.Below t.size :=
  ht _ ⟨i, s, hs, State.next1_mem_successors s⟩

theorem InRange.next2_below {t : Table} (ht : t.InRange) {i : Nat} {s : State}
    (hs : t.get? i = some s) : s.next2.Below t.size :=
  ht _ ⟨i, s, hs, State.next2_mem_successors s⟩

theorem Run.successor {t : Table} {z x : Target} {w : List Char} (h : t.Run z w x) :
    x = z ∨ t.Successor x := by
  induction h with
  | refl => exact .inl rfl
  | @branch i s y _ _ hs _ hy _ ih =>
    rcases ih with rfl | h'
    · exact .inr ⟨i, s, hs, hy⟩
    · exact .inr h'
  | @read i s _ y _ _ hs _ hy _ ih =>
    rcases ih with rfl | h'
    · exact .inr ⟨i, s, hs, hy⟩
    · exact .inr h'

theorem successor_set! {t : Table} {id : Nat} {s' : State} {x : Target}
    (h : (⟨t.states.set! id s'⟩ : Table).Successor x) : t.Successor x ∨ x ∈ s'.successors := by
  obtain ⟨i, st, hst, hx⟩ := h
  rcases get?_set!_eq_some hst with ⟨-, rfl⟩ | ⟨-, hst⟩
  · exact .inr hx
  · exact .inl ⟨i, st, hst, hx⟩

theorem relabel_trade_ne_unresolved {s : Nat} {x : Target} (hx : x ≠ .unresolved) :
    x.relabel (trade s) ≠ .unresolved := by
  cases x with
  | state m => rw [relabel_trade_state]; exact fun e => by cases e
  | accept => exact fun e => by cases e
  | unresolved => exact absurd rfl hx

end Table

namespace Target

theorem Below.relabel_trade {n s : Nat} {x : Target} (hx : x.Below n) (hs : s < n) :
    (x.relabel (Table.trade s)).Below n := by
  intro j hj
  cases x with
  | state m =>
    rw [Table.relabel_trade_state, Target.state.injEq] at hj
    subst hj
    exact Table.swapIndex_lt hs (hx m rfl)
  | accept => cases hj
  | unresolved => cases hj

end Target

namespace Compaction

open Table

variable {t t' : Table} {flagged : Array Bool} {id : Nat}

/-! ## Where new successors come from -/

theorem skip_successor {fuel : Nat} {x y : Target} (h : skip t flagged fuel x = .ok y) :
    y = x ∨ t.Successor y := by
  fun_induction skip t flagged fuel x with
  | case1 => cases h
  | case2 => cases h; exact .inl rfl
  | case3 => cases h
  | case4 => cases h
  | case5 i _ _ st hst ih =>
    rcases ih h with rfl | hy
    · exact .inr ⟨i, st, hst, State.next1_mem_successors st⟩
    · exact .inr hy
  | case6 => cases h; exact .inl rfl

theorem chase_successor {s : State} (hs : t.get? id = some s) {fuel : Nat} {a b : Target}
    (h : chase t id fuel s.next1 s.next2 = .ok (a, b)) {x : Target} (hx : x = a ∨ x = b) :
    t.Successor x := by
  obtain ⟨z, hz, hzx⟩ := chase_sound h x hx
  rcases hzx.successor with rfl | h'
  · rcases hz with rfl | rfl
    · exact ⟨id, s, hs, State.next1_mem_successors s⟩
    · exact ⟨id, s, hs, State.next2_mem_successors s⟩
  · exact h'

theorem redirect_successor {s : State} (hs : t.get? id = some s) {a b : Target}
    (h : redirect t flagged id s = .ok (a, b)) {x : Target} (hx : x = a ∨ x = b) :
    t.Successor x := by
  obtain ⟨n1, n2, hc, ha, hb⟩ := redirect_cases h
  rcases hx with rfl | rfl
  · rcases skip_successor ha with rfl | h'
    · exact chase_successor hs hc (.inl rfl)
    · exact h'
  · rcases skip_successor hb with rfl | h'
    · exact chase_successor hs hc (.inr rfl)
    · exact h'

theorem redirectAll_successor :
    ∀ {ids : List Nat} {t t' : Table} {c c' : Bool},
      redirectAll flagged ids (t, c) = .ok (t', c') →
        t'.size = t.size ∧ ∀ x, t'.Successor x → t.Successor x
  | [], t, t', c, c', h => by
    cases h
    exact ⟨rfl, fun _ hx => hx⟩
  | id :: ids, t, t', c, c', h => by
    rcases redirectAll_cons_ok h with ⟨-, h⟩ | ⟨s, a, b, -, hst, hr, ⟨-, -, h⟩ | ⟨-, h⟩⟩
    · exact redirectAll_successor h
    · exact redirectAll_successor h
    · -- the state `id` trades its successors for `a` and `b`, successors already there
      obtain ⟨hsz, hsucc⟩ := redirectAll_successor h
      refine ⟨hsz.trans (Table.size_set! t id _), fun x hx => ?_⟩
      rcases successor_set! (hsucc x hx) with h' | h'
      · exact h'
      · exact redirect_successor hst hr (State.mem_successors.1 h')

theorem recenter_successor {moved : Bool} (h : recenter t = .ok (t', moved)) {x : Target}
    (hx : t'.Successor x) :
    ∃ y, t.Successor y ∧ (x = y ∨ ∃ s, s < t.size ∧ x = y.relabel (trade s)) := by
  rcases Table.recenter_cases h with ⟨rfl, -⟩ | ⟨e, s, he, -, -, -, hs, -, rfl⟩
  · exact ⟨x, hx, .inl rfl⟩
  · obtain ⟨j, st', hst', hx'⟩ := hx
    rw [Table.get?_traded hs (by have := lt_size_of_get? he; omega) j] at hst'
    obtain ⟨st, hst, rfl⟩ := Option.map_eq_some_iff.1 hst'
    obtain ⟨y, hy, rfl⟩ := State.mem_successors_relabel.1 hx'
    exact ⟨y, ⟨_, st, hst, hy⟩, .inr ⟨s, hs, rfl⟩⟩

end Compaction

/-! ## Rounds keep transitions in range and resolved -/

namespace Table

open Compaction

variable {t t' : Table} {flagged : Array Bool}

theorem InRange.recenter {moved : Bool} (ht : t.InRange) (h : recenter t = .ok (t', moved)) :
    t'.InRange := by
  intro x hx
  rw [recenter_size h]
  obtain ⟨y, hy, e | ⟨s, hs, e⟩⟩ := recenter_successor h hx
  · rw [e]
    exact ht y hy
  · rw [e]
    exact (ht y hy).relabel_trade hs

theorem Resolved.recenter {moved : Bool} (ht : t.Resolved) (h : recenter t = .ok (t', moved)) :
    t'.Resolved := by
  intro x hx
  obtain ⟨y, hy, e | ⟨s, -, e⟩⟩ := recenter_successor h hx
  · rw [e]
    exact ht y hy
  · rw [e]
    exact relabel_trade_ne_unresolved (ht y hy)

theorem InRange.round {changed : Bool} (ht : t.InRange) (h : round t = .ok (t', flagged, changed)) :
    t'.InRange := by
  obtain ⟨t₁, moved, hr, -, ha⟩ := round_cases h
  obtain ⟨hsz, hsucc⟩ := redirectAll_successor ha
  intro x hx
  rw [hsz]
  exact ht.recenter hr x (hsucc x hx)

theorem Resolved.round {changed : Bool} (ht : t.Resolved)
    (h : round t = .ok (t', flagged, changed)) : t'.Resolved := by
  obtain ⟨t₁, moved, hr, -, ha⟩ := round_cases h
  exact fun x hx => ht.recenter hr x ((redirectAll_successor ha).2 x hx)

end Table

/-! ## Reading only states that exist -/

namespace Compaction

open Table

variable {t : Table} {flagged : Array Bool} {id : Nat}

theorem rounds_keep : ∀ {fuel : Nat} {t t' : Table} {flagged : Array Bool},
    rounds fuel t = .ok (t', flagged) → (t.InRange → t'.InRange) ∧ (t.Resolved → t'.Resolved)
  | 0, _, _, _, h => by cases h
  | fuel + 1, t, t', flagged, h => by
    unfold rounds at h
    obtain ⟨⟨t₁, flagged₁, changed⟩, hr, h⟩ := bind_eq_ok h
    cases changed with
    | true =>
      obtain ⟨hi, hres⟩ := rounds_keep h
      exact ⟨fun ht => hi (ht.round hr), fun ht => hres (ht.round hr)⟩
    | false =>
      cases h
      exact ⟨fun ht => ht.round hr, fun ht => ht.round hr⟩

theorem recenter_ok (ht : t.InRange) : ∃ p, recenter t = .ok p := by
  unfold recenter
  split
  · rename_i e he
    split
    · rename_i s _ hs
      split
      · exact ⟨_, rfl⟩
      · split
        · exact ⟨_, rfl⟩
        · rename_i hlt
          exact absurd (ht.next1_below he s hs) hlt
    · exact ⟨_, rfl⟩
  · exact ⟨_, rfl⟩

theorem chase_fault (ht : t.InRange) {fuel : Nat} {n1 n2 : Target} (h1 : n1.Below t.size)
    (h2 : n2.Below t.size) {e : Snag} (h : chase t id fuel n1 n2 = .error e) : e = .loop := by
  fun_induction chase t id fuel n1 n2 with
  | case1 => cases h
  | case2 _ next _ hnone =>
    have := h1 next rfl
    rw [get?_eq_none_iff] at hnone
    omega
  | case3 => cases h; rfl
  | case4 next _ st hst _ _ ih =>
    exact ih (ht.next1_below hst) (ht.next2_below hst) h
  | case5 => cases h
  | case6 => cases h
  | case7 => cases h

theorem skip_fault (ht : t.InRange) (hf : flagged.size = t.size) {fuel : Nat} {x : Target}
    (hx : x.Below t.size) {e : Snag} (h : skip t flagged fuel x = .error e) : e = .loop := by
  fun_induction skip t flagged fuel x with
  | case1 _ i hnone =>
    have := hx i rfl
    rw [Array.getElem?_eq_none_iff] at hnone
    omega
  | case2 => cases h
  | case3 => cases h; rfl
  | case4 _ i hflag hnone _ =>
    have := (Array.getElem?_eq_some_iff.1 hflag).1
    rw [get?_eq_none_iff] at hnone
    omega
  | case5 i _ _ st hst ih => exact ih (ht.next1_below hst) h
  | case6 => cases h

theorem redirect_fault (ht : t.InRange) (hf : flagged.size = t.size) {s : State}
    (hs : t.get? id = some s) {e : Snag} (h : redirect t flagged id s = .error e) : e = .loop := by
  unfold redirect at h
  rcases bind_eq_error h with hc | ⟨⟨n1, n2⟩, hc, h⟩
  · exact chase_fault ht (ht.next1_below hs) (ht.next2_below hs) hc
  rcases bind_eq_error h with ha | ⟨a, -, h⟩
  · exact skip_fault ht hf (ht _ (chase_successor hs hc (.inl rfl))) ha
  rcases bind_eq_error h with hb | ⟨b, -, h⟩
  · exact skip_fault ht hf (ht _ (chase_successor hs hc (.inr rfl))) hb
  cases h

/-- A pass over a table whose transitions stay in it fails only on a pass-through cycle. -/
theorem redirectAll_fault :
    ∀ {ids : List Nat} {t : Table} {c : Bool} {e : Error}, t.InRange → flagged.size = t.size →
      redirectAll flagged ids (t, c) = .error e → ∃ i, e.fault = .cycle i
  | [], _, _, _, _, _, h => by cases h
  | id :: ids, t, c, e, ht, hf, h => by
    unfold redirectAll at h
    split at h
    · rename_i s hid hst
      split at h
      · cases h
        exact ⟨id, rfl⟩
      · rename_i i hr
        exact absurd (redirect_fault ht hf hst hr) (by simp)
      · rename_i a b hr
        split at h
        · exact redirectAll_fault ht hf h
        · -- the rewritten state takes successors that were already in the table
          refine redirectAll_fault (fun x hx => ?_) (by rw [Table.size_set!]; exact hf) h
          rw [Table.size_set!]
          rcases successor_set! hx with h' | h'
          · exact ht x h'
          · exact ht x (redirect_successor hst hr (State.mem_successors.1 h'))
    · exact redirectAll_fault ht hf h

theorem round_fault (ht : t.InRange) {e : Error} (h : round t = .error e) :
    ∃ i, e.fault = .cycle i := by
  obtain ⟨⟨t₁, moved⟩, hr⟩ := recenter_ok ht
  unfold round at h
  rcases bind_eq_error h with hr' | ⟨_, hr', h⟩
  · rw [hr] at hr'
    cases hr'
  rw [hr, Except.ok.injEq] at hr'
  subst hr'
  rcases bind_eq_error h with ha | ⟨_, -, h⟩
  · exact redirectAll_fault (ht.recenter hr) (by simp [flags, Table.size]) ha
  cases h

/-- Rounds over a table whose transitions stay in it stop only on a cycle or at the round limit. -/
theorem rounds_fault : ∀ {fuel : Nat} {t : Table} {e : Error}, t.InRange →
    rounds fuel t = .error e → (∃ i, e.fault = .cycle i) ∨ e.fault = .diverged
  | 0, _, _, _, h => by
    cases h
    exact .inr rfl
  | fuel + 1, t, e, ht, h => by
    unfold rounds at h
    rcases bind_eq_error h with hr | ⟨⟨t₁, flagged₁, changed⟩, hr, h⟩
    · exact .inl (round_fault ht hr)
    dsimp only at h
    split at h
    · exact rounds_fault (ht.round hr) h
    · cases h

theorem nextIndices_lt {u : Table} (hu : u.InRange) {i k : Nat} (hk : k ∈ nextIndices u i) :
    k < u.size := by
  obtain ⟨st, hst, hx⟩ := mem_nextIndices.1 hk
  exact hu _ ⟨i, st, hst, hx⟩ k rfl

theorem reach_fault {u : Table} {m : Marking} {next : Nat} (hn : next < u.size)
    (hm : m.1.size = u.size) {e : Error} (h : reach u (flags u) id m next = .error e) :
    ∃ j, e.fault = .stranded id j := by
  unfold reach at h
  split at h
  · rename_i hnone
    obtain ⟨st, hst⟩ := exists_get? hn
    rw [flags_of_get? hst] at hnone
    cases hnone
  · cases h
    exact ⟨next, rfl⟩
  · split at h
    · split at h <;> cases h
    · rename_i hlt
      exact absurd (hm ▸ hn) hlt

theorem reachAll_fault {u : Table} :
    ∀ {nexts : List Nat} {m : Marking} {e : Error}, (∀ k ∈ nexts, k < u.size) →
      m.1.size = u.size → reachAll u (flags u) id nexts m = .error e →
        ∃ j, e.fault = .stranded id j
  | [], _, _, _, _, h => by cases h
  | next :: rest, m, e, hn, hm, h => by
    unfold reachAll at h
    split at h
    · rename_i e' hr
      cases h
      exact reach_fault (hn next (.head _)) hm hr
    · rename_i m' hr
      exact reachAll_fault (fun k hk => hn k (.tail _ hk)) ((reach_grows hr).1.size.trans hm) h

theorem markFrom_fault {u : Table} (hu : u.InRange) {seen : Marks} {stack : List Nat} {e : Error}
    (hs : seen.size = u.size) (h : markFrom u (flags u) seen stack = .error e) :
    ∃ i j, e.fault = .stranded i j := by
  fun_induction markFrom u (flags u) seen stack with
  | case1 => cases h
  | case2 seen id stack e' he =>
    cases h
    exact ⟨id, reachAll_fault (fun k hk => nextIndices_lt hu hk) hs he⟩
  | case3 seen id stack seen₁ stack₁ he ih =>
    exact ih ((reachAll_grows he).1.size.trans hs) h

theorem renumber_fault {u : Table} (hu : u.InRange) {e : Error}
    (h : renumber u (flags u) = .error e) :
    (∃ i j, e.fault = .stranded i j) ∨ ∃ d, e.fault = .defect d := by
  unfold renumber at h
  rcases bind_eq_error h with hr | ⟨seen, -, h⟩
  · exact .inl (markFrom_fault hu (by simp [Marks.none]) hr)
  dsimp only at h
  split at h
  · cases h
    exact .inr ⟨_, rfl⟩
  · cases h

/-! ## Renumbering a stable table -/

/-- Where every redirect leaves a table alone, unflagged states have unflagged successors. -/
theorem Stable.closedUnflagged {u : Table} (hs : Stable u) : u.ClosedUnflagged := by
  intro i k hi hk
  obtain ⟨st, hst, hx⟩ := mem_nextIndices.1 hk
  obtain ⟨n1, n2, -, ha, hb⟩ := redirect_cases (hs i st hi hst)
  rcases State.mem_successors.1 hx with e | e
  · rw [← e] at ha
    exact skip_unflagged ha
  · rw [← e] at hb
    exact skip_unflagged hb

theorem renumber_of_stable {u : Table} (hs : Stable u) (hres : u.Resolved) (h0 : 0 < u.size) :
    ∃ t', renumber u (flags u) = .ok t' := by
  obtain ⟨seen, hseen, -⟩ := reachable_ok hs.closedUnflagged h0
  have hd := keep_defect_of_resolved (reachable_marked hseen h0)
    fun i st _ hst x hx => hres x ⟨i, st, hst, hx⟩
  refine ⟨keep u seen, ?_⟩
  unfold renumber
  simp only [hseen, bind, Except.bind, hd, pure, Except.pure]

/-- What `compact` does when it fails. -/
theorem compact_error_cases {e : Error} (h : t.compact = .error e) :
    (t.size = 0 ∧ e.fault = .empty) ∨ rounds (t.size + 1) t = .error e ∨
      ∃ u flagged, rounds (t.size + 1) t = .ok (u, flagged) ∧ renumber u flagged = .error e := by
  unfold Table.compact at h
  split at h
  · cases h
    exact .inl ⟨‹_›, rfl⟩
  · rcases bind_eq_error h with hr | ⟨⟨u, flagged⟩, hr, h⟩
    · exact .inr (.inl hr)
    · exact .inr (.inr ⟨u, flagged, hr, h⟩)

end Compaction

open Compaction in
/-- Compaction never reads a missing state when transitions stay in the table, and on a well-formed
table it fails only on a cycle of pass-through states or at the round limit. -/
theorem compact_safe (t : Table) :
    (t.InRange → ∀ i u, t.compact ≠ .error ⟨.missing i, u⟩) ∧
    (t.WellFormed → ∀ e, t.compact = .error e → (∃ i, e.fault = .cycle i) ∨ e.fault = .diverged) := by
  refine ⟨fun ht i u h => ?_, fun hw e h => ?_⟩
  · rcases compact_error_cases h with ⟨-, he⟩ | hr | ⟨u', flagged, hr, hn⟩
    · cases he
    · rcases rounds_fault ht hr with ⟨j, hj⟩ | hj <;> cases hj
    · obtain ⟨rfl, -, -⟩ := rounds_converged hr
      rcases renumber_fault ((rounds_keep hr).1 ht) hn with ⟨a, b, hab⟩ | ⟨d, hd⟩
      · cases hab
      · cases hd
  · have h0 := (Table.wellFormed_iff.1 hw).1
    rcases compact_error_cases h with ⟨hz, -⟩ | hr | ⟨u, flagged, hr, hn⟩
    · omega
    · exact rounds_fault hw.inRange hr
    · -- the rounds stop at a stable table with resolved transitions, which renumbers
      obtain ⟨rfl, -, hs⟩ := rounds_converged hr
      obtain ⟨t', ht'⟩ := renumber_of_stable hs ((rounds_keep hr).2 hw.resolved)
        (by rw [(rounds_accepts hr).1]; exact h0)
      rw [ht'] at hn
      cases hn

/-- An unresolved transition reads no missing state, and a well-formed table with a cycle of
pass-through states is refused only for that cycle. -/
theorem compact_safe_unresolved_cycle :
    (Table.InRange ⟨#[⟨.branch, .state 1, .state 1⟩, ⟨.literal 'a', .unresolved, .accept⟩]⟩ ∧
      ∀ i u, Table.compact ⟨#[⟨.branch, .state 1, .state 1⟩,
        ⟨.literal 'a', .unresolved, .accept⟩]⟩ ≠ .error ⟨.missing i, u⟩) ∧
    (Table.WellFormed ⟨#[⟨.literal 'a', .state 1, .state 1⟩, ⟨.branch, .state 2, .state 2⟩,
        ⟨.branch, .state 1, .state 1⟩]⟩ ∧
      ∀ e, Table.compact ⟨#[⟨.literal 'a', .state 1, .state 1⟩, ⟨.branch, .state 2, .state 2⟩,
        ⟨.branch, .state 1, .state 1⟩]⟩ = .error e →
        (∃ i, e.fault = .cycle i) ∨ e.fault = .diverged) :=
  have h₁ : Table.InRange ⟨#[⟨.branch, .state 1, .state 1⟩,
      ⟨.literal 'a', .unresolved, .accept⟩]⟩ := by decide
  have h₂ : Table.WellFormed ⟨#[⟨.literal 'a', .state 1, .state 1⟩,
      ⟨.branch, .state 2, .state 2⟩, ⟨.branch, .state 1, .state 1⟩]⟩ := by decide
  ⟨⟨h₁, (compact_safe _).1 h₁⟩, ⟨h₂, (compact_safe _).2 h₂⟩⟩

/-! ## The compacted table -/

namespace Compaction

open Table

theorem size_keep {u : Table} {seen : Marks} (hsize : seen.size = u.size) :
    (keep u seen).size = seen.toList.count true := by
  simp only [keep, Table.size, List.size_toArray, List.length_map]
  rw [length_filterMap_marked, zip_marks_snd hsize]

/-- Compacting a pattern's table drops at least its accepting branch, which is flagged. -/
theorem compact_lt_of_compile {p : String} {t t' : Table}
    (hc : compile p { compact := false } = .ok t) (h : t.compact = .ok t') : t'.size < t.size := by
  obtain ⟨-, r, -, -, -, ht⟩ := compile_cases hc
  simp only [Bool.false_eq_true, ↓reduceIte] at ht
  subst ht
  have hsh := shaped_toTable r
  obtain ⟨s, t₀, u, seen, hs₁, hs₂, -, -, hsz, hget, -, hmid, hseen, hc'⟩ := hsh.compact_eq
  rw [hc', Except.ok.injEq] at h
  subst h
  have hlast : swapIndex s (r.toTable.size - 1) = r.toTable.size - 1 := by
    unfold swapIndex
    rw [if_neg (by omega), if_neg (by omega)]
  have ht₀ : t₀.get? (r.toTable.size - 1) = some ⟨.branch, .accept, .accept⟩ := by
    rw [hget, hlast, hsh.last]
    rfl
  have hflag : (flags u)[r.toTable.size - 1]? = some true := by
    rw [hmid.flags_eq]
    exact flagged_of_pass ht₀ (by omega)
  have hu0 : 0 < u.size := by rw [hmid.size, hsz]; omega
  have hm := reachable_marked hseen hu0
  have hlen : seen.toList.length = r.toTable.size := by
    rw [Array.length_toList, hm.size, hmid.size, hsz]
  rw [size_keep hm.size, ← hlen, List.count_lt_length_iff]
  cases hb : seen[r.toTable.size - 1]? with
  | none =>
    rw [Array.getElem?_eq_none_iff, ← Array.length_toList, hlen] at hb
    omega
  | some b =>
    refine ⟨b, Array.mem_toList_iff.2 (Array.mem_of_getElem? hb), fun e => ?_⟩
    rw [e] at hb
    rw [(reachable_sound hseen hu0 hb).1] at hflag
    cases hflag

end Compaction

open Compaction in
/-- A compacted table is well formed, reached from state 0, with no pass-through state but 0 and
no more states than before; a pattern's table loses at least one state. -/
theorem compact_result_spec {t t' : Table} (h : t.compact = .ok t') :
    t'.WellFormed ∧ (∀ j < t'.size, t'.Reaches j) ∧
    (∀ j st, j ≠ 0 → t'.get? j = some st → st.isPassThrough = false) ∧ t'.size ≤ t.size ∧
    ∀ p, compile p { compact := false } = .ok t → t'.size < t.size := by
  obtain ⟨h0, u, flagged, hr, hn⟩ := compact_cases h
  obtain ⟨rfl, -, -⟩ := rounds_converged hr
  obtain ⟨seen, hseen, rfl, hd⟩ := renumber_cases hn
  have hu0 : 0 < u.size := (rounds_accepts hr).1 ▸ h0
  have hm := reachable_marked hseen hu0
  refine ⟨hd, fun j hj => keep_reaches hseen hu0 hj,
    fun j st hj hst => keep_passThrough hseen hu0 hst hj, ?_, fun p hp => compact_lt_of_compile hp h⟩
  -- the kept states are the marked ones, at most one per state
  have hle : seen.toList.count true ≤ seen.toList.length := List.count_le_length
  rw [size_keep hm.size, ← (rounds_accepts hr).1, ← hm.size]
  simpa using hle

/-- Compaction keeps only the literal of the uncompacted table the pattern "a" builds. -/
theorem compact_result_spec_literal :
    compile "a" { compact := false } = .ok ⟨#[⟨.branch, .state 1, .state 1⟩,
        ⟨.literal 'a', .state 2, .state 2⟩, ⟨.branch, .accept, .accept⟩]⟩ ∧
    Table.compact ⟨#[⟨.branch, .state 1, .state 1⟩, ⟨.literal 'a', .state 2, .state 2⟩,
        ⟨.branch, .accept, .accept⟩]⟩ = .ok ⟨#[⟨.literal 'a', .accept, .accept⟩]⟩ ∧
    Table.WellFormed ⟨#[⟨.literal 'a', .accept, .accept⟩]⟩ ∧
    (∀ j < 1, Table.Reaches ⟨#[⟨.literal 'a', .accept, .accept⟩]⟩ j) ∧
    (∀ j st, j ≠ 0 → Table.get? ⟨#[⟨.literal 'a', .accept, .accept⟩]⟩ j = some st →
      st.isPassThrough = false) ∧ 1 ≤ 3 ∧ 1 < 3 :=
  have hc : compile "a" { compact := false } = .ok ⟨#[⟨.branch, .state 1, .state 1⟩,
      ⟨.literal 'a', .state 2, .state 2⟩, ⟨.branch, .accept, .accept⟩]⟩ := by cbv
  have h : Table.compact ⟨#[⟨.branch, .state 1, .state 1⟩, ⟨.literal 'a', .state 2, .state 2⟩,
      ⟨.branch, .accept, .accept⟩]⟩ = .ok ⟨#[⟨.literal 'a', .accept, .accept⟩]⟩ := by cbv
  have spec := compact_result_spec h
  ⟨hc, h, spec.1, spec.2.1, spec.2.2.1, spec.2.2.2.1, spec.2.2.2.2 "a" hc⟩

end TableGrep
