import Mathlib.Data.Finset.Card
import TableGrep.Proofs.CompactOutcome

/-!
# The chains compaction follows

`skip` walks from a target along the first successors of flagged states, and `chase` walks from
a pair of equal successors into the branch they name. Neither remembers the states it passes:
each counts its steps and gives up after more steps than the table has states.

Both follow one kind of chain: a partial `hop` names the state a step passes and where the chain
goes on (`skipHop`, `chaseHop`), and `follow` takes such steps with fuel (`skip_eq_follow`,
`chase_eq_follow`). A step names the place it starts from, so a walk that reaches the end of the
chain passes no state twice (`Walk.nodup`), and every walk is a prefix of that one
(`Walk.initial`). With as much fuel as there are states, following a chain ends exactly when a
walk reaches its end, and runs out exactly when a walk passes some state twice (`follow_ok_iff`,
`follow_loop_iff`): the step limit never stops a chain without a repeated state, however long.
-/

namespace TableGrep

namespace Compaction

section Chain

variable {α : Type} {hop : α → Option (Nat × α)}

/-- Follow a chain with `fuel` steps to spare. -/
def follow (hop : α → Option (Nat × α)) : Nat → α → Except Snag α
  | fuel, x =>
    match hop x with
    | none => .ok x
    | some (_, y) =>
      match fuel with
      | 0 => .error .loop
      | fuel + 1 => follow hop fuel y

theorem follow_none {fuel : Nat} {x : α} (h : hop x = none) : follow hop fuel x = .ok x := by
  rw [follow, h]

theorem follow_zero {x y : α} {i : Nat} (h : hop x = some (i, y)) :
    follow hop 0 x = .error .loop := by
  rw [follow, h]

theorem follow_succ {fuel : Nat} {x y : α} {i : Nat} (h : hop x = some (i, y)) :
    follow hop (fuel + 1) x = follow hop fuel y := by
  rw [follow, h]

/-- A walk from `x` to `y` along the chain, passing the states `path`. -/
inductive Walk (hop : α → Option (Nat × α)) : α → List Nat → α → Prop
  | nil (x : α) : Walk hop x [] x
  | cons {x y z : α} {i : Nat} {path : List Nat} :
      hop x = some (i, y) → Walk hop y path z → Walk hop x (i :: path) z

/-- A step names the place it starts from: two steps through one state start at one place. -/
def Keyed (hop : α → Option (Nat × α)) : Prop :=
  ∀ x x' i y y', hop x = some (i, y) → hop x' = some (i, y') → x = x'

/-- Every step passes a state below `n`. -/
def Bounded (hop : α → Option (Nat × α)) (n : Nat) : Prop :=
  ∀ x i y, hop x = some (i, y) → i < n

theorem Walk.initial {x y z : α} {p q : List Nat} (hp : Walk hop x p y) (hq : Walk hop x q z)
    (hz : hop z = none) : p <+: q := by
  induction hp generalizing q with
  | nil => exact List.nil_prefix
  | cons hx _ ih =>
    cases hq with
    | nil => rw [hz] at hx; cases hx
    | cons hx' hq' =>
      rw [hx] at hx'
      obtain ⟨rfl, rfl⟩ := Prod.mk.inj (Option.some.inj hx')
      exact List.cons_prefix_cons.2 ⟨rfl, ih hq'⟩

theorem Walk.split {x y : α} {i : Nat} :
    ∀ {a b : List Nat}, Walk hop x (a ++ i :: b) y → ∃ w w', hop w = some (i, w') ∧ Walk hop w' b y
  | [], b, h => by
    rw [List.nil_append] at h
    cases h with
    | cons hx hw => exact ⟨_, _, hx, hw⟩
  | j :: a, b, h => by
    cases h with
    | cons _ hw => exact Walk.split hw

/-- A walk that reaches the end of a keyed chain passes no state twice. -/
theorem Walk.nodup (hk : Keyed hop) {x y : α} {p : List Nat} (h : Walk hop x p y)
    (hy : hop y = none) : p.Nodup := by
  induction h with
  | nil => exact List.nodup_nil
  | @cons x x' z i path hx hw ih =>
    refine List.nodup_cons.2 ⟨fun hi => ?_, ih hy⟩
    -- passing `i` again starts at `x` again, so the walk from `x` would also end sooner
    obtain ⟨a, b, rfl⟩ := List.append_of_mem hi
    obtain ⟨w, w', hw', hb⟩ := hw.split
    obtain rfl := hk _ _ _ _ _ hw' hx
    have hl := ((Walk.cons hx hw).initial (Walk.cons hw' hb) hy).length_le
    simp only [List.length_cons, List.length_append] at hl
    omega

theorem Walk.lt {n : Nat} (hb : Bounded hop n) {x y : α} {p : List Nat} (h : Walk hop x p y) :
    ∀ i ∈ p, i < n := by
  induction h with
  | nil => simp
  | cons hx _ ih =>
    intro i hi
    rcases List.mem_cons.1 hi with rfl | hi
    · exact hb _ _ _ hx
    · exact ih i hi

theorem length_le_of_nodup {p : List Nat} {n : Nat} (hp : p.Nodup) (hlt : ∀ i ∈ p, i < n) :
    p.length ≤ n := by
  rw [← List.toFinset_card_of_nodup hp, ← Finset.card_range n]
  exact Finset.card_le_card fun i hi => Finset.mem_range.2 (hlt i (List.mem_toFinset.1 hi))

theorem follow_walk {fuel : Nat} {x y : α} (h : follow hop fuel x = .ok y) :
    ∃ p, Walk hop x p y ∧ hop y = none ∧ p.length ≤ fuel := by
  fun_induction follow hop fuel x with
  | case1 _ x hx => cases h; exact ⟨[], .nil _, hx, Nat.zero_le _⟩
  | case2 => cases h
  | case3 x i y hx fuel ih =>
    obtain ⟨p, hw, hy, hl⟩ := ih h
    exact ⟨i :: p, .cons hx hw, hy, by simp only [List.length_cons]; omega⟩

theorem follow_loop {fuel : Nat} {x : α} {e : Snag} (h : follow hop fuel x = .error e) :
    e = .loop ∧ ∃ p y, Walk hop x p y ∧ p.length = fuel + 1 := by
  fun_induction follow hop fuel x with
  | case1 => cases h
  | case2 x i y hx =>
    cases h
    exact ⟨rfl, [i], y, .cons hx (.nil _), rfl⟩
  | case3 x i y hx fuel ih =>
    obtain ⟨rfl, p, z, hw, hl⟩ := ih h
    exact ⟨rfl, i :: p, z, .cons hx hw, by simp [hl]⟩

theorem follow_of_walk {x y : α} {p : List Nat} (h : Walk hop x p y) (hy : hop y = none) :
    ∀ {fuel : Nat}, p.length ≤ fuel → follow hop fuel x = .ok y := by
  induction h with
  | nil x => exact fun _ => follow_none hy
  | @cons x x' z i path hx _ ih =>
    intro fuel hl
    simp only [List.length_cons] at hl
    obtain ⟨fuel, rfl⟩ : ∃ f, fuel = f + 1 := ⟨fuel - 1, by omega⟩
    rw [follow_succ hx]
    exact ih hy (by omega)

variable {n : Nat} (hk : Keyed hop) (hb : Bounded hop n)
include hk hb

/-- With fuel for every state, following ends exactly where a walk reaches the chain's end. -/
theorem follow_ok_iff {x y : α} : follow hop n x = .ok y ↔ ∃ p, Walk hop x p y ∧ hop y = none := by
  refine ⟨fun h => ?_, fun ⟨p, hw, hy⟩ => ?_⟩
  · obtain ⟨p, hw, hy, -⟩ := follow_walk h
    exact ⟨p, hw, hy⟩
  · exact follow_of_walk hw hy (length_le_of_nodup (hw.nodup hk hy) (hw.lt hb))

/-- With fuel for every state, following runs out exactly when a walk repeats a state. -/
theorem follow_loop_iff {x : α} :
    follow hop n x = .error .loop ↔ ∃ p y, Walk hop x p y ∧ ¬ p.Nodup := by
  refine ⟨fun h => ?_, fun ⟨p, y, hw, hn⟩ => ?_⟩
  · obtain ⟨-, p, y, hw, hl⟩ := follow_loop h
    refine ⟨p, y, hw, fun hp => ?_⟩
    have := length_le_of_nodup hp (hw.lt hb)
    omega
  · cases hf : follow hop n x with
    | error e => rw [(follow_loop hf).1]
    | ok z =>
      -- the walk that ends repeats nothing, and the repeating walk is a prefix of it
      obtain ⟨q, hq, hz, -⟩ := follow_walk hf
      exact absurd ((hq.nodup hk hz).sublist (hw.initial hq hz).sublist) hn

end Chain

/-! ## Skipping and chasing as chains -/

/-- A step of `skip`: a flagged state is passed on to its first successor. -/
def skipHop (t : Table) (flagged : Array Bool) : Target → Option (Nat × Target)
  | .state i => if flagged[i]? = some true then (t.get? i).map fun s => (i, s.next1) else none
  | _ => none

/-- A step of `chase` for the state `id`: equal successors naming a branch other than `id` give
way to that branch's successors. -/
def chaseHop (t : Table) (id : Nat) (p : Target × Target) : Option (Nat × (Target × Target)) :=
  if p.1 = p.2 then
    match p.1 with
    | .state m =>
      if m = id then none
      else (t.get? m).bind fun s => if s.kind.isBranch then some (m, (s.next1, s.next2)) else none
    | _ => none
  else none

open Table

variable {t : Table} {flagged : Array Bool}

theorem skipHop_flagged {i : Nat} {s : State} (hf : flagged[i]? = some true)
    (hs : t.get? i = some s) : skipHop t flagged (.state i) = some (i, s.next1) := by
  rw [skipHop, if_pos hf, hs]
  rfl

theorem skipHop_unflagged {i : Nat} (hf : flagged[i]? ≠ some true) :
    skipHop t flagged (.state i) = none := by
  rw [skipHop, if_neg hf]

theorem skipHop_not_state {x : Target} (hx : ∀ m, x ≠ .state m) : skipHop t flagged x = none := by
  cases x with
  | state m => exact absurd rfl (hx m)
  | accept => rfl
  | unresolved => rfl

theorem skipHop_eq_some {x : Target} {i : Nat} {y : Target}
    (h : skipHop t flagged x = some (i, y)) :
    x = .state i ∧ flagged[i]? = some true ∧ ∃ s, t.get? i = some s ∧ y = s.next1 := by
  cases x with
  | state j =>
    by_cases hf : flagged[j]? = some true
    · rw [skipHop, if_pos hf] at h
      obtain ⟨s, hs, he⟩ := Option.map_eq_some_iff.1 h
      obtain ⟨rfl, rfl⟩ := Prod.mk.inj he
      exact ⟨rfl, hf, s, hs, rfl⟩
    · rw [skipHop_unflagged hf] at h
      cases h
  | accept => cases h
  | unresolved => cases h

theorem chaseHop_branch {id m : Nat} {s : State} (hm : m ≠ id) (hs : t.get? m = some s)
    (hk : s.kind.isBranch = true) :
    chaseHop t id (.state m, .state m) = some (m, (s.next1, s.next2)) := by
  simp [chaseHop, hm, hs, hk]

theorem chaseHop_self {id : Nat} : chaseHop t id (.state id, .state id) = none := by
  simp [chaseHop]

theorem chaseHop_read {id m : Nat} {s : State} (hs : t.get? m = some s)
    (hk : ¬ s.kind.isBranch = true) : chaseHop t id (.state m, .state m) = none := by
  simp [chaseHop, hs, hk]

theorem chaseHop_not_state {id : Nat} {x : Target} (hx : ∀ m, x ≠ .state m) :
    chaseHop t id (x, x) = none := by
  cases x with
  | state m => exact absurd rfl (hx m)
  | accept => simp [chaseHop]
  | unresolved => simp [chaseHop]

theorem chaseHop_ne {id : Nat} {a b : Target} (h : a ≠ b) : chaseHop t id (a, b) = none := by
  simp [chaseHop, h]

theorem chaseHop_eq_some {id : Nat} {p q : Target × Target} {m : Nat}
    (h : chaseHop t id p = some (m, q)) :
    p = (.state m, .state m) ∧ m ≠ id ∧ ∃ s, t.get? m = some s ∧ s.kind = .branch ∧
      q = (s.next1, s.next2) := by
  obtain ⟨a, b⟩ := p
  by_cases hab : a = b
  · subst hab
    cases a with
    | state j =>
      by_cases hj : j = id
      · subst hj
        rw [chaseHop_self] at h
        cases h
      cases hs : t.get? j with
      | none => simp [chaseHop, hj, hs] at h
      | some s =>
        by_cases hk : s.kind.isBranch = true
        · rw [chaseHop_branch hj hs hk] at h
          obtain ⟨rfl, rfl⟩ := Prod.mk.inj (Option.some.inj h)
          exact ⟨rfl, hj, s, hs, Find.isBranch_iff.1 hk, rfl⟩
        · rw [chaseHop_read hs hk] at h
          cases h
    | accept => rw [chaseHop_not_state (by simp)] at h; cases h
    | unresolved => rw [chaseHop_not_state (by simp)] at h; cases h
  · rw [chaseHop_ne hab] at h
    cases h

theorem skipHop_keyed : Keyed (skipHop t flagged) := by
  intro x x' i y y' h h'
  rw [(skipHop_eq_some h).1, (skipHop_eq_some h').1]

theorem chaseHop_keyed {id : Nat} : Keyed (chaseHop t id) := by
  intro x x' i y y' h h'
  rw [(chaseHop_eq_some h).1, (chaseHop_eq_some h').1]

theorem skipHop_bounded : Bounded (skipHop t flagged) t.size := by
  intro x i y h
  obtain ⟨-, -, s, hs, -⟩ := skipHop_eq_some h
  exact lt_size_of_get? hs

theorem chaseHop_bounded {id : Nat} : Bounded (chaseHop t id) t.size := by
  intro x i y h
  obtain ⟨-, -, s, hs, -⟩ := chaseHop_eq_some h
  exact lt_size_of_get? hs

/-- On a table whose transitions stay in it, `skip` follows its chain. -/
theorem skip_eq_follow (ht : t.InRange) (hf : flagged.size = t.size) {fuel : Nat} {x : Target}
    (hx : x.Below t.size) : skip t flagged fuel x = follow (skipHop t flagged) fuel x := by
  fun_induction skip t flagged fuel x with
  | case1 _ i hnone =>
    have := hx i rfl
    rw [Array.getElem?_eq_none_iff] at hnone
    omega
  | case2 _ i hflag => rw [follow_none (skipHop_unflagged (by rw [hflag]; simp))]
  | case3 i hflag =>
    obtain ⟨s, hs⟩ := exists_get? (hx i rfl)
    rw [follow_zero (skipHop_flagged hflag hs)]
  | case4 _ i _ hnone _ =>
    rw [get?_eq_none_iff] at hnone
    have := hx i rfl
    omega
  | case5 i hflag _ s hs ih => rw [ih (ht.next1_below hs), follow_succ (skipHop_flagged hflag hs)]
  | case6 _ x hx' => rw [follow_none (skipHop_not_state fun m e => hx' m e)]

/-- On a table whose transitions stay in it, `chase` follows its chain. -/
theorem chase_eq_follow (ht : t.InRange) {id fuel : Nat} {n1 n2 : Target} (h1 : n1.Below t.size) :
    chase t id fuel n1 n2 = follow (chaseHop t id) fuel (n1, n2) := by
  fun_induction chase t id fuel n1 n2 with
  | case1 => rw [follow_none chaseHop_self]
  | case2 _ next _ hnone =>
    rw [get?_eq_none_iff] at hnone
    have := h1 next rfl
    omega
  | case3 next hne s hs hk => rw [follow_zero (chaseHop_branch hne hs hk)]
  | case4 next hne s hs hk _ ih =>
    rw [ih (ht.next1_below hs), follow_succ (chaseHop_branch hne hs hk)]
  | case5 _ next _ s hs hk => rw [follow_none (chaseHop_read hs hk)]
  | case6 _ x hx => rw [follow_none (chaseHop_not_state fun m e => hx m e)]
  | case7 _ a b hne => rw [follow_none (chaseHop_ne hne)]

/-! ## What `skip` and `redirect` give back -/

section InRange

variable (ht : t.InRange)
include ht

theorem redirect_loop_cases (hf : flagged.size = t.size) {id : Nat} {s : State}
    (hs : t.get? id = some s) :
    redirect t flagged id s = .error .loop ↔ chase t id t.size s.next1 s.next2 = .error .loop ∨
      ∃ q, chase t id t.size s.next1 s.next2 = .ok q ∧
        (skip t flagged t.size q.1 = .error .loop ∨ skip t flagged t.size q.2 = .error .loop) := by
  constructor
  · intro h
    unfold redirect at h
    rcases bind_eq_error h with hc | ⟨q, hc, h⟩
    · exact .inl hc
    dsimp only at h
    rcases bind_eq_error h with ha | ⟨a, -, h⟩
    · exact .inr ⟨q, hc, .inl ha⟩
    rcases bind_eq_error h with hb | ⟨b, -, h⟩
    · exact .inr ⟨q, hc, .inr hb⟩
    · cases h
  · rintro (hc | ⟨⟨n1, n2⟩, hc, hq⟩)
    · simp [redirect, hc, bind, Except.bind]
    -- a skip from a successor in range fails only by running out of steps
    have he : ∀ e, skip t flagged t.size n1 = .error e → e = .loop :=
      fun e h => skip_fault ht hf (ht _ (chase_successor hs hc (.inl rfl))) h
    cases ha : skip t flagged t.size n1 with
    | error e =>
      rw [he e ha] at ha
      simp [redirect, hc, ha, bind, Except.bind]
    | ok a =>
      rcases hq with hq | hq
      · rw [ha] at hq
        cases hq
      · simp only at hq
        simp [redirect, hc, ha, hq, bind, Except.bind]

variable (hf : flagged.size = t.size)
include hf

theorem skip_ok_iff {x u : Target} (hx : x.Below t.size) :
    skip t flagged t.size x = .ok u ↔
      ∃ p, Walk (skipHop t flagged) x p u ∧ skipHop t flagged u = none := by
  rw [skip_eq_follow ht hf hx]
  exact follow_ok_iff skipHop_keyed skipHop_bounded

theorem skip_loop_iff {x : Target} (hx : x.Below t.size) :
    skip t flagged t.size x = .error .loop ↔
      ∃ p y, Walk (skipHop t flagged) x p y ∧ ¬ p.Nodup := by
  rw [skip_eq_follow ht hf hx]
  exact follow_loop_iff skipHop_keyed skipHop_bounded

/-- A redirect runs out exactly when the walk of its chase or of a skip after it repeats a state. -/
theorem redirect_loop_iff {id : Nat} {s : State} (hs : t.get? id = some s) :
    redirect t flagged id s = .error .loop ↔
      (∃ p q, Walk (chaseHop t id) (s.next1, s.next2) p q ∧ ¬ p.Nodup) ∨
      ∃ q, (∃ p, Walk (chaseHop t id) (s.next1, s.next2) p q ∧ chaseHop t id q = none) ∧
        ((∃ w y, Walk (skipHop t flagged) q.1 w y ∧ ¬ w.Nodup) ∨
          ∃ w y, Walk (skipHop t flagged) q.2 w y ∧ ¬ w.Nodup) := by
  have hc : chase t id t.size s.next1 s.next2 = follow (chaseHop t id) t.size (s.next1, s.next2) :=
    chase_eq_follow ht (ht.next1_below hs)
  rw [redirect_loop_cases ht hf hs, hc, follow_loop_iff chaseHop_keyed chaseHop_bounded]
  refine or_congr_right (exists_congr fun q => ?_)
  rw [← follow_ok_iff chaseHop_keyed chaseHop_bounded]
  refine and_congr_right fun hq => ?_
  -- the chase ends at successors of states, which lie in the table
  rw [← hc] at hq
  rw [skip_loop_iff ht hf (ht _ (chase_successor hs hq (.inl rfl))),
    skip_loop_iff ht hf (ht _ (chase_successor hs hq (.inr rfl)))]

end InRange

end Compaction

open Compaction in
/-- With as many steps as the table has states, `skip` and `redirect` give up exactly on a
repeated state, and otherwise end where their walks do: the step limit never stops a walk without
a repeated state, however long it is. -/
theorem step_limits_iff_repeat {t : Table} {flagged : Array Bool} (ht : t.InRange)
    (hf : flagged.size = t.size) :
    (∀ x, x.Below t.size →
      (∀ u, skip t flagged t.size x = .ok u ↔
        ∃ p, Walk (skipHop t flagged) x p u ∧ skipHop t flagged u = none) ∧
      (skip t flagged t.size x = .error .loop ↔
        ∃ p y, Walk (skipHop t flagged) x p y ∧ ¬ p.Nodup)) ∧
    ∀ id s, t.get? id = some s →
      (redirect t flagged id s = .error .loop ↔
        (∃ p q, Walk (chaseHop t id) (s.next1, s.next2) p q ∧ ¬ p.Nodup) ∨
        ∃ q, (∃ p, Walk (chaseHop t id) (s.next1, s.next2) p q ∧ chaseHop t id q = none) ∧
          ((∃ w y, Walk (skipHop t flagged) q.1 w y ∧ ¬ w.Nodup) ∨
            ∃ w y, Walk (skipHop t flagged) q.2 w y ∧ ¬ w.Nodup)) :=
  ⟨fun _ hx => ⟨fun _ => skip_ok_iff ht hf hx, skip_loop_iff ht hf hx⟩,
    fun _ _ hs => redirect_loop_iff ht hf hs⟩

open Compaction in
/-- The table whose states 1 and 2 pass control to each other, flagged as compaction flags it. -/
theorem step_limits_iff_repeat_cycle :
    Table.InRange ⟨#[⟨.literal 'a', .state 1, .state 1⟩, ⟨.branch, .state 2, .state 2⟩,
        ⟨.branch, .state 1, .state 1⟩]⟩ ∧
      (#[false, true, true] : Array Bool).size = Table.size ⟨#[⟨.literal 'a', .state 1, .state 1⟩,
        ⟨.branch, .state 2, .state 2⟩, ⟨.branch, .state 1, .state 1⟩]⟩ ∧
    ((∀ x, x.Below 3 →
      (∀ u, skip ⟨#[⟨.literal 'a', .state 1, .state 1⟩, ⟨.branch, .state 2, .state 2⟩,
          ⟨.branch, .state 1, .state 1⟩]⟩ #[false, true, true] 3 x = .ok u ↔
        ∃ p, Walk (skipHop ⟨#[⟨.literal 'a', .state 1, .state 1⟩, ⟨.branch, .state 2, .state 2⟩,
          ⟨.branch, .state 1, .state 1⟩]⟩ #[false, true, true]) x p u ∧
          skipHop ⟨#[⟨.literal 'a', .state 1, .state 1⟩, ⟨.branch, .state 2, .state 2⟩,
            ⟨.branch, .state 1, .state 1⟩]⟩ #[false, true, true] u = none) ∧
      (skip ⟨#[⟨.literal 'a', .state 1, .state 1⟩, ⟨.branch, .state 2, .state 2⟩,
          ⟨.branch, .state 1, .state 1⟩]⟩ #[false, true, true] 3 x = .error .loop ↔
        ∃ p y, Walk (skipHop ⟨#[⟨.literal 'a', .state 1, .state 1⟩, ⟨.branch, .state 2, .state 2⟩,
          ⟨.branch, .state 1, .state 1⟩]⟩ #[false, true, true]) x p y ∧ ¬ p.Nodup)) ∧
    ∀ id s, Table.get? ⟨#[⟨.literal 'a', .state 1, .state 1⟩, ⟨.branch, .state 2, .state 2⟩,
        ⟨.branch, .state 1, .state 1⟩]⟩ id = some s →
      (redirect ⟨#[⟨.literal 'a', .state 1, .state 1⟩, ⟨.branch, .state 2, .state 2⟩,
          ⟨.branch, .state 1, .state 1⟩]⟩ #[false, true, true] id s = .error .loop ↔
        (∃ p q, Walk (chaseHop ⟨#[⟨.literal 'a', .state 1, .state 1⟩,
          ⟨.branch, .state 2, .state 2⟩, ⟨.branch, .state 1, .state 1⟩]⟩ id)
            (s.next1, s.next2) p q ∧ ¬ p.Nodup) ∨
        ∃ q, (∃ p, Walk (chaseHop ⟨#[⟨.literal 'a', .state 1, .state 1⟩,
          ⟨.branch, .state 2, .state 2⟩, ⟨.branch, .state 1, .state 1⟩]⟩ id)
            (s.next1, s.next2) p q ∧ chaseHop ⟨#[⟨.literal 'a', .state 1, .state 1⟩,
              ⟨.branch, .state 2, .state 2⟩, ⟨.branch, .state 1, .state 1⟩]⟩ id q = none) ∧
          ((∃ w y, Walk (skipHop ⟨#[⟨.literal 'a', .state 1, .state 1⟩,
            ⟨.branch, .state 2, .state 2⟩, ⟨.branch, .state 1, .state 1⟩]⟩ #[false, true, true])
              q.1 w y ∧ ¬ w.Nodup) ∨
            ∃ w y, Walk (skipHop ⟨#[⟨.literal 'a', .state 1, .state 1⟩,
              ⟨.branch, .state 2, .state 2⟩, ⟨.branch, .state 1, .state 1⟩]⟩ #[false, true, true])
                q.2 w y ∧ ¬ w.Nodup))) :=
  have h : Table.InRange ⟨#[⟨.literal 'a', .state 1, .state 1⟩, ⟨.branch, .state 2, .state 2⟩,
      ⟨.branch, .state 1, .state 1⟩]⟩ := by decide
  ⟨h, rfl, step_limits_iff_repeat h rfl⟩

end TableGrep
