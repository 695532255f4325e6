import TableGrep.Table.Compact
import TableGrep.Proofs.Find

/-!
# Relabelled tables

Compaction moves states around twice: `recenter` trades state 0 with the state it passes control
to, and `renumber` keeps the states reachable from state 0, numbered in their old order. Both
relabel: the new table holds, at the new index of each state it keeps, that state with its
successors relabelled. `Relabels.accepts_iff` says that a relabelling keeps what each kept state
accepts, as long as the kept states are closed under successors.

`recenter_accepts` and `renumber_accepts` apply it: neither step changes what state 0 accepts.
-/
namespace TableGrep

namespace State

@[simp] theorem relabel_kind (f : Nat → Target) (s : State) : (s.relabel f).kind = s.kind := rfl

theorem mem_successors_relabel {f : Nat → Target} {s : State} {x : Target} :
    x ∈ (s.relabel f).successors ↔ ∃ y ∈ s.successors, x = y.relabel f := by
  simp only [mem_successors, relabel]
  constructor
  · rintro (rfl | rfl)
    · exact ⟨_, .inl rfl, rfl⟩
    · exact ⟨_, .inr rfl, rfl⟩
  · rintro ⟨y, rfl | rfl, rfl⟩
    · exact .inl rfl
    · exact .inr rfl

end State

namespace Table

/-- `t'` holds, at the new index of each state `i` with `K i`, the state `i` of `t` relabelled by
`f`; and `K` is closed under successors. -/
structure Relabels (t t' : Table) (K : Nat → Prop) (f : Nat → Target) : Prop where
  image : ∀ i, K i → ∃ j, f i = .state j ∧ t'.get? j = (t.get? i).map (·.relabel f)
  closed : ∀ i s, K i → t.get? i = some s → ∀ k, Target.state k ∈ s.successors → K k

/-- The target names no state outside `K`. -/
def Kept (K : Nat → Prop) (x : Target) : Prop := ∀ i, x = .state i → K i

namespace Relabels

variable {t t' : Table} {K : Nat → Prop} {f : Nat → Target}

theorem kept_of_mem (hr : Relabels t t' K f) {i : Nat} {s : State} (hi : K i)
    (hs : t.get? i = some s) {x : Target} (hx : x ∈ s.successors) : Kept K x := by
  rintro k rfl
  exact hr.closed i s hi hs k hx

theorem get?_image (hr : Relabels t t' K f) {i : Nat} (hi : K i) {s : State}
    (hs : t.get? i = some s) : ∃ j, f i = .state j ∧ t'.get? j = some (s.relabel f) := by
  obtain ⟨j, hj, e⟩ := hr.image i hi
  exact ⟨j, hj, by rw [e, hs, Option.map_some]⟩

/-- Runs of `t` from kept states carry over to `t'`. -/
theorem run {x y : Target} {w : List Char} (hr : Relabels t t' K f) (h : t.Run x w y)
    (hx : Kept K x) : t'.Run (x.relabel f) w (y.relabel f) := by
  induction h with
  | refl => exact .refl _
  | @branch i s x' _ _ hs hk hx' _ ih =>
    obtain ⟨j, hj, e⟩ := hr.get?_image (hx i rfl) hs
    rw [Target.relabel, hj]
    exact .branch e hk (State.mem_successors_relabel.2 ⟨x', hx', rfl⟩)
      (ih (hr.kept_of_mem (hx i rfl) hs hx'))
  | @read i s _ x' _ _ hs hc hx' _ ih =>
    obtain ⟨j, hj, e⟩ := hr.get?_image (hx i rfl) hs
    rw [Target.relabel, hj]
    exact .read e hc (State.mem_successors_relabel.2 ⟨x', hx', rfl⟩)
      (ih (hr.kept_of_mem (hx i rfl) hs hx'))

theorem of_relabel_eq_state (hr : Relabels t t' K f) {x : Target} (hx : Kept K x) {j : Nat}
    (e : x.relabel f = .state j) {s' : State} (hs' : t'.get? j = some s') :
    ∃ i s, x = .state i ∧ t.get? i = some s ∧ s' = s.relabel f := by
  cases x with
  | accept => cases e
  | unresolved => cases e
  | state i =>
    obtain ⟨j', hj', e'⟩ := hr.image i (hx i rfl)
    rw [Target.relabel, hj', Target.state.injEq] at e
    subst e
    cases hs : t.get? i with
    | none => rw [hs] at e'; rw [e'] at hs'; cases hs'
    | some s =>
      rw [hs, hs', Option.map_some, Option.some.injEq] at e'
      exact ⟨i, s, rfl, hs, e'⟩

theorem accepts_of {z : Target} {w : List Char} (hr : Relabels t t' K f) (h : t'.Accepts z w) :
    ∀ x, Kept K x → x.relabel f = z → t.Accepts x w := by
  unfold Accepts at h
  generalize ha : Target.accept = y at h
  induction h with
  | refl =>
    subst ha
    intro x hx e
    cases x with
    | accept => exact .refl _
    | unresolved => cases e
    | state i =>
      obtain ⟨j, hj, -⟩ := hr.image i (hx i rfl)
      rw [Target.relabel, hj] at e
      cases e
  | branch hs' hk hx' _ ih =>
    intro x hx e
    obtain ⟨i, s, rfl, hs, rfl⟩ := hr.of_relabel_eq_state hx e hs'
    obtain ⟨y, hy, rfl⟩ := State.mem_successors_relabel.1 hx'
    exact .branch hs hk hy (ih ha y (hr.kept_of_mem (hx i rfl) hs hy) rfl)
  | read hs' hc hx' _ ih =>
    intro x hx e
    obtain ⟨i, s, rfl, hs, rfl⟩ := hr.of_relabel_eq_state hx e hs'
    obtain ⟨y, hy, rfl⟩ := State.mem_successors_relabel.1 hx'
    exact .read hs hc hy (ih ha y (hr.kept_of_mem (hx i rfl) hs hy) rfl)

/-- A relabelling keeps what every kept target accepts. -/
theorem accepts_iff (hr : Relabels t t' K f) {x : Target} (hx : Kept K x) {w : List Char} :
    t'.Accepts (x.relabel f) w ↔ t.Accepts x w :=
  ⟨fun h => hr.accepts_of h x hx rfl, fun h => hr.run h hx⟩

end Relabels

/-- A pass-through state accepts what the state it passes control to accepts. -/
theorem accepts_pass_through {t : Table} {i : Nat} {e : State} (he : t.get? i = some e)
    (hp : e.isPassThrough = true) {w : List Char} :
    t.Accepts (.state i) w ↔ t.Accepts e.next1 w := by
  simp only [State.isPassThrough, Bool.and_eq_true, beq_iff_eq] at hp
  obtain ⟨hk, h12⟩ := hp
  unfold Accepts
  rw [run_branch_iff he (Find.isBranch_iff.1 hk)]
  simp [State.successors, h12]

/-! ## Recentring -/

theorem getElem?_swapIfInBounds {α : Type} {a : Array α} {i j : Nat} (hi : i < a.size)
    (hj : j < a.size) (k : Nat) :
    (a.swapIfInBounds i j)[k]? = a[if k = i then j else if k = j then i else k]? := by
  by_cases hk : k < a.size
  · rw [Array.getElem?_eq_getElem (by simpa using hk), Array.getElem_swapIfInBounds]
    by_cases h₁ : k = i
    · simp [h₁, hj]
    · by_cases h₂ : k = j
      · subst h₂
        simp [h₁, hi]
      · simp [h₁, h₂, hk]
  · have h₁ : k ≠ i := by omega
    have h₂ : k ≠ j := by omega
    rw [Array.getElem?_eq_none (by simpa using hk)]
    simp [h₁, h₂, Array.getElem?_eq_none (Nat.le_of_not_lt hk)]

/-- The relabelling of `recenter`: states 0 and `s` trade indices. -/
def trade (s : Nat) (i : Nat) : Target :=
  if i = s then .state 0 else if i = 0 then .state s else .state i

/-- What `recenter` can do: nothing, or trade a pass-through state 0 with its successor. -/
theorem recenter_cases {t t' : Table} {moved : Bool} (h : Compaction.recenter t = .ok (t', moved)) :
    (t' = t ∧ moved = false) ∨
    ∃ e s, t.get? 0 = some e ∧ e.isPassThrough = true ∧ e.next1 = .state s ∧ s ≠ 0 ∧
      s < t.size ∧ moved = true ∧ t' = ⟨(t.states.swapIfInBounds 0 s).map (·.relabel (trade s))⟩ := by
  unfold Compaction.recenter at h
  split at h
  · rename_i e he
    split at h
    · rename_i s hp hs
      split at h
      · cases h; exact .inl ⟨rfl, rfl⟩
      · rename_i hs0
        split at h
        · cases h
          exact .inr ⟨e, s, he, hp, hs, hs0, ‹_›, rfl, rfl⟩
        · cases h
    · cases h; exact .inl ⟨rfl, rfl⟩
  · cases h; exact .inl ⟨rfl, rfl⟩

theorem relabels_trade {t : Table} {s : Nat} (hs : s < t.size) (h0 : 0 < t.size) :
    Relabels t ⟨(t.states.swapIfInBounds 0 s).map (·.relabel (trade s))⟩ (fun _ => True)
      (trade s) where
  image i _ := by
    simp only [get?, Array.getElem?_map]
    by_cases h₁ : i = s
    · subst h₁
      refine ⟨0, by simp [trade], ?_⟩
      rw [getElem?_swapIfInBounds h0 hs]
      simp
    · by_cases h₂ : i = 0
      · subst h₂
        refine ⟨s, by simp [trade, h₁], ?_⟩
        rw [getElem?_swapIfInBounds h0 hs]
        simp [Ne.symm h₁]
      · refine ⟨i, by simp [trade, h₁, h₂], ?_⟩
        rw [getElem?_swapIfInBounds h0 hs]
        simp [h₁, h₂]
  closed _ _ _ _ _ _ := trivial

/-- Recentring keeps what state 0 accepts. -/
theorem recenter_accepts {t t' : Table} {moved : Bool} (h : Compaction.recenter t = .ok (t', moved))
    (w : List Char) : t'.Accepts (.state 0) w ↔ t.Accepts (.state 0) w := by
  rcases recenter_cases h with ⟨rfl, -⟩ | ⟨e, s, he, hp, hs, hs0, hlt, -, rfl⟩
  · exact Iff.rfl
  have h0 : 0 < t.size := lt_size_of_get? he
  have hr := relabels_trade hlt h0
  have e0 : (Target.state s).relabel (trade s) = .state 0 := by simp [Target.relabel, trade]
  have key : _ ↔ t.Accepts (.state s) w := hr.accepts_iff (fun _ _ => trivial)
  rw [e0] at key
  rw [key, accepts_pass_through he hp, hs]

end Table

namespace Compaction

/-! ## Steps that succeed and steps that fail

Compaction is a chain of steps that each may fail; these two lemmas take one step of the chain
apart. -/

theorem bind_eq_ok {ε α β : Type} {x : Except ε α} {f : α → Except ε β} {b : β}
    (h : x >>= f = .ok b) : ∃ a, x = .ok a ∧ f a = .ok b := by
  cases x with
  | error e => cases h
  | ok a => exact ⟨a, rfl, h⟩

theorem bind_eq_error {ε α β : Type} {x : Except ε α} {f : α → Except ε β} {e : ε}
    (h : x >>= f = .error e) : x = .error e ∨ ∃ a, x = .ok a ∧ f a = .error e := by
  cases x with
  | error e' =>
    simp only [bind, Except.bind, Except.error.injEq] at h
    rw [h]
    exact .inl rfl
  | ok a => exact .inr ⟨a, rfl, h⟩

/-! ## The states reachable from state 0 -/

theorem mem_nextIndices {t : Table} {i k : Nat} :
    k ∈ nextIndices t i ↔ ∃ s, t.get? i = some s ∧ Target.state k ∈ s.successors := by
  unfold nextIndices
  cases t.get? i with
  | none => simp
  | some s =>
    simp only [Option.map_some, Option.getD_some, List.mem_filterMap, Option.some.injEq,
      exists_eq_left']
    constructor
    · rintro ⟨x, hx, e⟩
      cases x with
      | state j => cases e; exact hx
      | accept => cases e
      | unresolved => cases e
    · intro hx
      exact ⟨_, hx, rfl⟩

/-- `m'` extends the marking `m`: same size, more marks, a longer stack, and every new mark on
the stack. -/
structure Grows (m m' : Marking) : Prop where
  size : m'.1.size = m.1.size
  marks : ∀ i : Nat, m.1[i]? = some true → m'.1[i]? = some true
  stack : ∀ i ∈ m.2, i ∈ m'.2
  fresh : ∀ i : Nat, m'.1[i]? = some true → m.1[i]? = some true ∨ i ∈ m'.2
  pushed : ∀ i ∈ m'.2, i ∈ m.2 ∨ m'.1[i]? = some true

theorem Grows.refl (m : Marking) : Grows m m :=
  ⟨rfl, fun _ h => h, fun _ h => h, fun _ h => .inl h, fun _ h => .inl h⟩

theorem Grows.trans {m m' m'' : Marking} (h₁ : Grows m m') (h₂ : Grows m' m'') : Grows m m'' where
  size := h₂.size.trans h₁.size
  marks i h := h₂.marks i (h₁.marks i h)
  stack i h := h₂.stack i (h₁.stack i h)
  fresh i h := by
    rcases h₂.fresh i h with h | h
    · rcases h₁.fresh i h with h | h
      · exact .inl h
      · exact .inr (h₂.stack i h)
    · exact .inr h
  pushed i h := by
    rcases h₂.pushed i h with h | h
    · rcases h₁.pushed i h with h | h
      · exact .inl h
      · exact .inr (h₂.marks i h)
    · exact .inr h

variable {t : Table} {flagged : Array Bool} {id : Nat}

theorem reach_grows {m m' : Marking} {next : Nat} (h : reach t flagged id m next = .ok m') :
    Grows m m' ∧ m'.1[next]? = some true := by
  unfold reach at h
  split at h
  · cases h
  · cases h
  · split at h
    · rename_i hn
      split at h
      · cases h
        exact ⟨.refl _, by simp [*]⟩
      · cases h
        refine ⟨⟨by simp, fun i hi => ?_, fun i hi => .tail _ hi, fun i hi => ?_,
          fun i hi => ?_⟩, by simp⟩
        · rw [Find.set_getElem?]
          split <;> simp_all
        · rw [Find.set_getElem?] at hi
          split at hi
          · exact .inr (by simp_all)
          · exact .inl hi
        · rcases List.mem_cons.1 hi with rfl | hi
          · exact .inr (by simp)
          · exact .inl hi
    · cases h

theorem reachAll_grows {nexts : List Nat} {m m' : Marking}
    (h : reachAll t flagged id nexts m = .ok m') :
    Grows m m' ∧ ∀ k ∈ nexts, m'.1[k]? = some true := by
  induction nexts generalizing m with
  | nil => cases h; exact ⟨.refl _, by simp⟩
  | cons next rest ih =>
    unfold reachAll at h
    split at h
    · cases h
    · rename_i m₁ hr
      obtain ⟨g₁, hk⟩ := reach_grows hr
      obtain ⟨g₂, hks⟩ := ih h
      refine ⟨g₁.trans g₂, ?_⟩
      rintro k (_ | ⟨_, hk'⟩)
      · exact g₂.marks _ hk
      · exact hks k hk'

/-- What a marking in progress keeps: state 0 is marked, so is the stack, and a marked state off
the stack has its successors marked. -/
structure Marked (t : Table) (m : Marking) : Prop where
  size : m.1.size = t.size
  zero : m.1[0]? = some true
  stack : ∀ i ∈ m.2, m.1[i]? = some true
  closed : ∀ i : Nat, m.1[i]? = some true → i ∉ m.2 → ∀ k ∈ nextIndices t i, m.1[k]? = some true

theorem markFrom_marked {seen : Marks} {stack : List Nat} {seen' : Marks}
    (h : markFrom t flagged seen stack = .ok seen') (hm : Marked t (seen, stack)) :
    Marked t (seen', []) := by
  fun_induction markFrom t flagged seen stack with
  | case1 seen => cases h; exact hm
  | case2 => cases h
  | case3 seen id stack seen₁ stack₁ he ih =>
    apply ih h
    obtain ⟨g, hk⟩ := reachAll_grows he
    refine ⟨g.size.trans hm.size, g.marks 0 hm.zero, fun i hi => ?_, fun i hi hi' k hk' => ?_⟩
    · rcases g.pushed i hi with hi | hi
      · exact g.marks i (hm.stack i (.tail _ hi))
      · exact hi
    · rcases g.fresh i hi with hi | hi
      · by_cases hid : i = id
        · subst hid
          exact hk k hk'
        · have hns : i ∉ id :: stack := by
            rintro (_ | ⟨_, hs⟩)
            · exact hid rfl
            · exact hi' (g.stack i hs)
          exact g.marks k (hm.closed i hi hns k hk')
      · exact (hi' hi).elim

theorem reachable_marked {seen : Marks} (h : reachable t flagged = .ok seen) (h0 : 0 < t.size) :
    Marked t (seen, []) := by
  refine markFrom_marked h ⟨by simp [Marks.none], ?_, ?_, ?_⟩
  · simp [Marks.none, h0]
  · simp [Marks.none, h0]
  · intro i hi hi'
    simp only [Marks.none, Array.set!_eq_setIfInBounds, Array.getElem?_setIfInBounds,
      Array.size_replicate] at hi
    split at hi
    · subst_vars
      exact (hi' (List.mem_singleton_self _)).elim
    · simp [Array.getElem?_replicate] at hi

/-! ## Keeping the marked states -/

/-- The marked entry at new index `i` has `i` marked entries before it. -/
theorem getElem?_filterMap_marked {α : Type} :
    ∀ (l : List (α × Bool)) (i : Nat) (h : i < l.length), l[i].2 = true →
      (l.filterMap fun p => if p.2 then some p.1 else none)[((l.map Prod.snd).take i).count true]?
        = some l[i].1
  | [], _, h, _ => absurd h (by simp)
  | p :: l, 0, _, hp => by simp_all
  | p :: l, i + 1, h, hp => by
    have ih := getElem?_filterMap_marked l i (by simpa using h) hp
    cases hb : p.2
    · simp_all
    · simp only [List.filterMap_cons, hb, if_true, List.map_cons, List.take_succ_cons,
        List.count_cons_self, List.getElem?_cons_succ]
      simpa using ih

theorem length_filterMap_marked {α : Type} (l : List (α × Bool)) :
    (l.filterMap fun p => if p.2 then some p.1 else none).length = (l.map Prod.snd).count true := by
  induction l with
  | nil => rfl
  | cons p l ih => cases hp : p.2 <;> simp [hp, ih]

theorem filterMap_marked_replicate {α : Type} (l : List α) :
    ((l.zip (List.replicate l.length true)).filterMap fun p => if p.2 then some p.1 else none) =
      l := by
  induction l with
  | nil => rfl
  | cons a l ih => simp [List.replicate_succ, ih]

theorem zip_marks_snd {seen : Marks} (hsize : seen.size = t.size) :
    (t.states.toList.zip seen.toList).map Prod.snd = seen.toList :=
  List.map_snd_zip (by simp [Table.size] at hsize ⊢; omega)

theorem keep_get? {seen : Marks} (hsize : seen.size = t.size) {i : Nat}
    (hi : seen[i]? = some true) :
    (keep t seen).get? ((seen.toList.take i).count true) =
      (t.get? i).map (·.relabel fun j => ((newIndex seen j).map .state).getD .unresolved) := by
  obtain ⟨hlt, -⟩ := Array.getElem?_eq_some_iff.1 hi
  have key := getElem?_filterMap_marked (t.states.toList.zip seen.toList) i
    (by simp [Table.size] at hsize ⊢; omega) (by simpa [Array.getElem?_eq_getElem hlt] using hi)
  rw [zip_marks_snd hsize] at key
  simp only [keep, Table.get?, List.getElem?_toArray, List.getElem?_map]
  rw [key]
  simp [Array.getElem?_eq_getElem (show i < t.states.size by simp [Table.size] at hsize; omega)]

theorem renumber_cases {t' : Table} (h : renumber t flagged = .ok t') :
    ∃ seen, reachable t flagged = .ok seen ∧ t' = keep t seen ∧ (keep t seen).defect? = none := by
  unfold renumber at h
  obtain ⟨seen, hr, h⟩ := bind_eq_ok h
  dsimp only at h
  split at h
  · cases h
  · rename_i hd
    cases h
    exact ⟨seen, hr, rfl, hd⟩

theorem relabels_keep {seen : Marks} (hm : Marked t (seen, [])) :
    Table.Relabels t (keep t seen) (fun i => seen[i]? = some true)
      (fun j => ((newIndex seen j).map .state).getD .unresolved) where
  image i hi := ⟨_, by simp [newIndex, hi], keep_get? hm.size hi⟩
  closed i s hi hs k hk :=
    hm.closed i hi (List.not_mem_nil) k (mem_nextIndices.2 ⟨s, hs, hk⟩)

/-- Keeping the states reachable from state 0 keeps what state 0 accepts. -/
theorem renumber_accepts {t' : Table} (h : renumber t flagged = .ok t') (h0 : 0 < t.size)
    (w : List Char) : t'.Accepts (.state 0) w ↔ t.Accepts (.state 0) w := by
  obtain ⟨seen, hr, rfl, -⟩ := renumber_cases h
  have hm := reachable_marked hr h0
  have key : _ ↔ t.Accepts (.state 0) w :=
    (relabels_keep hm).accepts_iff (by rintro i ⟨⟩; exact hm.zero)
  simpa [Target.relabel, newIndex, hm.zero] using key

end Compaction

end TableGrep
