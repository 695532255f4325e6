import TableGrep.Proofs.Shape

/-!
# What one construct leaves behind

Laying out a pattern after any table keeps the table's states, appends states from its size on,
and ends at the last state appended, which alone still has open successors: both of them, or only
the second when the pattern ends with a loop, whose branch goes back to the start of the
repeated pattern (`Regex.loopEntry`). The states before it lead only to states of the table, and
a branch among them that passes control through passes it forward. The construct is entered at a
state that does not pass control through (`emit_layout`).

`Placed` is that invariant, with one lemma per construct and `emit_placed` by induction on the
pattern. Unlike `Laid`, it holds after any table, the empty one included.
-/

namespace TableGrep

namespace Regex

/-- Where the loop that `r` ends with, laid out after `t`, goes back to: the start of the repeated
pattern. A pattern ends with a loop when it is `r*`, `r+`, or a sequence whose second part does. -/
def loopEntry : Regex → Table → Option Nat
  | .seq r s, t => s.loopEntry (r.emit t).2
  | .star r, t => some (r.emit t).1.start
  | .plus r, t => some (r.emit t).1.start
  | _, _ => none

end Regex

namespace Table

/-- A state at `i` whose successors are all filled in: they are states below `n`, and if it
passes control through, it does so to a later state. -/
def Finished (n i : Nat) (st : State) : Prop :=
  (∀ x ∈ st.successors, ∃ j, x = .state j ∧ j < n) ∧
    (st.isPassThrough = true → ∃ j, st.next1 = .state j ∧ i < j)

/-- The last state laid out from `lo` on, at `i`: its second successor is open, and so is its
first unless it is the branch of a loop back to `a`, the loop entry `e`. -/
def Loose (lo i : Nat) (e : Option Nat) (st : State) : Prop :=
  st.next2 = .unresolved ∧ (st.next1 = .unresolved ∧ e = none ∨
    ∃ a, e = some a ∧ st.kind = .branch ∧ st.next1 = .state a ∧ lo ≤ a ∧ a < i)

theorem Finished.mono {n n' i : Nat} {st : State} (h : Finished n i st) (hn : n ≤ n') :
    Finished n' i st :=
  ⟨fun x hx => (h.1 x hx).imp fun _ hj => ⟨hj.1, by omega⟩, h.2⟩

theorem Loose.mono {lo lo' i : Nat} {e : Option Nat} {st : State} (h : Loose lo i e st)
    (hlo : lo' ≤ lo) : Loose lo' i e st :=
  ⟨h.1, h.2.imp id fun ⟨a, he, hk, ha, hla, hai⟩ => ⟨a, he, hk, ha, by omega, hai⟩⟩

theorem Loose.fill {lo i j n : Nat} {e : Option Nat} {st : State} (h : Loose lo i e st)
    (hij : i < j) (hj : j < n) : Finished n i (st.fill (.state j)) := by
  obtain ⟨h2, ⟨h1, -⟩ | ⟨a, -, -, h1, -, hai⟩⟩ := h
  · have hf : st.fill (.state j) = ⟨st.kind, .state j, .state j⟩ := by
      simp [State.fill, h1, h2, Target.isUnresolved]
    rw [hf]
    exact ⟨fun x hx => ⟨j, by simpa [State.successors] using hx, hj⟩, fun _ => ⟨j, rfl, hij⟩⟩
  · have hf : st.fill (.state j) = ⟨st.kind, .state a, .state j⟩ := by
      simp [State.fill, h1, h2, Target.isUnresolved]
    have hne : Target.state a ≠ .state j := by simp; omega
    rw [hf]
    refine ⟨fun x hx => ?_, fun hp => ?_⟩
    · rcases State.mem_successors.1 hx with rfl | rfl
      · exact ⟨a, rfl, by omega⟩
      · exact ⟨j, rfl, hj⟩
    · rw [State.isPassThrough_of_ne hne] at hp
      cases hp

theorem finished_choose {n i a j : Nat} (ha : a < n) (hj : j < n) (haj : a ≠ j) :
    Finished n i ⟨.branch, .state a, .state j⟩ := by
  refine ⟨fun x hx => ?_, fun hp => ?_⟩
  · rcases State.mem_successors.1 hx with rfl | rfl
    · exact ⟨a, rfl, ha⟩
    · exact ⟨j, rfl, hj⟩
  · rw [State.isPassThrough_of_ne (by simpa using haj)] at hp
    cases hp

/-- A state that opens a construct and is finished or loose does not pass control through. -/
theorem not_passThrough_of_opens {t : Table} {i : Nat} {st : State} (ho : t.get? i = some st)
    (hopen : t.Opens i) (h : Finished t.size i st ∨ ∃ lo e, Loose lo i e st) :
    st.isPassThrough = false := by
  obtain ⟨s, hs, hk | ⟨b, hb, hbi⟩⟩ := hopen
  all_goals
    rw [ho, Option.some.injEq] at hs
    subst hs
  · exact State.isPassThrough_of_kind hk
  rcases h with ⟨-, hf⟩ | ⟨lo, e, h2, -⟩
  · cases hp : st.isPassThrough with
    | false => rfl
    | true =>
      obtain ⟨j, hj, hij⟩ := hf hp
      rw [hb, Target.state.injEq] at hj
      omega
  · exact State.isPassThrough_of_ne (by rw [hb, h2]; simp)

end Table

open Table

/-- `t'` is `t` followed by the states of a construct entered at `f.start`, whose loop, if it ends
with one, goes back to `e`: the states before the stop are finished, and the stop, the last
state, is loose. -/
structure Placed (t t' : Table) (f : Fragment) (e : Option Nat) : Prop where
  size_lt : t.size < t'.size
  frame : ∀ i, i < t.size → t'.get? i = t.get? i
  start_ge : t.size ≤ f.start
  opens : t'.Opens f.start
  stop_eq : f.stop = t'.size - 1
  finished : ∀ i st, t.size ≤ i → i < f.stop → t'.get? i = some st → Finished t'.size i st
  loose : ∃ st, t'.get? f.stop = some st ∧ Loose t.size f.stop e st

namespace Placed

variable {t t' t₁ t₂ : Table} {f g : Fragment} {e e' : Option Nat}

theorem toExtends (h : Placed t t' f e) : Extends t t' where
  size_le := Nat.le_of_lt h.size_lt
  get i s hs := ⟨s, by rw [h.frame i (lt_size_of_get? hs)]; exact hs, rfl, fun _ => rfl⟩

theorem finished_fill (hr : Placed t t₁ f e) {T : Table} {j n : Nat}
    (hT : T.get? f.stop = (t₁.get? f.stop).map (·.fill (.state j))) (hj : f.stop < j)
    (hn : j < n) {st : State} (hst : T.get? f.stop = some st) : Finished n f.stop st := by
  obtain ⟨s, hs, hp⟩ := hr.loose
  rw [hT, hs, Option.map_some, Option.some.injEq] at hst
  subst hst
  exact hp.fill hj hn

theorem single {k : Kind} (hk : k ≠ .branch) :
    Placed t (t.push ⟨k, .unresolved, .unresolved⟩) ⟨t.size, t.size⟩ none where
  size_lt := by simp
  frame i hi := get?_push_lt hi
  start_ge := Nat.le_refl _
  opens := ⟨_, get?_push_self, .inl hk⟩
  stop_eq := by simp
  finished i _ hi hi' := by dsimp only at hi'; omega
  loose := ⟨_, get?_push_self, rfl, .inl ⟨rfl, rfl⟩⟩

theorem seq (hr : Placed t t₁ f e) (hs : Placed t₁ t₂ g e') :
    Placed t (t₂.connect f.stop (.state g.start)) ⟨f.start, g.stop⟩ e' := by
  have hn := hr.size_lt
  have hm := hs.size_lt
  have hf := hr.stop_eq
  have hg := hs.stop_eq
  have hgs := hs.start_ge
  have hgs' := hs.opens.lt_size
  have hE₁ := hs.toExtends.trans (.connect t₂ f.stop (.state g.start))
  refine ⟨by simp; omega, fun i hi => ?_, hr.start_ge, hr.opens.mono hE₁,
    show g.stop = (t₂.connect f.stop (.state g.start)).size - 1 by simp; omega,
    fun i st hl hh hst => ?_, ?_⟩
  · rw [get?_connect_ne (by omega), hs.frame i (by omega), hr.frame i hi]
  · dsimp only at hh
    simp only [size_connect]
    -- the states of `r`, its stop led to the start of `s`, and the states of `s`
    rcases Nat.lt_or_ge i f.stop with hi | hi
    · rw [get?_connect_ne (by omega), hs.frame i (by omega)] at hst
      exact (hr.finished i st hl hi hst).mono (by omega)
    rcases Nat.eq_or_lt_of_le hi with rfl | hi
    · exact hr.finished_fill (by rw [get?_connect_self, hs.frame _ (by omega)]) (by omega) hgs' hst
    · rw [get?_connect_ne (by omega)] at hst
      exact hs.finished i st (by omega) hh hst
  · dsimp only
    obtain ⟨s, hs', hp⟩ := hs.loose
    exact ⟨s, by rw [get?_connect_ne (by omega), hs'], hp.mono (Nat.le_of_lt hn)⟩

theorem alt (hr : Placed t t₁ f e)
    (hs : Placed (t₁.addBranch (.state f.start) .unresolved) t₂ g e') :
    Placed t ((((t₂.addBranch .unresolved .unresolved).connect t₁.size (.state g.start)).connect
      f.stop (.state t₂.size)).connect g.stop (.state t₂.size)) ⟨t₁.size, t₂.size⟩ none := by
  have hn := hr.size_lt
  have hm := hs.size_lt
  have hf := hr.stop_eq
  have hg := hs.stop_eq
  have hgs := hs.start_ge
  have hgs' := hs.opens.lt_size
  have hfs' := hr.opens.lt_size
  simp only [size_addBranch] at hm hgs
  have hE₁ : Extends t₁ ((((t₂.addBranch .unresolved .unresolved).connect t₁.size
      (.state g.start)).connect f.stop (.state t₂.size)).connect g.stop (.state t₂.size)) :=
    (Extends.addBranch t₁ (.state f.start) .unresolved).trans (hs.toExtends.trans
      ((((Extends.addBranch _ _ _).trans (.connect _ _ _)).trans (.connect _ _ _)).trans
        (.connect _ _ _)))
  obtain ⟨hsize, hlow, hfstop, hb, hhigh, hgstop, hmerge⟩ :=
    @get?_alt t₁ t₂ f g (by omega) (by omega) (by omega) fun i hi => hs.frame i (by simpa using hi)
  generalize (((t₂.addBranch .unresolved .unresolved).connect t₁.size (.state g.start)).connect
    f.stop (.state t₂.size)).connect g.stop (.state t₂.size) = T at *
  refine ⟨by omega, fun i hi => ?_, show t.size ≤ t₁.size by omega,
    ⟨_, hb, .inr ⟨f.start, rfl, hfs'⟩⟩, show t₂.size = T.size - 1 by omega,
    fun i st hl hh hst => ?_, ⟨_, hmerge, rfl, .inl ⟨rfl, rfl⟩⟩⟩
  · rw [hlow i (by omega) (by omega), hr.frame i hi]
  · dsimp only at hh
    -- the states of `r`, its stop, the branch, the states of `s`, and its stop
    rcases Nat.lt_or_ge i f.stop with hi | hi
    · rw [hlow i (by omega) (by omega)] at hst
      exact (hr.finished i st hl hi hst).mono (by omega)
    rcases Nat.eq_or_lt_of_le hi with rfl | hi
    · exact hr.finished_fill hfstop (by omega) (by omega) hst
    rcases Nat.eq_or_lt_of_le (show t₁.size ≤ i by omega) with rfl | hi'
    · rw [hb, Option.some.injEq] at hst
      subst hst
      exact finished_choose (by omega) (by omega) (by omega)
    rcases Nat.lt_or_ge i g.stop with hi'' | hi''
    · rw [hhigh i (by omega) (by omega) (by omega)] at hst
      exact (hs.finished i st (by simp; omega) hi'' hst).mono (by omega)
    · obtain rfl : i = g.stop := by omega
      exact hs.finished_fill hgstop (by omega) (by omega) hst

/-- `r*`: the branch after `r` is the stop, a loop back to the start of `r`. -/
theorem star (hr : Placed t t₁ f e) :
    Placed t ((t₁.addBranch (.state f.start) .unresolved).connect f.stop (.state t₁.size))
      ⟨t₁.size, t₁.size⟩ (some f.start) := by
  have hn := hr.size_lt
  have hf := hr.stop_eq
  have hfs := hr.start_ge
  have hfs' := hr.opens.lt_size
  obtain ⟨hsize, hlow, hfstop, hb⟩ := @get?_loop t₁ f.start f.stop (by omega)
  generalize (t₁.addBranch (.state f.start) .unresolved).connect f.stop (.state t₁.size) = T at *
  refine ⟨by omega, fun i hi => ?_, show t.size ≤ t₁.size by omega,
    ⟨_, hb, .inr ⟨f.start, rfl, hfs'⟩⟩, show t₁.size = T.size - 1 by omega,
    fun i st hl hh hst => ?_, ⟨_, hb, rfl, .inr ⟨f.start, rfl, rfl, rfl, hfs, hfs'⟩⟩⟩
  · rw [hlow i (by omega) (by omega), hr.frame i hi]
  · dsimp only at hh
    rcases Nat.lt_or_ge i f.stop with hi | hi
    · rw [hlow i (by omega) (by omega)] at hst
      exact (hr.finished i st hl hi hst).mono (by omega)
    · obtain rfl : i = f.stop := by omega
      exact hr.finished_fill hfstop (by omega) (by omega) hst

theorem plus (hr : Placed t t₁ f e) :
    Placed t ((t₁.addBranch (.state f.start) .unresolved).connect f.stop (.state t₁.size))
      ⟨f.start, t₁.size⟩ (some f.start) :=
  { hr.star with
    start_ge := hr.start_ge
    opens := hr.opens.mono ((Extends.addBranch _ _ _).trans (.connect _ _ _)) }

theorem opt (hr : Placed t t₁ f e) :
    Placed t (((t₁.connect f.stop (.state (t₁.size + 1))).addBranch (.state f.start)
      (.state (t₁.size + 1))).addBranch .unresolved .unresolved) ⟨t₁.size, t₁.size + 1⟩ none := by
  have hn := hr.size_lt
  have hf := hr.stop_eq
  have hfs' := hr.opens.lt_size
  obtain ⟨hsize, hlow, hfstop, hb, hclose⟩ := @get?_opt t₁ f.start f.stop (by omega)
  generalize ((t₁.connect f.stop (.state (t₁.size + 1))).addBranch (.state f.start)
    (.state (t₁.size + 1))).addBranch .unresolved .unresolved = T at *
  refine ⟨by omega, fun i hi => ?_, show t.size ≤ t₁.size by omega,
    ⟨_, hb, .inr ⟨f.start, rfl, hfs'⟩⟩, show t₁.size + 1 = T.size - 1 by omega,
    fun i st hl hh hst => ?_, ⟨_, hclose, rfl, .inl ⟨rfl, rfl⟩⟩⟩
  · rw [hlow i (by omega) (by omega), hr.frame i hi]
  · dsimp only at hh
    rcases Nat.lt_or_ge i f.stop with hi | hi
    · rw [hlow i (by omega) (by omega)] at hst
      exact (hr.finished i st hl hi hst).mono (by omega)
    rcases Nat.eq_or_lt_of_le hi with rfl | hi
    · exact hr.finished_fill hfstop (by omega) (by omega) hst
    · obtain rfl : i = t₁.size := by omega
      rw [hb, Option.some.injEq] at hst
      subst hst
      exact finished_choose (by omega) (by omega) (by omega)

end Placed

theorem emit_placed : ∀ (r : Regex) (t : Table), Placed t (r.emit t).2 (r.emit t).1 (r.loopEntry t)
  | .literal _, _ => Placed.single (by simp)
  | .wildcard, _ => Placed.single (by simp)
  | .seq r s, t => (emit_placed r t).seq (emit_placed s _)
  | .alt r s, t => (emit_placed r t).alt (emit_placed s _)
  | .star r, t => (emit_placed r t).star
  | .plus r, t => (emit_placed r t).plus
  | .opt r, t => (emit_placed r t).opt

/-- Laying out a pattern after any table keeps the table's states and appends a construct: entered
at a state that does not pass control through, with a loose stop last, open unless it closes a
loop back to the start of the repeated pattern, and finished states before it. -/
theorem emit_layout (r : Regex) (t : Table) :
    let f := (r.emit t).1
    let t' := (r.emit t).2
    (∀ i, i < t.size → t'.get? i = t.get? i) ∧
      t.size ≤ f.start ∧ f.start < t'.size ∧ t.size ≤ f.stop ∧ f.stop = t'.size - 1 ∧
      (∃ st, t'.get? f.stop = some st ∧ st.next2 = .unresolved ∧
        (st.next1 = .unresolved ∧ r.loopEntry t = none ∨
          ∃ a, r.loopEntry t = some a ∧ st.kind = .branch ∧ st.next1 = .state a ∧
            t.size ≤ a ∧ a < f.stop)) ∧
      (∀ i st, t.size ≤ i → i ≠ f.stop → t'.get? i = some st → .unresolved ∉ st.successors) ∧
      (∀ i st j, t.size ≤ i → t'.get? i = some st → .state j ∈ st.successors → j < t'.size) ∧
      (∃ st, t'.get? f.start = some st ∧ st.isPassThrough = false) ∧
      (∀ i st, t.size ≤ i → i ≠ f.stop → t'.get? i = some st → st.isPassThrough = true →
        ∃ j, st.next1 = .state j ∧ i < j) := by
  have h := emit_placed r t
  rcases he : r.emit t with ⟨f, t'⟩
  rw [he] at h
  dsimp only at h ⊢
  have hsz := h.size_lt
  have hstop := h.stop_eq
  obtain ⟨s, hs, hloose⟩ := h.loose
  -- an appended state is finished, or it is the stop
  have hcases : ∀ i st, t.size ≤ i → t'.get? i = some st →
      Finished t'.size i st ∨ (i = f.stop ∧ st = s) := by
    intro i st hl hst
    have := lt_size_of_get? hst
    rcases Nat.lt_or_ge i f.stop with hi | hi
    · exact .inl (h.finished i st hl hi hst)
    · obtain rfl : i = f.stop := by omega
      rw [hs, Option.some.injEq] at hst
      exact .inr ⟨rfl, hst.symm⟩
  refine ⟨h.frame, h.start_ge, h.opens.lt_size, by omega, hstop, ⟨s, hs, hloose⟩,
    fun i st hl hne hst hu => ?_, fun i st j hl hst hj => ?_, ?_, fun i st hl hne hst hp => ?_⟩
  · rcases hcases i st hl hst with hfin | ⟨rfl, -⟩
    · obtain ⟨j, hj, -⟩ := hfin.1 _ hu
      cases hj
    · exact hne rfl
  · rcases hcases i st hl hst with hfin | ⟨rfl, rfl⟩
    · obtain ⟨j', hj', hlt⟩ := hfin.1 _ hj
      cases hj'
      exact hlt
    · -- the stop leads on only along the loop, back to a state before it
      obtain ⟨h2, ⟨h1, -⟩ | ⟨a, -, -, h1, -, hai⟩⟩ := hloose
      all_goals rcases State.mem_successors.1 hj with e | e
      all_goals first | (rw [h1] at e; cases e) | (rw [h2] at e; cases e)
      omega
  · obtain ⟨st, hst⟩ := exists_get? h.opens.lt_size
    refine ⟨st, hst, not_passThrough_of_opens hst h.opens ?_⟩
    rcases hcases _ st h.start_ge hst with hfin | ⟨hfs, rfl⟩
    · exact .inl hfin
    · exact .inr ⟨t.size, r.loopEntry t, by rw [hfs]; exact hloose⟩
  · rcases hcases i st hl hst with hfin | ⟨rfl, -⟩
    · exact hfin.2 hp
    · exact absurd rfl hne

end TableGrep
