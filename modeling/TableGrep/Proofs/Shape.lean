import TableGrep.Proofs.Fragment
import TableGrep.Table.Defect

/-!
# The shape of a pattern's table

The construction lays out states in the order it reads the pattern, and each transition it fills
in leads forward: to a later state, or from the last state to acceptance. Only the branch of a
loop, an alternative or an option also leads back, to the start of the construct it enters.
`Table.Shaped` says this of a whole table. `Laid` says it of the states of one construct while
the construction is under way, with one lemma per construct, and `shaped_toTable` puts them
together.

From the shape follow the facts the rest of the compiler relies on: the body of a pattern has
no open transition before its last state (`firstOpen_body`), the table is well formed
(`Shaped.defect?_eq_none`), and only its last state leads to acceptance.
-/

namespace TableGrep

namespace Table

/-- The state at `a` starts a construct: it reads, or it is a branch whose first successor lies
before it. -/
def Opens (t : Table) (a : Nat) : Prop :=
  ∃ s, t.get? a = some s ∧ (s.kind ≠ .branch ∨ ∃ b, s.next1 = .state b ∧ b < a)

/-- A finished state at index `i` of a built table, between its entry and its last state. -/
inductive Inner (t : Table) (i : Nat) : State → Prop
  /-- It reads, and goes on to a later state. -/
  | read {k : Kind} {j : Nat} : k ≠ .branch → i < j → j < t.size →
      Inner t i ⟨k, .state j, .state j⟩
  /-- A branch that passes control on to a later state. -/
  | pass {j : Nat} : i < j → j < t.size → Inner t i ⟨.branch, .state j, .state j⟩
  /-- A branch between the start `a` of a construct before it and a later state. -/
  | choose {a j : Nat} : 0 < a → a < i → i < j → j < t.size → t.Opens a →
      Inner t i ⟨.branch, .state a, .state j⟩

/-- The last state of the states laid out from `lo` on, before its open successors are filled. -/
inductive Pending (t : Table) (lo i : Nat) : State → Prop
  | read {k : Kind} : k ≠ .branch → Pending t lo i ⟨k, .unresolved, .unresolved⟩
  | pass : Pending t lo i ⟨.branch, .unresolved, .unresolved⟩
  | loop {a : Nat} : lo ≤ a → a < i → t.Opens a →
      Pending t lo i ⟨.branch, .state a, .unresolved⟩

/-- The shape of a pattern's table: an entry branch at 0 that passes control to the start of the
pattern, inner states as `Inner` says, and an accepting branch last. -/
structure Shaped (t : Table) : Prop where
  entry : ∃ s, 0 < s ∧ s + 1 < t.size ∧ t.get? 0 = some ⟨.branch, .state s, .state s⟩ ∧ t.Opens s
  inner : ∀ i, 0 < i → i + 1 < t.size → ∃ st, t.get? i = some st ∧ t.Inner i st
  last : t.get? (t.size - 1) = some ⟨.branch, .accept, .accept⟩

/-- `t'` extends `t`: it holds every state of `t`, of the same kind and with the same first
successor once that is resolved. -/
structure Extends (t t' : Table) : Prop where
  size_le : t.size ≤ t'.size
  get : ∀ i s, t.get? i = some s → ∃ s', t'.get? i = some s' ∧ s'.kind = s.kind ∧
    (s.next1.isUnresolved = false → s'.next1 = s.next1)

namespace Extends

theorem refl (t : Table) : Extends t t := ⟨Nat.le_refl _, fun _ s h => ⟨s, h, rfl, fun _ => rfl⟩⟩

theorem trans {t₁ t₂ t₃ : Table} (h₁ : Extends t₁ t₂) (h₂ : Extends t₂ t₃) : Extends t₁ t₃ where
  size_le := Nat.le_trans h₁.size_le h₂.size_le
  get i s h := by
    obtain ⟨s', h', hk, hn⟩ := h₁.get i s h
    obtain ⟨s'', h'', hk', hn'⟩ := h₂.get i s' h'
    refine ⟨s'', h'', hk'.trans hk, fun hu => ?_⟩
    rw [hn' (by rw [hn hu]; exact hu), hn hu]

theorem push (t : Table) (s : State) : Extends t (t.push s) where
  size_le := by simp
  get i s' h := ⟨s', by rw [get?_push_lt (lt_size_of_get? h)]; exact h, rfl, fun _ => rfl⟩

theorem addBranch (t : Table) (n1 n2 : Target) : Extends t (t.addBranch n1 n2) := push t _

theorem connect (t : Table) (i : Nat) (k : Target) : Extends t (t.connect i k) where
  size_le := by simp
  get j s h := by
    by_cases hij : i = j
    · subst hij
      refine ⟨s.fill k, by rw [get?_connect_self, h]; rfl, rfl, fun hu => ?_⟩
      simp [State.fill, hu]
    · exact ⟨s, by rw [get?_connect_ne hij]; exact h, rfl, fun _ => rfl⟩

end Extends

theorem Opens.lt_size {t : Table} {a : Nat} (h : t.Opens a) : a < t.size := by
  obtain ⟨s, hs, -⟩ := h
  exact lt_size_of_get? hs

/-- A state that opens a construct does not pass control on to a later state. -/
theorem Opens.not_pass {t : Table} {a j : Nat} (h : t.Opens a) (hj : a < j) :
    t.get? a ≠ some ⟨.branch, .state j, .state j⟩ := by
  intro hs
  obtain ⟨s, hs', hk | ⟨b, hb, hba⟩⟩ := h <;> rw [hs, Option.some.injEq] at hs' <;> subst hs'
  · exact hk rfl
  · cases hb
    omega

theorem Opens.mono {t t' : Table} (he : Extends t t') {a : Nat} (h : t.Opens a) : t'.Opens a := by
  obtain ⟨s, hs, hk | ⟨b, hb, hba⟩⟩ := h
  · obtain ⟨s', hs', hk', -⟩ := he.get a s hs
    exact ⟨s', hs', .inl (hk' ▸ hk)⟩
  · obtain ⟨s', hs', -, hn⟩ := he.get a s hs
    exact ⟨s', hs', .inr ⟨b, by rw [hn (by rw [hb]; rfl), hb], hba⟩⟩

theorem Inner.mono {t t' : Table} (he : Extends t t') {i : Nat} {s : State} :
    Inner t i s → Inner t' i s
  | .read hk hij hj => .read hk hij (Nat.lt_of_lt_of_le hj he.size_le)
  | .pass hij hj => .pass hij (Nat.lt_of_lt_of_le hj he.size_le)
  | .choose ha hai hij hj ho => .choose ha hai hij (Nat.lt_of_lt_of_le hj he.size_le) (ho.mono he)

theorem Pending.mono {t t' : Table} (he : Extends t t') {lo lo' i : Nat} (hlo : lo' ≤ lo)
    {s : State} : Pending t lo i s → Pending t' lo' i s
  | .read hk => .read hk
  | .pass => .pass
  | .loop ha hai ho => .loop (Nat.le_trans hlo ha) hai (ho.mono he)

theorem Pending.fill {t : Table} {lo i j : Nat} {s : State} (h : Pending t lo i s) (hlo : 0 < lo)
    (hij : i < j) (hj : j < t.size) : Inner t i (s.fill (.state j)) := by
  cases h with
  | read hk => exact .read hk hij hj
  | pass => exact .pass hij hj
  | loop ha hai ho => exact .choose (by omega) hai hij hj ho

theorem Inner.successor {t : Table} {i : Nat} {s : State} (h : Inner t i s) {x : Target}
    (hx : x ∈ s.successors) : ∃ j, x = .state j ∧ j < t.size := by
  cases h with
  | read _ _ hj => exact ⟨_, by simpa [State.successors] using hx, hj⟩
  | pass _ hj => exact ⟨_, by simpa [State.successors] using hx, hj⟩
  | choose _ hai _ hj ho =>
    rcases State.mem_successors.1 hx with rfl | rfl
    · exact ⟨_, rfl, by have := ho.lt_size; omega⟩
    · exact ⟨_, rfl, hj⟩

end Table

open Table

/-- `t'` is `t` followed by the states of a construct entered at `f.start`: the states before
the stop are finished as `Inner` says, and the stop, the last state, is pending. -/
structure Laid (t t' : Table) (f : Fragment) : Prop where
  size_lt : t.size < t'.size
  frame : ∀ i, i < t.size → t'.get? i = t.get? i
  start_ge : t.size ≤ f.start
  opens : t'.Opens f.start
  stop_eq : f.stop = t'.size - 1
  inner : ∀ i, t.size ≤ i → i < f.stop → ∃ s, t'.get? i = some s ∧ t'.Inner i s
  pending : ∃ s, t'.get? f.stop = some s ∧ t'.Pending t.size f.stop s

namespace Laid

variable {t t' t₁ t₂ : Table} {f g : Fragment}

theorem toExtends (h : Laid t t' f) : Extends t t' where
  size_le := Nat.le_of_lt h.size_lt
  get i s hs := ⟨s, by rw [h.frame i (lt_size_of_get? hs)]; exact hs, rfl, fun _ => rfl⟩

theorem restart (h : Laid t t' f) {start : Nat} (hs : t.size ≤ start) (ho : t'.Opens start) :
    Laid t t' ⟨start, f.stop⟩ :=
  { h with start_ge := hs, opens := ho }

theorem single {k : Kind} (hk : k ≠ .branch) :
    Laid t (t.push ⟨k, .unresolved, .unresolved⟩) ⟨t.size, t.size⟩ where
  size_lt := by simp
  frame i hi := get?_push_lt hi
  start_ge := Nat.le_refl _
  opens := ⟨_, get?_push_self, .inl hk⟩
  stop_eq := by simp
  inner i hi hi' := by dsimp only at hi'; omega
  pending := ⟨_, get?_push_self, .read hk⟩

theorem seq (hr : Laid t t₁ f) (hs : Laid t₁ t₂ g) (h0 : 0 < t.size) :
    Laid t (t₂.connect f.stop (.state g.start)) ⟨f.start, g.stop⟩ := by
  have hn := hr.size_lt
  have hm := hs.size_lt
  have hf := hr.stop_eq
  have hg := hs.stop_eq
  have hgs := hs.start_ge
  have hgs' := hs.opens.lt_size
  have hE : Extends t₂ (t₂.connect f.stop (.state g.start)) := .connect _ _ _
  have hE₁ := hs.toExtends.trans hE
  refine ⟨by simp; omega, fun i hi => ?_, hr.start_ge, hr.opens.mono hE₁,
    show g.stop = (t₂.connect f.stop (.state g.start)).size - 1 by simp; omega, fun i hl hh => ?_, ?_⟩
  · rw [get?_connect_ne (by omega), hs.frame i (by omega), hr.frame i hi]
  · dsimp only at hh
    rcases Nat.lt_or_ge i f.stop with hi | hi
    · obtain ⟨s, hs', hin⟩ := hr.inner i hl hi
      exact ⟨s, by rw [get?_connect_ne (by omega), hs.frame i (by omega), hs'], hin.mono hE₁⟩
    rcases Nat.eq_or_lt_of_le hi with rfl | hi
    · obtain ⟨s, hs', hp⟩ := hr.pending
      refine ⟨s.fill (.state g.start), by rw [get?_connect_self, hs.frame _ (by omega), hs']; rfl,
        ?_⟩
      exact (hp.mono hE₁ (Nat.le_refl _)).fill h0 (by omega) (by simp; omega)
    · obtain ⟨s, hs', hin⟩ := hs.inner i (by omega) hh
      exact ⟨s, by rw [get?_connect_ne (by omega), hs'], hin.mono hE⟩
  · dsimp only
    obtain ⟨s, hs', hp⟩ := hs.pending
    exact ⟨s, by rw [get?_connect_ne (by omega), hs'], hp.mono hE (Nat.le_of_lt hn)⟩

theorem alt (hr : Laid t t₁ f) (hs : Laid (t₁.addBranch (.state f.start) .unresolved) t₂ g)
    (h0 : 0 < t.size) :
    Laid t ((((t₂.addBranch .unresolved .unresolved).connect t₁.size (.state g.start)).connect
      f.stop (.state t₂.size)).connect g.stop (.state t₂.size)) ⟨t₁.size, t₂.size⟩ := by
  have hn := hr.size_lt
  have hm := hs.size_lt
  have hf := hr.stop_eq
  have hg := hs.stop_eq
  have hgs := hs.start_ge
  have hgs' := hs.opens.lt_size
  have hfs := hr.start_ge
  have hfs' := hr.opens.lt_size
  simp only [size_addBranch] at hm hgs
  have hE : Extends t₂ ((((t₂.addBranch .unresolved .unresolved).connect t₁.size
      (.state g.start)).connect f.stop (.state t₂.size)).connect g.stop (.state t₂.size)) :=
    (((Extends.addBranch _ _ _).trans (.connect _ _ _)).trans (.connect _ _ _)).trans
      (.connect _ _ _)
  have hE₁ := (Extends.addBranch t₁ (.state f.start) .unresolved).trans (hs.toExtends.trans hE)
  obtain ⟨hsize, hlow, hfstop, hb, hhigh, hgstop, hmerge⟩ :=
    @get?_alt t₁ t₂ f g (by omega) (by omega) (by omega) fun i hi => hs.frame i (by simpa using hi)
  generalize (((t₂.addBranch .unresolved .unresolved).connect t₁.size (.state g.start)).connect
    f.stop (.state t₂.size)).connect g.stop (.state t₂.size) = T at *
  refine ⟨by omega, fun i hi => ?_, show t.size ≤ t₁.size by omega,
    ⟨_, hb, .inr ⟨f.start, rfl, hfs'⟩⟩, show t₂.size = T.size - 1 by omega, fun i hl hh => ?_,
    ⟨_, hmerge, .pass⟩⟩
  · rw [hlow i (by omega) (by omega), hr.frame i hi]
  · dsimp only at hh
    -- the states of `r`, its stop, the branch, the states of `s`, and its stop
    rcases Nat.lt_or_ge i f.stop with hi | hi
    · obtain ⟨s, hs', hin⟩ := hr.inner i hl hi
      exact ⟨s, by rw [hlow i (by omega) (by omega), hs'], hin.mono hE₁⟩
    rcases Nat.eq_or_lt_of_le hi with rfl | hi
    · obtain ⟨s, hs', hp⟩ := hr.pending
      exact ⟨_, by rw [hfstop, hs']; rfl,
        (hp.mono hE₁ (Nat.le_refl _)).fill h0 (by omega) (by omega)⟩
    rcases Nat.eq_or_lt_of_le (show t₁.size ≤ i by omega) with rfl | hi'
    · exact ⟨_, hb, .choose (by omega) hfs' (by omega) (by omega) (hr.opens.mono hE₁)⟩
    rcases Nat.lt_or_ge i g.stop with hi'' | hi''
    · obtain ⟨s, hs', hin⟩ := hs.inner i (by simp; omega) hi''
      exact ⟨s, by rw [hhigh i (by omega) (by omega) (by omega), hs'], hin.mono hE⟩
    · have : i = g.stop := by omega
      subst this
      obtain ⟨s, hs', hp⟩ := hs.pending
      exact ⟨_, by rw [hgstop, hs']; rfl,
        (hp.mono hE (Nat.le_refl _)).fill (by simp) (by omega) (by omega)⟩

/-- `r*`: a branch after `r` is both where the loop is entered and where it is left. -/
theorem star (hr : Laid t t₁ f) (h0 : 0 < t.size) :
    Laid t ((t₁.addBranch (.state f.start) .unresolved).connect f.stop (.state t₁.size))
      ⟨t₁.size, t₁.size⟩ := by
  have hn := hr.size_lt
  have hf := hr.stop_eq
  have hfs := hr.start_ge
  have hfs' := hr.opens.lt_size
  have hE₁ : Extends t₁ ((t₁.addBranch (.state f.start) .unresolved).connect f.stop
      (.state t₁.size)) := (Extends.addBranch _ _ _).trans (.connect _ _ _)
  obtain ⟨hsize, hlow, hfstop, hb⟩ := @get?_loop t₁ f.start f.stop (by omega)
  generalize (t₁.addBranch (.state f.start) .unresolved).connect f.stop (.state t₁.size) = T at *
  refine ⟨by omega, fun i hi => ?_, show t.size ≤ t₁.size by omega,
    ⟨_, hb, .inr ⟨f.start, rfl, hfs'⟩⟩, show t₁.size = T.size - 1 by omega, fun i hl hh => ?_,
    ⟨_, hb, .loop hfs hfs' (hr.opens.mono hE₁)⟩⟩
  · rw [hlow i (by omega) (by omega), hr.frame i hi]
  · dsimp only at hh
    rcases Nat.lt_or_ge i f.stop with hi | hi
    · obtain ⟨s, hs', hin⟩ := hr.inner i hl hi
      exact ⟨s, by rw [hlow i (by omega) (by omega), hs'], hin.mono hE₁⟩
    · have : i = f.stop := by omega
      subst this
      obtain ⟨s, hs', hp⟩ := hr.pending
      exact ⟨_, by rw [hfstop, hs']; rfl,
        (hp.mono hE₁ (Nat.le_refl _)).fill h0 (by omega) (by omega)⟩

theorem plus (hr : Laid t t₁ f) (h0 : 0 < t.size) :
    Laid t ((t₁.addBranch (.state f.start) .unresolved).connect f.stop (.state t₁.size))
      ⟨f.start, t₁.size⟩ :=
  (star hr h0).restart hr.start_ge
    (hr.opens.mono ((Extends.addBranch _ _ _).trans (.connect _ _ _)))

theorem opt (hr : Laid t t₁ f) (h0 : 0 < t.size) :
    Laid t (((t₁.connect f.stop (.state (t₁.size + 1))).addBranch (.state f.start)
      (.state (t₁.size + 1))).addBranch .unresolved .unresolved) ⟨t₁.size, t₁.size + 1⟩ := by
  have hn := hr.size_lt
  have hf := hr.stop_eq
  have hfs := hr.start_ge
  have hfs' := hr.opens.lt_size
  have hE₁ : Extends t₁ (((t₁.connect f.stop (.state (t₁.size + 1))).addBranch (.state f.start)
      (.state (t₁.size + 1))).addBranch .unresolved .unresolved) :=
    ((Extends.connect _ _ _).trans (.addBranch _ _ _)).trans (.addBranch _ _ _)
  obtain ⟨hsize, hlow, hfstop, hb, hclose⟩ := @get?_opt t₁ f.start f.stop (by omega)
  generalize ((t₁.connect f.stop (.state (t₁.size + 1))).addBranch (.state f.start)
    (.state (t₁.size + 1))).addBranch .unresolved .unresolved = T at *
  refine ⟨by omega, fun i hi => ?_, show t.size ≤ t₁.size by omega,
    ⟨_, hb, .inr ⟨f.start, rfl, hfs'⟩⟩, show t₁.size + 1 = T.size - 1 by omega, fun i hl hh => ?_,
    ⟨_, hclose, .pass⟩⟩
  · rw [hlow i (by omega) (by omega), hr.frame i hi]
  · dsimp only at hh
    rcases Nat.lt_or_ge i f.stop with hi | hi
    · obtain ⟨s, hs', hin⟩ := hr.inner i hl hi
      exact ⟨s, by rw [hlow i (by omega) (by omega), hs'], hin.mono hE₁⟩
    rcases Nat.eq_or_lt_of_le hi with rfl | hi
    · obtain ⟨s, hs', hp⟩ := hr.pending
      exact ⟨_, by rw [hfstop, hs']; rfl,
        (hp.mono hE₁ (Nat.le_refl _)).fill h0 (by omega) (by omega)⟩
    · have : i = t₁.size := by omega
      subst this
      exact ⟨_, hb, .choose (by omega) hfs' (by omega) (by omega) (hr.opens.mono hE₁)⟩

end Laid

/-- `emit` lays out every pattern as `Laid` says. -/
theorem emit_laid : ∀ (r : Regex) (t : Table), 0 < t.size → Laid t (r.emit t).2 (r.emit t).1
  | .literal c, _, _ => Laid.single (by simp)
  | .wildcard, _, _ => Laid.single (by simp)
  | .seq r s, t, h0 =>
    have hr := emit_laid r t h0
    hr.seq (emit_laid s _ (Nat.lt_trans h0 hr.size_lt)) h0
  | .alt r s, t, h0 => (emit_laid r t h0).alt (emit_laid s _ (by simp)) h0
  | .star r, t, h0 => (emit_laid r t h0).star h0
  | .plus r, t, h0 => (emit_laid r t h0).plus h0
  | .opt r, t, h0 => (emit_laid r t h0).opt h0

/-- The body of a pattern: its states laid out after an entry branch at 0 led to its start. -/
theorem body_laid (r : Regex) :
    ∃ f t₁, Laid (Table.empty.addBranch .unresolved .unresolved) t₁ f ∧
      r.body = t₁.connect 0 (.state f.start) := by
  have hr := emit_laid r (Table.empty.addBranch .unresolved .unresolved) (by simp)
  unfold Regex.body
  rcases he : r.emit (Table.empty.addBranch .unresolved .unresolved) with ⟨f, t₁⟩
  rw [he] at hr
  exact ⟨f, t₁, hr, rfl⟩

theorem firstOpen_body (r : Regex) : r.body.firstOpen? (r.body.size - 1) = none := by
  obtain ⟨f, t₁, hr, hb⟩ := body_laid r
  have hf := hr.stop_eq
  have h₁ : (Table.empty.addBranch .unresolved .unresolved).size = 1 := rfl
  unfold firstOpen?
  rw [List.find?_eq_none]
  intro i hi
  rw [List.mem_range, hb, size_connect, ← hf] at hi
  rcases Nat.eq_zero_or_pos i with rfl | hpos
  · have h0 : (Table.empty.addBranch .unresolved .unresolved).get? 0 =
        some ⟨.branch, .unresolved, .unresolved⟩ := get?_push_eq rfl
    rw [hb, get?_connect_self, hr.frame 0 (by simp), h0]
    simp [State.fill, Target.isUnresolved]
  · obtain ⟨s, hs, hin⟩ := hr.inner i (by rw [h₁]; omega) hi
    rw [hb, get?_connect_ne (by omega), hs]
    cases hin <;> simp [Target.isUnresolved]

/-- The table of every pattern has the shape of `Shaped`. -/
theorem shaped_toTable (r : Regex) : r.toTable.Shaped := by
  obtain ⟨f, t₁, hr, hb⟩ := body_laid r
  have hf := hr.stop_eq
  have hfs : 1 ≤ f.start := hr.start_ge
  have hfs' := hr.opens.lt_size
  have h₁ : (Table.empty.addBranch .unresolved .unresolved).size = 1 := rfl
  have hn : 1 < t₁.size := hr.size_lt
  have hE : Extends t₁ r.toTable := by
    rw [Regex.toTable, hb, close]
    exact ((Extends.connect _ _ _).trans (.connect _ _ _)).trans (.addBranch _ _ _)
  have hsize : r.toTable.size = t₁.size + 1 := by simp [Regex.toTable, hb, close]
  -- the states of the body, with its stop led to the accepting branch at the end
  have hget : ∀ i, i < t₁.size → i ≠ f.stop →
      r.toTable.get? i = (t₁.connect 0 (.state f.start)).get? i := by
    intro i hi hne
    rw [Regex.toTable, hb, close, addBranch, get?_push_lt (by simpa using hi),
      get?_connect_ne (by simp; omega)]
  refine ⟨⟨f.start, by omega, by omega, ?_, hr.opens.mono hE⟩, fun i hpos hi => ?_, ?_⟩
  · rw [hget 0 (by omega) (by omega), get?_connect_self, hr.frame 0 (by simp)]
    rfl
  · rw [hsize] at hi
    rcases Nat.lt_or_ge i f.stop with hi' | hi'
    · obtain ⟨s, hs, hin⟩ := hr.inner i (by rw [h₁]; omega) hi'
      exact ⟨s, by rw [hget i (by omega) (by omega), get?_connect_ne (by omega), hs], hin.mono hE⟩
    · have : i = f.stop := by omega
      subst this
      obtain ⟨s, hs, hp⟩ := hr.pending
      refine ⟨s.fill (.state t₁.size), ?_, (hp.mono hE (Nat.le_refl _)).fill (by simp) (by omega)
        (by omega)⟩
      rw [Regex.toTable, hb, close, addBranch, get?_push_lt (by simp; omega), size_connect,
        ← hf, get?_connect_self, get?_connect_ne (by omega), hs]
      rfl
  · rw [hsize, Nat.add_sub_cancel, Regex.toTable, hb, close, addBranch, get?_push_eq (by simp)]

namespace Table.Shaped

variable {t : Table}

/-- The states of a shaped table: the entry, inner states, and the accepting branch last. -/
theorem get_cases (h : t.Shaped) {i : Nat} (hi : i < t.size) :
    ∃ st, t.get? i = some st ∧ ((i = 0 ∧ ∃ s, 0 < s ∧ s + 1 < t.size ∧
      st = ⟨.branch, .state s, .state s⟩) ∨ (0 < i ∧ i + 1 < t.size ∧ t.Inner i st) ∨
      (i = t.size - 1 ∧ st = ⟨.branch, .accept, .accept⟩)) := by
  rcases Nat.eq_zero_or_pos i with rfl | hpos
  · obtain ⟨s, hs₁, hs₂, he, -⟩ := h.entry
    exact ⟨_, he, .inl ⟨rfl, s, hs₁, hs₂, rfl⟩⟩
  rcases Nat.lt_or_ge (i + 1) t.size with hi' | hi'
  · obtain ⟨st, hst, hin⟩ := h.inner i hpos hi'
    exact ⟨st, hst, .inr (.inl ⟨hpos, hi', hin⟩)⟩
  · have : i = t.size - 1 := by omega
    subst this
    exact ⟨_, h.last, .inr (.inr ⟨rfl, rfl⟩)⟩

theorem successor (h : t.Shaped) {i : Nat} {st : State} (hst : t.get? i = some st) {x : Target}
    (hx : x ∈ st.successors) : x = .accept ∨ ∃ j, x = .state j ∧ j < t.size := by
  obtain ⟨st', hst', hc⟩ := h.get_cases (lt_size_of_get? hst)
  rw [hst, Option.some.injEq] at hst'
  subst hst'
  rcases hc with ⟨-, s, -, hs, rfl⟩ | ⟨-, -, hin⟩ | ⟨-, rfl⟩
  · exact .inr ⟨s, by simpa [State.successors] using hx, by omega⟩
  · exact .inr (hin.successor hx)
  · exact .inl (by simpa [State.successors] using hx)

/-- Only the last state of a shaped table leads to acceptance. -/
theorem eq_last_of_accept (h : t.Shaped) {i : Nat} {st : State} (hst : t.get? i = some st)
    (hx : Target.accept ∈ st.successors) : i = t.size - 1 := by
  obtain ⟨st', hst', hc⟩ := h.get_cases (lt_size_of_get? hst)
  rw [hst, Option.some.injEq] at hst'
  subst hst'
  rcases hc with ⟨-, s, -, -, rfl⟩ | ⟨-, -, hin⟩ | ⟨hi, -⟩
  · simp [State.successors] at hx
  · obtain ⟨j, hj, -⟩ := hin.successor hx
    cases hj
  · exact hi

end Table.Shaped

theorem Table.defectFrom_eq_none {n : Nat} :
    ∀ {i : Nat} {l : List State},
      (∀ s ∈ l, ∀ x ∈ s.successors, x = .accept ∨ ∃ j, x = .state j ∧ j < n) →
      defectFrom n i l = none
  | _, [], _ => rfl
  | i, s :: rest, h => by
    have hok : ∀ x ∈ s.successors, x.defectAt n i = none := by
      intro x hx
      rcases h s (.head _) x hx with rfl | ⟨j, rfl, hj⟩
      · rfl
      · simp [Target.defectAt, hj]
    unfold defectFrom
    rw [hok _ (State.next1_mem_successors s), hok _ (State.next2_mem_successors s)]
    exact defectFrom_eq_none fun s' hs' => h s' (.tail _ hs')

/-- A shaped table is well formed. -/
theorem Table.Shaped.defect?_eq_none {t : Table} (h : t.Shaped) : t.defect? = none := by
  obtain ⟨s, hs₁, hs₂, -, -⟩ := h.entry
  have hne : t.states.isEmpty = false := by
    rw [Array.isEmpty_eq_false_iff, ← Array.size_pos_iff]
    simp only [size] at hs₂
    omega
  rw [defect?, hne, if_neg (by simp)]
  refine defectFrom_eq_none fun st hst x hx => ?_
  obtain ⟨i, hi, rfl⟩ := List.getElem_of_mem hst
  have hget : t.get? i = some t.states.toList[i] := by simp [get?]
  exact h.successor hget hx

end TableGrep
