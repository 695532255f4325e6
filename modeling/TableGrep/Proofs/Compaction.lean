import TableGrep.Proofs.Relabel

/-!
# Compaction keeps the language

A round of compaction rewrites the successors of one state at a time. Each rewrite replaces a
successor by what lies behind it: `chase` takes the successors of a branch that both successors
name, and `skip` follows pass-through states. `accepts_set` is the rewrite lemma: a state may
trade its successors for targets that its old successors reach without reading, as long as from
the old successors the new table accepts nothing the new successors do not. `redirect_sound` and
`redirect_complete` give both conditions for what `redirect` computes.

Everything a round does then keeps what every state accepts (`redirectAll_accepts`), apart from
the recentring, which keeps what state 0 accepts. So does the whole of compaction
(`compact_accepts`), and a compacted table finds a match exactly where the table did
(`find_compact_stop`).
-/
namespace TableGrep

namespace Table

theorem get?_set! (t : Table) (id : Nat) (s' : State) (i : Nat) :
    (⟨t.states.set! id s'⟩ : Table).get? i = if id = i ∧ id < t.size then some s' else t.get? i := by
  simp only [get?, Array.set!_eq_setIfInBounds, Array.getElem?_setIfInBounds, size]
  by_cases h : id = i
  · subst h
    by_cases h' : id < t.states.size
    · simp [h']
    · simp [h']
  · simp [h]

@[simp] theorem size_set! (t : Table) (id : Nat) (s' : State) :
    (⟨t.states.set! id s'⟩ : Table).size = t.size := by
  simp [size]

theorem get?_set!_ne {t : Table} {id i : Nat} {s' : State} (h : i ≠ id) :
    (⟨t.states.set! id s'⟩ : Table).get? i = t.get? i := by
  rw [get?_set!, if_neg (fun h' => h h'.1.symm)]

theorem get?_set!_eq_some {t : Table} {id i : Nat} {s' st : State}
    (h : (⟨t.states.set! id s'⟩ : Table).get? i = some st) :
    (i = id ∧ st = s') ∨ (i ≠ id ∧ t.get? i = some st) := by
  rw [get?_set!] at h
  split at h
  · rename_i h'
    cases h
    exact .inl ⟨h'.1.symm, rfl⟩
  · rename_i h'
    refine .inr ⟨fun e => h' ⟨e.symm, ?_⟩, h⟩
    subst e
    exact lt_size_of_get? h

section Rewrite

variable {t : Table} {id : Nat} {s s' : State}

/-- Replacing successors by ones reached from them without reading keeps what a table accepts. -/
theorem accepts_set (hs : t.get? id = some s) (hk : s'.kind = s.kind)
    (hsound : ∀ x ∈ s'.successors, ∃ z ∈ s.successors, t.Run z [] x)
    (hcomplete : ∀ z ∈ s.successors, ∀ w, (⟨t.states.set! id s'⟩ : Table).Accepts z w →
      ∃ x ∈ s'.successors, (⟨t.states.set! id s'⟩ : Table).Accepts x w)
    (x : Target) (w : List Char) :
    (⟨t.states.set! id s'⟩ : Table).Accepts x w ↔ t.Accepts x w := by
  have hid : id < t.size := lt_size_of_get? hs
  constructor
  -- a run of the new table: at `id`, a new successor is reached from an old one
  · intro h
    unfold Accepts at h ⊢
    generalize ha : Target.accept = y at h
    induction h with
    | refl => exact ha ▸ .refl _
    | @branch i st x' _ w hst hkb hx _ ih =>
      rcases get?_set!_eq_some hst with ⟨rfl, rfl⟩ | ⟨-, hst⟩
      · obtain ⟨z, hz, hzx⟩ := hsound x' hx
        exact .branch hs (hk ▸ hkb) hz (hzx.trans (ih ha))
      · exact .branch hst hkb hx (ih ha)
    | @read i st c x' _ w hst hc hx _ ih =>
      rcases get?_set!_eq_some hst with ⟨rfl, rfl⟩ | ⟨-, hst⟩
      · obtain ⟨z, hz, hzx⟩ := hsound x' hx
        exact .read hs (hk ▸ hc) hz (hzx.trans (ih ha))
      · exact .read hst hc hx (ih ha)
  -- a run of the old table: at `id`, the old successor gives way to a new one
  · intro h
    unfold Accepts at h ⊢
    generalize ha : Target.accept = y at h
    induction h with
    | refl => exact ha ▸ .refl _
    | @branch i st x' _ w hst hkb hx _ ih =>
      subst ha
      by_cases hi : i = id
      · subst hi
        rw [hs, Option.some.injEq] at hst
        subst hst
        obtain ⟨x'', hx'', h''⟩ := hcomplete x' hx w (ih rfl)
        exact .branch (by rw [get?_set!, if_pos ⟨rfl, hid⟩]) (hk ▸ hkb) hx'' h''
      · exact .branch (by rw [get?_set!_ne hi]; exact hst) hkb hx (ih rfl)
    | @read i st c x' _ w hst hc hx _ ih =>
      subst ha
      by_cases hi : i = id
      · subst hi
        rw [hs, Option.some.injEq] at hst
        subst hst
        obtain ⟨x'', hx'', h''⟩ := hcomplete x' hx w (ih rfl)
        exact .read (by rw [get?_set!, if_pos ⟨rfl, hid⟩]) (hk ▸ hc) hx'' h''
      · exact .read (by rw [get?_set!_ne hi]; exact hst) hc hx (ih rfl)

end Rewrite

end Table

namespace Compaction

/-- Every flagged state is a pass-through state of `t`. -/
def FlagsPass (t : Table) (flagged : Array Bool) : Prop :=
  ∀ i st, flagged[i]? = some true → t.get? i = some st → st.isPassThrough = true

variable {t t' : Table} {flagged : Array Bool} {id : Nat}

/-! ## Chasing and skipping -/

theorem chase_sound {fuel : Nat} {n1 n2 a b : Target} (h : chase t id fuel n1 n2 = .ok (a, b)) :
    ∀ x, x = a ∨ x = b → ∃ z, (z = n1 ∨ z = n2) ∧ t.Run z [] x := by
  fun_induction chase t id fuel n1 n2 with
  | case1 => cases h; exact fun x hx => ⟨x, hx, .refl _⟩
  | case2 => cases h
  | case3 => cases h
  | case4 next _ st hst hk _ ih =>
    intro x hx
    obtain ⟨z, hz, hzx⟩ := ih h x hx
    refine ⟨.state next, .inl rfl, .branch hst (Find.isBranch_iff.1 hk) ?_ hzx⟩
    rcases hz with rfl | rfl
    · exact State.next1_mem_successors _
    · exact State.next2_mem_successors _
  | case5 => cases h; exact fun x hx => ⟨x, hx, .refl _⟩
  | case6 => cases h; exact fun x hx => ⟨x, hx, .refl _⟩
  | case7 => cases h; exact fun x hx => ⟨x, hx, .refl _⟩

theorem chase_complete {fuel : Nat} {n1 n2 a b : Target} (h : chase t id fuel n1 n2 = .ok (a, b))
    (ht : ∀ i, i ≠ id → t'.get? i = t.get? i) :
    ∀ z, (z = n1 ∨ z = n2) → ∀ w, t'.Accepts z w → ∃ x, (x = a ∨ x = b) ∧ t'.Accepts x w := by
  fun_induction chase t id fuel n1 n2 with
  | case1 => cases h; exact fun z hz _ hw => ⟨z, hz, hw⟩
  | case2 => cases h
  | case3 => cases h
  | case4 next hne st hst hk _ ih =>
    -- both successors name the branch `next`, which the rewrite of `id` leaves alone
    intro z hz w hw
    have hz' : z = .state next := by rcases hz with rfl | rfl <;> rfl
    subst hz'
    have hst' : t'.get? next = some st := by rw [ht next hne, hst]
    unfold Table.Accepts at hw
    rcases (Table.run_branch_iff hst' (Find.isBranch_iff.1 hk)).1 hw with ⟨-, he⟩ | ⟨y, hy, hyw⟩
    · cases he
    · exact ih h y (State.mem_successors.1 hy) w hyw
  | case5 => cases h; exact fun z hz _ hw => ⟨z, hz, hw⟩
  | case6 => cases h; exact fun z hz _ hw => ⟨z, hz, hw⟩
  | case7 => cases h; exact fun z hz _ hw => ⟨z, hz, hw⟩

theorem skip_sound {fuel : Nat} {x y : Target} (h : skip t flagged fuel x = .ok y)
    (hf : FlagsPass t flagged) : t.Run x [] y := by
  fun_induction skip t flagged fuel x with
  | case1 => cases h
  | case2 => cases h; exact .refl _
  | case3 => cases h
  | case4 => cases h
  | case5 i hflag _ st hst ih =>
    have hp := hf i st hflag hst
    simp only [State.isPassThrough, Bool.and_eq_true] at hp
    exact .branch hst (Find.isBranch_iff.1 hp.1) (State.next1_mem_successors _) (ih h)
  | case6 => cases h; exact .refl _

theorem skip_complete {fuel : Nat} {x y : Target} (h : skip t flagged fuel x = .ok y)
    (hf : FlagsPass t flagged) (ht : ∀ i, flagged[i]? = some true → t'.get? i = t.get? i)
    {w : List Char} (hw : t'.Accepts x w) : t'.Accepts y w := by
  fun_induction skip t flagged fuel x with
  | case1 => cases h
  | case2 => cases h; exact hw
  | case3 => cases h
  | case4 => cases h
  | case5 i hflag _ st hst ih =>
    -- a flagged state is still the same pass-through state in `t'`
    have hst' : t'.get? i = some st := by rw [ht i hflag, hst]
    exact ih h ((Table.accepts_pass_through hst' (hf i st hflag hst)).1 hw)
  | case6 => cases h; exact hw

theorem redirect_cases {s : State} {a b : Target} (h : redirect t flagged id s = .ok (a, b)) :
    ∃ n1 n2, chase t id t.size s.next1 s.next2 = .ok (n1, n2) ∧
      skip t flagged t.size n1 = .ok a ∧ skip t flagged t.size n2 = .ok b := by
  unfold redirect at h
  obtain ⟨⟨n1, n2⟩, hc, h⟩ := bind_eq_ok h
  obtain ⟨a', ha, h⟩ := bind_eq_ok h
  obtain ⟨b', hb, h⟩ := bind_eq_ok h
  cases h
  exact ⟨n1, n2, hc, ha, hb⟩

/-- The new successors are reached from the old ones without reading. -/
theorem redirect_sound {s : State} {a b : Target} (h : redirect t flagged id s = .ok (a, b))
    (hf : FlagsPass t flagged) :
    ∀ x, x = a ∨ x = b → ∃ z, (z = s.next1 ∨ z = s.next2) ∧ t.Run z [] x := by
  obtain ⟨n1, n2, hc, ha, hb⟩ := redirect_cases h
  rintro x (rfl | rfl)
  · obtain ⟨z, hz, hzn⟩ := chase_sound hc n1 (.inl rfl)
    exact ⟨z, hz, hzn.trans (skip_sound ha hf)⟩
  · obtain ⟨z, hz, hzn⟩ := chase_sound hc n2 (.inr rfl)
    exact ⟨z, hz, hzn.trans (skip_sound hb hf)⟩

/-- The old successors accept nothing the new ones do not, in a table changed only at `id`. -/
theorem redirect_complete {s : State} {a b : Target} (h : redirect t flagged id s = .ok (a, b))
    (hf : FlagsPass t flagged) (hid : flagged[id]? = some false)
    (ht : ∀ i, i ≠ id → t'.get? i = t.get? i) :
    ∀ z, (z = s.next1 ∨ z = s.next2) → ∀ w, t'.Accepts z w →
      ∃ x, (x = a ∨ x = b) ∧ t'.Accepts x w := by
  obtain ⟨n1, n2, hc, ha, hb⟩ := redirect_cases h
  have ht' : ∀ i, flagged[i]? = some true → t'.get? i = t.get? i := by
    intro i hi
    refine ht i fun e => ?_
    rw [e, hid] at hi
    cases hi
  intro z hz w hw
  obtain ⟨x, hx, hxw⟩ := chase_complete hc ht z hz w hw
  rcases hx with rfl | rfl
  · exact ⟨a, .inl rfl, skip_complete ha hf ht' hxw⟩
  · exact ⟨b, .inr rfl, skip_complete hb hf ht' hxw⟩

/-! ## A pass of redirects, part way -/

/-- A pass of redirects over `t`, up to index `k`: each unflagged state before `k` stands in
relation `P` to what it was, and every other state is as it was. -/
structure Partway (t : Table) (P : Nat → State → State → Prop) (k : Nat) (u : Table) : Prop where
  size : u.size = t.size
  same : ∀ j, (k ≤ j ∨ (flags t)[j]? = some true) → u.get? j = t.get? j
  done : ∀ j st, j < k → t.get? j = some st → (flags t)[j]? = some false →
    ∃ st', u.get? j = some st' ∧ P j st st'

namespace Partway

open Table

variable {u : Table} {P : Nat → State → State → Prop}

theorem start : Partway t P 0 t :=
  ⟨rfl, fun _ _ => rfl, fun _ _ h => absurd h (Nat.not_lt_zero _)⟩

theorem skip_flagged {k : Nat} (hp : Partway t P k u) (hf : (flags t)[k]? = some true) :
    Partway t P (k + 1) u := by
  refine ⟨hp.size, fun j hj => hp.same j (hj.imp (fun _ => by omega) id), fun j st hj hs hf' => ?_⟩
  rcases Nat.lt_succ_iff_lt_or_eq.1 hj with hj | rfl
  · exact hp.done j st hj hs hf'
  · rw [hf] at hf'
    cases hf'

theorem keep {k : Nat} (hp : Partway t P k u) {st : State} (hst : t.get? k = some st)
    (hP : P k st st) : Partway t P (k + 1) u := by
  refine ⟨hp.size, fun j hj => hp.same j (hj.imp (fun _ => by omega) id), fun j s hj hs hf => ?_⟩
  rcases Nat.lt_succ_iff_lt_or_eq.1 hj with hj | rfl
  · exact hp.done j s hj hs hf
  · rw [hst, Option.some.injEq] at hs
    subst hs
    exact ⟨st, by rw [hp.same j (.inl (Nat.le_refl _)), hst], hP⟩

theorem set {k : Nat} (hp : Partway t P k u) {st st' : State} (hst : t.get? k = some st)
    (hf : (flags t)[k]? = some false) (hP : P k st st') :
    Partway t P (k + 1) ⟨u.states.set! k st'⟩ := by
  have hk : k < u.size := by rw [hp.size]; exact lt_size_of_get? hst
  refine ⟨by rw [size_set!, hp.size], fun j hj => ?_, fun j s hj hs hf' => ?_⟩
  · -- states from `k + 1` on and flagged states are not the one rewritten
    have hjk : j ≠ k := by
      rintro rfl
      rcases hj with hj | hj
      · omega
      · rw [hf] at hj
        cases hj
    rw [get?_set!_ne hjk]
    exact hp.same j (hj.imp (fun _ => by omega) id)
  · rcases Nat.lt_succ_iff_lt_or_eq.1 hj with hj | rfl
    · rw [get?_set!_ne (by omega)]
      exact hp.done j s hj hs hf'
    · rw [hst, Option.some.injEq] at hs
      subst hs
      exact ⟨st', by rw [get?_set!, if_pos ⟨rfl, hk⟩], hP⟩

end Partway

/-- One step of a pass that succeeds passes over a state, keeps it, or rewrites it. -/
theorem redirectAll_cons_ok {id : Nat} {ids : List Nat} {t t' : Table} {c c' : Bool}
    (h : redirectAll flagged (id :: ids) (t, c) = .ok (t', c')) :
    ((∀ s, flagged[id]? = some false → t.get? id ≠ some s) ∧
        redirectAll flagged ids (t, c) = .ok (t', c')) ∨
      ∃ s a b, flagged[id]? = some false ∧ t.get? id = some s ∧
        redirect t flagged id s = .ok (a, b) ∧
        ((s.next1 = a ∧ s.next2 = b ∧ redirectAll flagged ids (t, c) = .ok (t', c')) ∨
          (¬(s.next1 = a ∧ s.next2 = b) ∧ redirectAll flagged ids
            (⟨t.states.set! id { s with next1 := a, next2 := b }⟩, true) = .ok (t', c'))) := by
  unfold redirectAll at h
  split at h
  · rename_i s hid hst
    split at h
    · cases h
    · cases h
    · rename_i a b hr
      refine .inr ⟨s, a, b, hid, hst, hr, ?_⟩
      split at h
      · rename_i he
        exact .inl ⟨he.1, he.2, h⟩
      · rename_i he
        exact .inr ⟨he, h⟩
  · rename_i hno
    exact .inl ⟨hno, h⟩

/-! ## Rounds -/

theorem flagsPass_of_agree {t₀ : Table} (hf : FlagsPass t₀ flagged)
    (ht : ∀ i, flagged[i]? = some true → t.get? i = t₀.get? i) : FlagsPass t flagged :=
  fun i st hi hst => hf i st hi (by rw [← ht i hi, hst])

/-- A pass of redirects keeps what every state accepts, the flagged states and the size. -/
theorem redirectAll_accepts {t₀ : Table} (hf : FlagsPass t₀ flagged) :
    ∀ {ids : List Nat} {t t' : Table} {ch ch' : Bool},
      redirectAll flagged ids (t, ch) = .ok (t', ch') →
      (∀ i, flagged[i]? = some true → t.get? i = t₀.get? i) → t.size = t₀.size →
      (∀ i, flagged[i]? = some true → t'.get? i = t₀.get? i) ∧ t'.size = t₀.size ∧
        ∀ x w, t'.Accepts x w ↔ t.Accepts x w
  | [], t, t', ch, ch', h, ht, hs => by
    cases h
    exact ⟨ht, hs, fun _ _ => Iff.rfl⟩
  | id :: ids, t, t', ch, ch', h, ht, hs => by
    rcases redirectAll_cons_ok h with ⟨-, h⟩ | ⟨s, a, b, hid, hst, hr, ⟨-, -, h⟩ | ⟨-, h⟩⟩
    · exact redirectAll_accepts hf h ht hs
    · exact redirectAll_accepts hf h ht hs
    · -- the state `id` trades its successors for `a` and `b`
      have hft := flagsPass_of_agree hf ht
      have hagree : ∀ i, i ≠ id → (⟨t.states.set! id { s with next1 := a, next2 := b }⟩ :
          Table).get? i = t.get? i := fun i hi => Table.get?_set!_ne hi
      have hacc := @Table.accepts_set t id s { s with next1 := a, next2 := b } hst rfl
        (fun x hx => by
          obtain ⟨z, hz, hzx⟩ := redirect_sound hr hft x (State.mem_successors.1 hx)
          exact ⟨z, State.mem_successors.2 hz, hzx⟩)
        (fun z hz w hw => by
          obtain ⟨x, hx, hxw⟩ :=
            redirect_complete hr hft hid hagree z (State.mem_successors.1 hz) w hw
          exact ⟨x, State.mem_successors.2 hx, hxw⟩)
      have ht' : ∀ i, flagged[i]? = some true →
          (⟨t.states.set! id { s with next1 := a, next2 := b }⟩ : Table).get? i =
            t₀.get? i := by
        intro i hi
        rw [hagree i (by rintro rfl; rw [hid] at hi; cases hi), ht i hi]
      obtain ⟨h₁, h₂, h₃⟩ := redirectAll_accepts hf h ht' ((Table.size_set! t id _).trans hs)
      exact ⟨h₁, h₂, fun x w => (h₃ x w).trans (hacc x w)⟩

theorem recenter_size {t t' : Table} {moved : Bool} (h : recenter t = .ok (t', moved)) :
    t'.size = t.size := by
  rcases Table.recenter_cases h with ⟨rfl, -⟩ | ⟨-, -, -, -, -, -, -, -, rfl⟩
  · rfl
  · simp [Table.size]

theorem flagsPass_flags (t : Table) : FlagsPass t (flags t) := by
  intro i st hi hst
  simp only [flags, Array.getElem?_mapIdx] at hi
  rw [show t.states[i]? = some st from hst] at hi
  simp only [Option.map_some, Option.some.injEq, Bool.and_eq_true, bne_iff_ne, ne_eq] at hi
  exact hi.2

theorem round_cases {t t' : Table} {flagged : Array Bool} {changed : Bool}
    (h : round t = .ok (t', flagged, changed)) :
    ∃ t₁ moved, recenter t = .ok (t₁, moved) ∧ flagged = flags t₁ ∧
      redirectAll (flags t₁) (List.range t₁.size) (t₁, moved) = .ok (t', changed) := by
  unfold round at h
  obtain ⟨⟨t₁, moved⟩, hr, h⟩ := bind_eq_ok h
  obtain ⟨⟨t₂, c⟩, ha, h⟩ := bind_eq_ok h
  cases h
  exact ⟨t₁, moved, hr, rfl, ha⟩

/-- A round keeps the size and what state 0 accepts. -/
theorem round_accepts {t t' : Table} {flagged : Array Bool} {changed : Bool}
    (h : round t = .ok (t', flagged, changed)) :
    t'.size = t.size ∧ ∀ w, t'.Accepts (.state 0) w ↔ t.Accepts (.state 0) w := by
  obtain ⟨t₁, moved, hr, -, ha⟩ := round_cases h
  obtain ⟨-, hsize, hacc⟩ := redirectAll_accepts (flagsPass_flags t₁) ha (fun _ _ => rfl) rfl
  exact ⟨hsize.trans (recenter_size hr),
    fun w => (hacc _ w).trans (Table.recenter_accepts hr w)⟩

theorem rounds_accepts : ∀ {fuel : Nat} {t t' : Table} {flagged : Array Bool},
    rounds fuel t = .ok (t', flagged) →
    t'.size = t.size ∧ ∀ w, t'.Accepts (.state 0) w ↔ t.Accepts (.state 0) w
  | 0, _, _, _, h => by cases h
  | fuel + 1, t, t', flagged, h => by
    unfold rounds at h
    obtain ⟨⟨t₁, flagged₁, changed⟩, hr, h⟩ := bind_eq_ok h
    obtain ⟨hs₁, ha₁⟩ := round_accepts hr
    dsimp only at h
    split at h
    · obtain ⟨hs₂, ha₂⟩ := rounds_accepts h
      exact ⟨hs₂.trans hs₁, fun w => (ha₂ w).trans (ha₁ w)⟩
    · cases h
      exact ⟨hs₁, ha₁⟩

theorem compact_cases {t t' : Table} (h : t.compact = .ok t') :
    0 < t.size ∧ ∃ t₁ flagged, rounds (t.size + 1) t = .ok (t₁, flagged) ∧
      renumber t₁ flagged = .ok t' := by
  unfold Table.compact at h
  split at h
  · cases h
  · rename_i hs
    obtain ⟨⟨t₁, flagged⟩, hr, h⟩ := bind_eq_ok h
    exact ⟨Nat.pos_of_ne_zero hs, t₁, flagged, hr, h⟩

end Compaction

open Compaction in
/-- Compaction keeps what state 0 accepts. -/
theorem Table.compact_accepts {t t' : Table} (h : t.compact = .ok t') (w : List Char) :
    t'.Accepts (.state 0) w ↔ t.Accepts (.state 0) w := by
  obtain ⟨h0, t₁, flagged, hr, hn⟩ := compact_cases h
  obtain ⟨hs, ha⟩ := rounds_accepts hr
  exact (renumber_accepts hn (hs ▸ h0) w).trans (ha w)

end TableGrep
