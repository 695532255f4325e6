import Mathlib.Data.Finset.Card
import TableGrep.Proofs.CompactOutcome

/-!
# How many rounds compaction takes

On a table whose transitions stay in it, the rounds of compaction stop within one round more than
the table has states, unless they meet a cycle of pass-through states first
(`compact_converges`).

The measure is the set of flagged states. A round with flags `F` leaves every unflagged state
leading only to unflagged targets (`Clean`), and every flagged state as it was, so flags only
grow from round to round. A round whose recentring moves state 0 flags one more state: the old
state 0, which passes control to where state 0 is now. A round that moves nothing and flags what
the round before it flagged finds its table clean, so it only chases: its redirects stop where
`chase` stops, and the next round changes nothing (`round_settles`). So every round that changes
the table, except the last, flags a new state, and at most all states but state 0 are flagged.
-/

namespace TableGrep

namespace Target

/-- The target names no state that `flagged` flags. -/
def Unflagged (flagged : Array Bool) (x : Target) : Prop :=
  ∀ m, x = .state m → flagged[m]? = some false

end Target

namespace Compaction

open Table

/-- Every state that `flagged` leaves unflagged leads only to unflagged targets. -/
def Clean (t : Table) (flagged : Array Bool) : Prop :=
  ∀ i st, flagged[i]? = some false → t.get? i = some st →
    st.next1.Unflagged flagged ∧ st.next2.Unflagged flagged

/-- Where `chase` may stop for the state `id`: at a pair that differs, or that agrees on no
state, on `id` itself, or on a state that does not branch. -/
def Halted (t : Table) (id : Nat) (p : Target × Target) : Prop :=
  p.1 = p.2 → ∀ m, p.1 = .state m → m = id ∨ ∃ s, t.get? m = some s ∧ s.kind ≠ .branch

variable {t u : Table} {flagged : Array Bool}

/-! ## Skipping and chasing from unflagged targets -/

theorem skip_of_unflagged {fuel : Nat} {x : Target} (hx : x.Unflagged flagged) :
    skip t flagged fuel x = .ok x := by
  cases x with
  | state m => unfold skip; rw [hx m rfl]
  | accept => exact skip_not_state _ (by simp)
  | unresolved => exact skip_not_state _ (by simp)

theorem skip_result_unflagged {fuel : Nat} {x y : Target} (h : skip t flagged fuel x = .ok y) :
    y.Unflagged flagged := by
  rintro m rfl
  exact skip_unflagged h

theorem chase_halted {id fuel : Nat} {n1 n2 : Target} {p : Target × Target}
    (h : chase t id fuel n1 n2 = .ok p) : Halted t id p := by
  fun_induction chase t id fuel n1 n2 with
  | case1 => cases h; exact fun _ m e => .inl (by cases e; rfl)
  | case2 => cases h
  | case3 => cases h
  | case4 _ _ _ _ _ _ ih => exact ih h
  | case5 _ next _ s hs hk =>
    cases h
    exact fun _ m e => .inr ⟨s, by cases e; exact hs, fun e' => hk (by rw [e']; rfl)⟩
  | case6 _ x hx =>
    cases h
    exact fun _ m e => absurd e (hx m)
  | case7 _ a b hne =>
    cases h
    exact fun e => absurd e hne

/-- Through a clean table, chasing from unflagged targets ends at unflagged targets. -/
theorem chase_unflagged (hc : Clean t flagged) {id fuel : Nat} {n1 n2 : Target}
    {p : Target × Target} (h1 : n1.Unflagged flagged) (h2 : n2.Unflagged flagged)
    (h : chase t id fuel n1 n2 = .ok p) :
    p.1.Unflagged flagged ∧ p.2.Unflagged flagged := by
  fun_induction chase t id fuel n1 n2 with
  | case1 => cases h; exact ⟨h1, h2⟩
  | case2 => cases h
  | case3 => cases h
  | case4 next _ s hs _ _ ih =>
    obtain ⟨h1', h2'⟩ := hc next s (h1 next rfl) hs
    exact ih h1' h2' h
  | case5 => cases h; exact ⟨h1, h2⟩
  | case6 => cases h; exact ⟨h1, h2⟩
  | case7 => cases h; exact ⟨h1, h2⟩

theorem redirect_of_halted {j : Nat} {st : State} (h1 : st.next1.Unflagged flagged)
    (h2 : st.next2.Unflagged flagged) (hh : Halted t j (st.next1, st.next2)) :
    redirect t flagged j st = .ok (st.next1, st.next2) := by
  refine redirect_eq ?_ (skip_of_unflagged h1) (skip_of_unflagged h2)
  by_cases he : st.next1 = st.next2
  · rw [← he]
    cases hx : st.next1 with
    | state m =>
      rcases hh he m hx with rfl | ⟨s, hs, hk⟩
      · exact chase_self
      · exact chase_read hs hk
    | accept => exact chase_not_state .accept (by simp)
    | unresolved => exact chase_not_state .unresolved (by simp)
  · exact chase_ne he

/-! ## A pass of redirects, part way -/

namespace Partway

variable {P : Nat → State → State → Prop}

theorem redirectAll
    (step : ∀ k u st a b, Partway t P k u → t.get? k = some st → (flags t)[k]? = some false →
      redirect u (flags t) k st = .ok (a, b) → P k st ⟨st.kind, a, b⟩) :
    ∀ (n k : Nat) (u u' : Table) (c c' : Bool), k + n = t.size → Partway t P k u →
      Compaction.redirectAll (flags t) (List.range' k n) (u, c) = .ok (u', c') →
        Partway t P t.size u'
  | 0, k, u, u', c, c', hkn, hp, h => by
    cases h
    simpa using hkn ▸ hp
  | n + 1, k, u, u', c, c', hkn, hp, h => by
    obtain ⟨st, hst⟩ := exists_get? (show k < t.size by omega)
    have hu : u.get? k = some st := by rw [hp.same k (.inl (Nat.le_refl _)), hst]
    change Compaction.redirectAll _ (k :: List.range' (k + 1) n) (u, c) = _ at h
    rcases redirectAll_cons_ok h with ⟨hno, h⟩ | ⟨s, a, b, hfk, hs, hr, ⟨h1, h2, h⟩ | ⟨-, h⟩⟩
    · -- passed over: `k` is flagged, since it is a state of `u`
      obtain ⟨f, hfk⟩ : ∃ f, (flags t)[k]? = some f := ⟨_, flags_of_get? hst⟩
      cases f with
      | true => exact redirectAll step n (k + 1) u u' c c' (by omega) (hp.skip_flagged hfk) h
      | false => exact absurd hu (hno st hfk)
    all_goals
      rw [hu, Option.some.injEq] at hs
      subst hs
      have hP := step k u _ a b hp hst hfk hr
    · -- nothing changes at `k`
      rw [← h1, ← h2] at hP
      exact redirectAll step n (k + 1) u u' c c' (by omega) (hp.keep hst hP) h
    · exact redirectAll step n (k + 1) _ u' true c' (by omega) (hp.set hst hfk hP) h

end Partway

/-! ## What every round leaves -/

/-- What a redirect makes of an unflagged state: a state of the same kind that leads only to
targets `flagged` does not flag. -/
def Cleared (flagged : Array Bool) (_ : Nat) (st st' : State) : Prop :=
  st'.kind = st.kind ∧ st'.next1.Unflagged flagged ∧ st'.next2.Unflagged flagged

theorem redirect_cleared {k : Nat} {st : State} {a b : Target}
    (h : redirect u flagged k st = .ok (a, b)) : Cleared flagged k st ⟨st.kind, a, b⟩ := by
  obtain ⟨n1, n2, -, ha, hb⟩ := redirect_cases h
  exact ⟨rfl, skip_result_unflagged ha, skip_result_unflagged hb⟩

theorem Partway.flags_kept {P : Nat → State → State → Prop} {k : Nat} (hp : Partway t P k u)
    {j : Nat} (hj : (flags t)[j]? = some true) : (flags u)[j]? = some true := by
  rw [flags_getElem?, hp.same j (.inr hj), ← flags_getElem?, hj]

theorem Partway.clean {P : Nat → State → State → Prop} {k : Nat}
    (hP : ∀ j st st', P j st st' → st'.next1.Unflagged (flags t) ∧ st'.next2.Unflagged (flags t))
    (hc : ∀ j st, k ≤ j → (flags t)[j]? = some false → t.get? j = some st →
      st.next1.Unflagged (flags t) ∧ st.next2.Unflagged (flags t))
    (hp : Partway t P k u) : Clean u (flags t) := by
  intro i st' hf hu
  obtain ⟨st, hst⟩ := exists_get? (unflagged_lt hf)
  by_cases hk : k ≤ i
  · rw [hp.same i (.inl hk), hst, Option.some.injEq] at hu
    subst hu
    exact hc i st hk hf hst
  · obtain ⟨st'', hu', hP'⟩ := hp.done i st (by omega) hst hf
    rw [hu, Option.some.injEq] at hu'
    subst hu'
    exact hP _ _ _ hP'

/-- A round leaves a table clean for its flags, with every flagged state flagged again. -/
theorem round_clean {F : Array Bool} {c : Bool} (h : round t = .ok (u, F, c)) :
    Clean u F ∧ ∀ j : Nat, F[j]? = some true → (flags u)[j]? = some true := by
  obtain ⟨t₁, moved, -, rfl, ha⟩ := round_cases h
  rw [List.range_eq_range'] at ha
  have hp : Partway t₁ (Cleared (flags t₁)) t₁.size u :=
    Partway.redirectAll (fun _ _ _ _ _ _ _ _ hr => redirect_cleared hr) t₁.size 0 t₁ u moved c
      (Nat.zero_add _) Partway.start ha
  refine ⟨hp.clean (fun _ _ _ h => h.2) (fun _ _ hj _ hs => absurd (lt_size_of_get? hs) (by omega)),
    fun j hj => hp.flags_kept hj⟩

/-- Recentring flags a new state, the old state 0, and keeps the flags of the round before. -/
theorem recenter_grows {G : Array Bool} {t₁ : Table} (hG : G.size = t.size)
    (hsub : ∀ j : Nat, G[j]? = some true → (flags t)[j]? = some true) (hc : Clean t G)
    (hr : recenter t = .ok (t₁, true)) :
    (∀ j : Nat, G[j]? = some true → (flags t₁)[j]? = some true) ∧
      ∃ s : Nat, (flags t₁)[s]? = some true ∧ G[s]? = some false := by
  rcases recenter_cases hr with ⟨-, h⟩ | ⟨e, s, he, hp, hs, hs0, hlt, -, rfl⟩
  · cases h
  have h0 : 0 < t.size := lt_size_of_get? he
  have hget := get?_traded hlt h0
  -- state 0 is never flagged, so the state it passes control to is not flagged either
  have hG0 : G[0]? = some false := by
    cases hg : G[0]? with
    | none => rw [Array.getElem?_eq_none_iff] at hg; omega
    | some b =>
      cases b with
      | false => rfl
      | true =>
        have := hsub 0 hg
        rw [flags_of_get? he] at this
        simp at this
  have hGs : G[s]? = some false := (hc 0 e hG0 he).1 s hs
  have hpass : ∀ st : State, st.isPassThrough = true →
      (st.relabel (trade s)).isPassThrough = true := fun st hst => by
    rw [isPassThrough_relabel relabel_trade_inj, hst]
  refine ⟨fun j hj => ?_, s, ?_, hGs⟩
  · have hj0 : j ≠ 0 := by rintro rfl; rw [hG0] at hj; cases hj
    have hjs : j ≠ s := by rintro rfl; rw [hGs] at hj; cases hj
    have hf := hsub j hj
    rw [flags_getElem?] at hf
    obtain ⟨st, hst, hst'⟩ := Option.map_eq_some_iff.1 hf
    have hsw : swapIndex s j = j := by simp [swapIndex, hj0, hjs]
    rw [flags_getElem?, hget, hsw, hst]
    simp only [Option.map_some, Option.some.injEq]
    simp only [Bool.and_eq_true, bne_iff_ne, ne_eq] at hst' ⊢
    exact ⟨hst'.1, hpass st hst'.2⟩
  · rw [flags_getElem?, hget, swapIndex_self, he]
    simp only [Option.map_some, Option.some.injEq, Bool.and_eq_true, bne_iff_ne, ne_eq]
    exact ⟨hs0, hpass e hp⟩

/-! ## A round that flags nothing new -/

theorem Partway.kind_eq {P : Nat → State → State → Prop} {k : Nat}
    (hP : ∀ j st st', P j st st' → st'.kind = st.kind) (hp : Partway t P k u) (m : Nat) :
    (u.get? m).map State.kind = (t.get? m).map State.kind := by
  cases hs : t.get? m with
  | none =>
    rw [get?_eq_none_iff.2 (by rw [hp.size]; exact get?_eq_none_iff.1 hs)]
  | some st =>
    by_cases hk : k ≤ m ∨ (flags t)[m]? = some true
    · rw [hp.same m hk, hs]
    · obtain ⟨hk1, hk2⟩ := not_or.1 hk
      have hf : (flags t)[m]? = some false := by
        rw [flags_of_get? hs] at hk2 ⊢
        simpa using hk2
      obtain ⟨st', hu, hP'⟩ := hp.done m st (by omega) hs hf
      rw [hu, Option.map_some, Option.map_some, hP _ _ _ hP']

theorem Halted.of_kind {j : Nat} {p : Target × Target}
    (h : ∀ m, (u.get? m).map State.kind = (t.get? m).map State.kind) (hh : Halted t j p) :
    Halted u j p := by
  intro he m hm
  rcases hh he m hm with rfl | ⟨s, hs, hk⟩
  · exact .inl rfl
  · have hm' := h m
    rw [hs, Option.map_some] at hm'
    obtain ⟨s', hs', e⟩ := Option.map_eq_some_iff.1 hm'
    exact .inr ⟨s', hs', e ▸ hk⟩

/-- What a redirect makes of an unflagged state of a clean table: a state of the same kind with
unflagged successors where `chase` stops, and a branch stays as it is. -/
def Steady (t : Table) (j : Nat) (st st' : State) : Prop :=
  Cleared (flags t) j st st' ∧ Halted t j (st'.next1, st'.next2) ∧ (st.kind = .branch → st' = st)

theorem Steady.isPassThrough_eq {j : Nat} {st st' : State} (h : Steady t j st st') :
    st'.isPassThrough = st.isPassThrough := by
  by_cases hb : st.kind = .branch
  · rw [h.2.2 hb]
  · rw [State.isPassThrough_of_kind hb, State.isPassThrough_of_kind (h.1.1 ▸ hb)]

/-- In a clean table whose state 0 stays in place, a redirect steadies each unflagged state. -/
theorem redirect_steady (hc : Clean t (flags t)) (h0 : recenter t = .ok (t, false)) {k : Nat}
    {st : State} {a b : Target} (hp : Partway t (Steady t) k u) (hst : t.get? k = some st)
    (hf : (flags t)[k]? = some false) (hr : redirect u (flags t) k st = .ok (a, b)) :
    Steady t k st ⟨st.kind, a, b⟩ := by
  have hkind := hp.kind_eq (fun _ _ _ h => h.1.1)
  have hcu : Clean u (flags t) :=
    hp.clean (fun _ _ _ h => h.1.2) (fun j st _ hf hs => hc j st hf hs)
  obtain ⟨h1, h2⟩ := hc k st hf hst
  obtain ⟨n1, n2, hch, ha, hb⟩ := redirect_cases hr
  obtain ⟨hn1, hn2⟩ := chase_unflagged hcu h1 h2 hch
  rw [skip_of_unflagged hn1, Except.ok.injEq] at ha
  rw [skip_of_unflagged hn2, Except.ok.injEq] at hb
  subst ha hb
  refine ⟨⟨rfl, hn1, hn2⟩, (chase_halted hch).of_kind (fun m => (hkind m).symm), fun hbr => ?_⟩
  have hh : Halted u k (st.next1, st.next2) := by
    intro he m hm
    dsimp only at he hm
    have hpass : st.isPassThrough = true := by
      simp [State.isPassThrough, hbr, Kind.isBranch, he]
    rw [flags_of_get? hst, hpass, Bool.and_true] at hf
    obtain rfl : k = 0 := by simpa using hf
    exact .inl ((recenter_unmoved.1 h0).2 st m hst hpass hm)
  have hr' := redirect_of_halted h1 h2 hh
  rw [hr, Except.ok.injEq, Prod.mk.injEq] at hr'
  obtain ⟨rfl, rfl⟩ := hr'
  rfl

namespace Partway

variable (hp : Partway t (Steady t) t.size u)
include hp

theorem steady {j : Nat} {st : State} (hf : (flags t)[j]? = some false) (hs : t.get? j = some st) :
    ∃ st', u.get? j = some st' ∧ Steady t j st st' :=
  hp.done j st (lt_size_of_get? hs) hs hf

theorem flags_steady : flags u = flags t := by
  refine Array.ext_getElem? fun j => ?_
  cases hs : t.get? j with
  | none =>
    rw [flags_getElem?, flags_getElem?, hs, get?_eq_none_iff.2 (hp.size ▸ get?_eq_none_iff.1 hs)]
  | some st =>
    cases hb : (j != 0 && st.isPassThrough) with
    | true =>
      rw [flags_getElem?, flags_getElem?, hp.same j (.inr (by rw [flags_of_get? hs, hb]))]
    | false =>
      obtain ⟨st', hu, hs'⟩ := hp.steady (by rw [flags_of_get? hs, hb]) hs
      rw [flags_of_get? hu, flags_of_get? hs, hs'.isPassThrough_eq]

theorem recenter_steady (h0 : recenter t = .ok (t, false)) : recenter u = .ok (u, false) := by
  refine recenter_unmoved.2 ⟨rfl, fun e s hu0 he hs => ?_⟩
  obtain ⟨st, hst⟩ := exists_get? (show 0 < t.size by rw [← hp.size]; exact lt_size_of_get? hu0)
  obtain ⟨st', hu, hs'⟩ := hp.steady (by rw [flags_of_get? hst]; rfl) hst
  rw [hu0, Option.some.injEq] at hu
  subst hu
  have hpass : st.isPassThrough = true := hs'.isPassThrough_eq ▸ he
  have hbr : st.kind = .branch := by
    by_contra hk
    rw [State.isPassThrough_of_kind hk] at hpass
    cases hpass
  rw [hs'.2.2 hbr] at hs he
  exact (recenter_unmoved.1 h0).2 st s hst he hs

theorem stable_steady : Stable u := by
  intro id st' hf hu
  rw [hp.flags_steady] at hf ⊢
  obtain ⟨st, hst⟩ := exists_get? (unflagged_lt hf)
  obtain ⟨st'', hu', ⟨-, h1, h2⟩, hh, -⟩ := hp.steady hf hst
  rw [hu, Option.some.injEq] at hu'
  subst hu'
  exact redirect_of_halted h1 h2 (hh.of_kind (hp.kind_eq fun _ _ _ h => h.1.1))

end Partway

/-- A round over a clean table whose state 0 stays in place is the last that changes anything. -/
theorem round_settles (hc : Clean t (flags t)) (h0 : recenter t = .ok (t, false)) {F : Array Bool}
    {c : Bool} (h : round t = .ok (u, F, c)) : round u = .ok (u, flags u, false) := by
  obtain ⟨t₁, moved, hr, rfl, ha⟩ := round_cases h
  rw [h0, Except.ok.injEq, Prod.mk.injEq] at hr
  obtain ⟨rfl, rfl⟩ := hr
  rw [List.range_eq_range'] at ha
  have hp : Partway t (Steady t) t.size u :=
    Partway.redirectAll (fun _ _ _ _ _ hp hst hf hr => redirect_steady hc h0 hp hst hf hr)
      t.size 0 t u false c (Nat.zero_add _) Partway.start ha
  exact round_eq_unchanged_iff.2 ⟨hp.recenter_steady h0, hp.stable_steady⟩

/-! ## Counting flagged states -/

/-- The indices a flag array flags. -/
def flagSet (G : Array Bool) : Finset Nat :=
  (Finset.range G.size).filter fun j => G[j]? = some true

@[simp] theorem mem_flagSet {G : Array Bool} {j : Nat} : j ∈ flagSet G ↔ G[j]? = some true := by
  simp only [flagSet, Finset.mem_filter, Finset.mem_range, and_iff_right_iff_imp]
  intro h
  exact (Array.getElem?_eq_some_iff.1 h).1

theorem flagSet_mono {G H : Array Bool} (h : ∀ j : Nat, G[j]? = some true → H[j]? = some true) :
    flagSet G ⊆ flagSet H :=
  fun j hj => mem_flagSet.2 (h j (mem_flagSet.1 hj))

theorem unflagged_of_flagSet_eq {G H : Array Bool} (hs : G.size = H.size)
    (he : flagSet G = flagSet H) {i : Nat} (h : G[i]? = some false) : H[i]? = some false := by
  have hi : i < H.size := hs ▸ (Array.getElem?_eq_some_iff.1 h).1
  rw [Array.getElem?_eq_getElem hi]
  cases hb : H[i] with
  | false => rfl
  | true =>
    have hm : i ∈ flagSet H := mem_flagSet.2 (by rw [Array.getElem?_eq_getElem hi, hb])
    rw [← he, mem_flagSet, h] at hm
    cases hm

theorem size_flags (t : Table) : (flags t).size = t.size := by
  simp [flags, Table.size]

theorem card_flagSet_flags_lt (t : Table) (h0 : 0 < t.size) :
    (flagSet (flags t)).card < t.size := by
  have hsub : flagSet (flags t) ⊆ (Finset.range t.size).erase 0 := by
    intro j hj
    have hf := mem_flagSet.1 hj
    refine Finset.mem_erase.2 ⟨fun e => ?_, Finset.mem_range.2 (unflagged_lt hf)⟩
    subst e
    rw [flags_getElem?] at hf
    obtain ⟨st, -, hst⟩ := Option.map_eq_some_iff.1 hf
    simp at hst
  calc (flagSet (flags t)).card
      ≤ ((Finset.range t.size).erase 0).card := Finset.card_le_card hsub
    _ < t.size := by
      rw [Finset.card_erase_of_mem (Finset.mem_range.2 h0), Finset.card_range]
      omega

/-! ## From round to round -/

/-- What holds between two rounds: `G` are the flags of the round before, which flags only
states that are still flagged, and the table is clean for it. -/
structure Between (t : Table) (G : Array Bool) : Prop where
  inRange : t.InRange
  size : G.size = t.size
  sub : ∀ j : Nat, G[j]? = some true → (flags t)[j]? = some true
  clean : Clean t G

theorem Between.start (ht : t.InRange) : Between t (Array.replicate t.size false) := by
  refine ⟨ht, Array.size_replicate, fun j hj => ?_, fun i st _ hs => ⟨?_, ?_⟩⟩
  · simp [Array.getElem?_replicate] at hj
  all_goals
    intro m hm
    simp only [Array.getElem?_replicate, ite_eq_left_iff, not_lt, reduceCtorEq, imp_false, not_le]
  · exact ht.next1_below hs m hm
  · exact ht.next2_below hs m hm

theorem Between.card_lt {G : Array Bool} (hb : Between t G) (h0 : 0 < t.size) :
    (flagSet G).card < t.size :=
  lt_of_le_of_lt (Finset.card_le_card (flagSet_mono hb.sub)) (card_flagSet_flags_lt t h0)

/-- Every round flags a new state or is followed by a round that changes nothing. -/
theorem Between.round {G F : Array Bool} {c : Bool} (hb : Between t G)
    (h : round t = .ok (u, F, c)) :
    Between u F ∧ (flagSet G ⊂ flagSet F ∨ round u = .ok (u, flags u, false)) := by
  obtain ⟨t₁, moved, hr, rfl, ha⟩ := round_cases h
  obtain ⟨hc, hsub⟩ := round_clean h
  have hsize : (flags t₁).size = u.size := by
    rw [size_flags, recenter_size hr, (round_accepts h).1]
  refine ⟨⟨hb.inRange.round h, hsize, hsub, hc⟩, ?_⟩
  cases moved with
  | true =>
    obtain ⟨hG, s, hs, hGs⟩ := recenter_grows hb.size hb.sub hb.clean hr
    refine .inl (Finset.ssubset_iff_of_subset (flagSet_mono hG) |>.2 ⟨s, mem_flagSet.2 hs, ?_⟩)
    rw [mem_flagSet, hGs]
    simp
  | false =>
    obtain ⟨rfl, -⟩ := recenter_unmoved.1 hr
    rcases (flagSet_mono hb.sub).ssubset_or_eq with hlt | he
    · exact .inl hlt
    -- flagging nothing new, the table is clean for its own flags, and the round settles it
    have hs : G.size = (flags t₁).size := by rw [hb.size, size_flags]
    have hclean : Clean t₁ (flags t₁) := fun i st hf hst =>
      have hunf : ∀ x : Target, x.Unflagged G → x.Unflagged (flags t₁) :=
        fun x hx m hm => unflagged_of_flagSet_eq hs he (hx m hm)
      have := hb.clean i st (unflagged_of_flagSet_eq hs.symm he.symm hf) hst
      ⟨hunf _ this.1, hunf _ this.2⟩
    exact .inr (round_settles hclean hr h)

/-- Rounds stop short of the limit, or at a cycle, once it is past the states not yet flagged. -/
theorem Between.rounds : ∀ (fuel : Nat) {t : Table} {G : Array Bool}, Between t G → 0 < t.size →
    t.size + 1 ≤ fuel + (flagSet G).card → ∀ e, rounds fuel t = .error e → ∃ i, e.fault = .cycle i
  | 0, t, G, hb, h0, hf, _, _ => by
    have := hb.card_lt h0
    omega
  | fuel + 1, t, G, hb, h0, hf, e, h => by
    unfold Compaction.rounds at h
    rcases bind_eq_error h with hr | ⟨⟨u, F, c⟩, hr, h⟩
    · exact round_fault hb.inRange hr
    obtain ⟨hb', hgrow⟩ := hb.round hr
    have hsz : u.size = t.size := (round_accepts hr).1
    dsimp only at h
    split at h
    · rcases hgrow with hlt | hsettle
      · have := Finset.card_lt_card hlt
        exact Between.rounds fuel hb' (by omega) (by omega) e h
      · -- the round after changes nothing, and the limit leaves room for it
        cases fuel with
        | zero =>
          have := hb.card_lt h0
          omega
        | succ fuel =>
          unfold Compaction.rounds at h
          rw [hsettle] at h
          cases h
    · cases h

end Compaction

open Compaction in
/-- On a well-formed table compaction fails only at a cycle of pass-through states, and within
one round more than the table has states its rounds reach one that changes nothing. -/
theorem compact_converges (t : Table) (hw : t.WellFormed) :
    (∀ e, t.compact = .error e → ∃ i, e.fault = .cycle i) ∧
      ((∃ u, rounds (t.size + 1) t = .ok (u, flags u) ∧ round u = .ok (u, flags u, false)) ∨
        ∃ i u, rounds (t.size + 1) t = .error ⟨.cycle i, u⟩) := by
  have h0 := (Table.wellFormed_iff.1 hw).1
  have hcycle : ∀ e, rounds (t.size + 1) t = .error e → ∃ i, e.fault = .cycle i :=
    (Between.start hw.inRange).rounds (t.size + 1) h0 (Nat.le_add_right _ _)
  refine ⟨fun e h => ?_, ?_⟩
  · rcases compact_error_cases h with ⟨hz, -⟩ | hr | ⟨u, flagged, hr, hn⟩
    · omega
    · exact hcycle e hr
    · -- the rounds stop at a stable table with resolved transitions, which renumbers
      obtain ⟨rfl, -, hs⟩ := rounds_converged hr
      obtain ⟨t', ht'⟩ := renumber_of_stable hs ((rounds_keep hr).2 hw.resolved)
        (by rw [(rounds_accepts hr).1]; exact h0)
      rw [ht'] at hn
      cases hn
  · cases hr : rounds (t.size + 1) t with
    | error e =>
      obtain ⟨i, hi⟩ := hcycle e hr
      exact .inr ⟨i, e.table, by rw [← hi]⟩
    | ok p =>
      obtain ⟨u, F⟩ := p
      obtain ⟨rfl, hrc, hs⟩ := rounds_converged hr
      exact .inl ⟨u, rfl, round_eq_unchanged_iff.2 ⟨hrc, hs⟩⟩

open Compaction in
/-- The rounds over the uncompacted table of `a` recentre it and settle within the limit. -/
theorem compact_converges_literal :
    Table.WellFormed ⟨#[⟨.branch, .state 1, .state 1⟩, ⟨.literal 'a', .state 2, .state 2⟩,
        ⟨.branch, .accept, .accept⟩]⟩ ∧
      (∀ e, Table.compact ⟨#[⟨.branch, .state 1, .state 1⟩, ⟨.literal 'a', .state 2, .state 2⟩,
        ⟨.branch, .accept, .accept⟩]⟩ = .error e → ∃ i, e.fault = .cycle i) :=
  have hw : Table.WellFormed ⟨#[⟨.branch, .state 1, .state 1⟩,
      ⟨.literal 'a', .state 2, .state 2⟩, ⟨.branch, .accept, .accept⟩]⟩ := by decide
  ⟨hw, (compact_converges _ hw).1⟩

end TableGrep
