import TableGrep.Pattern.Build
import TableGrep.Proofs.Run

/-!
# The states of a pattern

`Regex.emit r t` appends the states of `r` to `t`. `Built r t t' f` collects what that gives: `t'`
keeps the states of `t` and adds a region of new states entered at `f.start`, whose last state
`f.stop` is the only one with open (unresolved) successors, and the runs from `f.start` to that
open end read exactly the words of `r`.

There is one lemma per construct (`Built.seq`, `Built.alt`, `Built.star`, `Built.plus`,
`Built.opt`), each stated over the tables `emit` builds, and `emit_built` puts them together by
induction on the pattern. The loops of `*` and `+` are the one place a run can come back into a
region it left; `Built.loop_run` handles them by an induction on the run itself. Finally
`accepts_toTable`: the table of a pattern accepts from state 0 exactly the words of the pattern.
-/

namespace TableGrep

namespace Table

variable {t : Table}

theorem get?_push_lt {s : State} {i : Nat} (h : i < t.size) : (t.push s).get? i = t.get? i := by
  rw [get?_push, if_neg (by omega)]

@[simp] theorem get?_push_self {s : State} : (t.push s).get? t.size = some s := by
  simp [get?_push]

theorem get?_push_eq {s : State} {i : Nat} (h : i = t.size) : (t.push s).get? i = some s :=
  h ▸ get?_push_self

theorem get?_connect_ne {i j : Nat} {k : Target} (h : i ≠ j) : (t.connect i k).get? j = t.get? j := by
  rw [get?_connect, if_neg h]

@[simp] theorem get?_connect_self {i : Nat} {k : Target} :
    (t.connect i k).get? i = (t.get? i).map (·.fill k) := by
  simp [get?_connect]

/-! ### The tables of the constructs, state by state -/

theorem get?_loop {t₁ : Table} {start stop : Nat} (hf : stop < t₁.size) :
    let T := (t₁.addBranch (.state start) .unresolved).connect stop (.state t₁.size)
    T.size = t₁.size + 1 ∧ (∀ i, i < t₁.size → i ≠ stop → T.get? i = t₁.get? i) ∧
      T.get? stop = (t₁.get? stop).map (·.fill (.state t₁.size)) ∧
      T.get? t₁.size = some ⟨.branch, .state start, .unresolved⟩ := by
  refine ⟨by simp, fun i hi hne => ?_, ?_, ?_⟩
  · rw [get?_connect_ne (Ne.symm hne), addBranch, get?_push_lt hi]
  · rw [get?_connect_self, addBranch, get?_push_lt hf]
  · rw [get?_connect_ne (by omega), addBranch, get?_push_self]

theorem get?_opt {t₁ : Table} {start stop : Nat} (hf : stop < t₁.size) :
    let T := ((t₁.connect stop (.state (t₁.size + 1))).addBranch (.state start)
      (.state (t₁.size + 1))).addBranch .unresolved .unresolved
    T.size = t₁.size + 2 ∧ (∀ i, i < t₁.size → i ≠ stop → T.get? i = t₁.get? i) ∧
      T.get? stop = (t₁.get? stop).map (·.fill (.state (t₁.size + 1))) ∧
      T.get? t₁.size = some ⟨.branch, .state start, .state (t₁.size + 1)⟩ ∧
      T.get? (t₁.size + 1) = some ⟨.branch, .unresolved, .unresolved⟩ := by
  refine ⟨by simp, fun i hi hne => ?_, ?_, ?_, ?_⟩
  · rw [addBranch, get?_push_lt (by simp; omega), addBranch, get?_push_lt (by simpa using hi),
      get?_connect_ne (Ne.symm hne)]
  · rw [addBranch, get?_push_lt (by simp; omega), addBranch, get?_push_lt (by simpa using hf),
      get?_connect_self]
  · rw [addBranch, get?_push_lt (by simp), addBranch, get?_push_eq (by simp)]
  · rw [addBranch, get?_push_eq (by simp)]

theorem get?_alt {t₁ t₂ : Table} {f g : Fragment} (hf : f.stop < t₁.size)
    (hg : t₁.size + 1 ≤ g.stop) (hg' : g.stop < t₂.size)
    (hframe : ∀ i, i < t₁.size + 1 →
      t₂.get? i = (t₁.addBranch (.state f.start) .unresolved).get? i) :
    let T := (((t₂.addBranch .unresolved .unresolved).connect t₁.size (.state g.start)).connect
      f.stop (.state t₂.size)).connect g.stop (.state t₂.size)
    T.size = t₂.size + 1 ∧ (∀ i, i < t₁.size → i ≠ f.stop → T.get? i = t₁.get? i) ∧
      T.get? f.stop = (t₁.get? f.stop).map (·.fill (.state t₂.size)) ∧
      T.get? t₁.size = some ⟨.branch, .state f.start, .state g.start⟩ ∧
      (∀ i, t₁.size + 1 ≤ i → i < t₂.size → i ≠ g.stop → T.get? i = t₂.get? i) ∧
      T.get? g.stop = (t₂.get? g.stop).map (·.fill (.state t₂.size)) ∧
      T.get? t₂.size = some ⟨.branch, .unresolved, .unresolved⟩ := by
  refine ⟨by simp, fun i hi hne => ?_, ?_, ?_, fun i hi₁ hi₂ hne => ?_, ?_, ?_⟩
  · rw [get?_connect_ne (by omega), get?_connect_ne (Ne.symm hne), get?_connect_ne (by omega),
      addBranch, get?_push_lt (by omega), hframe i (by omega), addBranch, get?_push_lt hi]
  · rw [get?_connect_ne (by omega), get?_connect_self, get?_connect_ne (by omega), addBranch,
      get?_push_lt (by omega), hframe _ (by omega), addBranch, get?_push_lt hf]
  · rw [get?_connect_ne (by omega), get?_connect_ne (by omega), get?_connect_self, addBranch,
      get?_push_lt (by omega), hframe _ (by omega), addBranch, get?_push_self]
    rfl
  · rw [get?_connect_ne (Ne.symm hne), get?_connect_ne (by omega), get?_connect_ne (by omega),
      addBranch, get?_push_lt hi₂]
  · rw [get?_connect_self, get?_connect_ne (by omega), get?_connect_ne (by omega), addBranch,
      get?_push_lt hg']
  · rw [get?_connect_ne (by omega), get?_connect_ne (by omega), get?_connect_ne (by omega),
      addBranch, get?_push_self]

theorem Region.of_states {lo hi stop : Nat} (hlo : lo ≤ stop) (hhi : stop < hi)
    (h : ∀ i, lo ≤ i → i < hi → ∃ s, t.get? i = some s ∧ ∀ x ∈ s.successors,
      (x = .unresolved ∧ i = stop) ∨ ∃ j, x = .state j ∧ lo ≤ j ∧ j < hi) :
    t.Region lo hi stop where
  stop_ge := hlo
  stop_lt := hhi
  closed i hl hh := by
    obtain ⟨s, hs, hx⟩ := h i hl hh
    exact ⟨s, hs, fun x hxs => (hx x hxs).imp_left (·.1)⟩
  resolved i s hl hh hne hs hu := by
    obtain ⟨s', hs', hx⟩ := h i hl hh
    rw [hs, Option.some.injEq] at hs'
    subst hs'
    rcases hx _ hu with ⟨-, h⟩ | ⟨j, h, -⟩
    · exact hne h
    · cases h

theorem Exits.states_within {t' : Table} {lo hi stop k lo' hi' : Nat}
    (he : Exits t t' lo hi stop (.state k)) (hk : lo' ≤ k ∧ k < hi') (hlo : lo' ≤ lo) (hhi : hi ≤ hi')
    {i : Nat} (hl : lo ≤ i) (hh : i < hi) :
    ∃ s, t'.get? i = some s ∧ ∀ x ∈ s.successors, ∃ j, x = .state j ∧ lo' ≤ j ∧ j < hi' := by
  obtain ⟨s, hs, -⟩ := he.region.closed i hl hh
  obtain ⟨s', hs', -⟩ := he.step_back hl hh hs
  refine ⟨s', hs', fun x hx => ?_⟩
  obtain ⟨-, -, -, ⟨j, rfl, hj₁, hj₂, -⟩ | ⟨-, rfl, -⟩⟩ := he.step_cases hl hh hs' hx
  · exact ⟨j, rfl, by omega, by omega⟩
  · exact ⟨k, rfl, hk.1, hk.2⟩

theorem Exits.states_same {t' : Table} {lo hi stop : Nat} (he : Exits t t' lo hi stop .unresolved)
    {i : Nat} (hl : lo ≤ i) (hh : i < hi) :
    ∃ s, t'.get? i = some s ∧ ∀ x ∈ s.successors,
      (x = .unresolved ∧ i = stop) ∨ ∃ j, x = .state j ∧ lo ≤ j ∧ j < hi := by
  obtain ⟨s, hs, hsucc⟩ := he.region.closed i hl hh
  obtain ⟨s', hs', -, hkeep, hopen⟩ := he.step_back hl hh hs
  have hss : s' = s := by
    by_cases hi : i = stop
    · subst hi
      rw [he.fill, hs] at hs'
      simpa using hs'.symm
    · rw [he.same i hl hh hi, hs, Option.some.injEq] at hs'
      exact hs'.symm
  subst hss
  refine ⟨s', hs', fun x hx => ?_⟩
  rcases hsucc x hx with rfl | h
  · exact .inl ⟨rfl, (hopen hx).1⟩
  · exact .inr h

/-- When a region's stop leads to `k`, runs through `k` read what the region's runs read. -/
theorem Exits.run_iff_of_exit {t' : Table} {lo hi stop : Nat} {k y : Target}
    (he : Exits t t' lo hi stop k) (hk : ∀ v, t'.Run k v y ↔ v = [])
    (hy : ∀ j, y = .state j → j < lo ∨ hi ≤ j) {x : Nat} (hl : lo ≤ x) (hh : x < hi)
    {w : List Char} : t'.Run (.state x) w y ↔ t.Run (.state x) w .unresolved := by
  constructor
  · intro h
    obtain ⟨u, v, rfl, hu, hv⟩ := he.escape hl hh h hy
    rw [(hk v).1 hv, List.append_nil]
    exact hu
  · intro h
    simpa using he.enter hl hh h ((hk []).2 rfl)

/-- A table that holds a region's states unchanged has the same runs from it to its open end. -/
theorem Exits.run_iff_of_same {t' : Table} {lo hi stop : Nat}
    (he : Exits t t' lo hi stop .unresolved) {x : Nat} (hl : lo ≤ x) (hh : x < hi)
    {w : List Char} : t'.Run (.state x) w .unresolved ↔ t.Run (.state x) w .unresolved :=
  he.run_iff_of_exit (fun _ => ⟨fun h => h.of_unresolved.1, fun h => h ▸ .refl _⟩)
    (fun _ h => by cases h) hl hh

end Table

namespace Regex

/-! ## The words of a pattern, construct by construct -/

theorem matches_literal_iff {c : Char} {w : List Char} : (literal c).Matches w ↔ w = [c] := by
  constructor
  · rintro ⟨⟩; rfl
  · rintro rfl; exact .literal c

theorem matches_wildcard_iff {w : List Char} : wildcard.Matches w ↔ ∃ c, w = [c] := by
  constructor
  · rintro ⟨⟩; exact ⟨_, rfl⟩
  · rintro ⟨c, rfl⟩; exact .wildcard c

theorem matches_seq_iff {r s : Regex} {w : List Char} :
    (seq r s).Matches w ↔ ∃ u v, w = u ++ v ∧ r.Matches u ∧ s.Matches v := by
  constructor
  · rintro ⟨⟩; exact ⟨_, _, rfl, ‹_›, ‹_›⟩
  · rintro ⟨u, v, rfl, hu, hv⟩; exact .seq hu hv

theorem matches_alt_iff {r s : Regex} {w : List Char} :
    (alt r s).Matches w ↔ r.Matches w ∨ s.Matches w := by
  constructor
  · rintro (h | h)
    · exact .inl ‹_›
    · exact .inr ‹_›
  · rintro (h | h)
    · exact .altLeft h
    · exact .altRight h

theorem matches_plus_iff {r : Regex} {w : List Char} :
    (plus r).Matches w ↔ ∃ u v, w = u ++ v ∧ r.Matches u ∧ (star r).Matches v := by
  constructor
  · rintro ⟨⟩; exact ⟨_, _, rfl, ‹_›, ‹_›⟩
  · rintro ⟨u, v, rfl, hu, hv⟩; exact .plus hu hv

theorem matches_opt_iff {r : Regex} {w : List Char} :
    (opt r).Matches w ↔ w = [] ∨ r.Matches w := by
  constructor
  · rintro (h | h)
    · exact .inl rfl
    · exact .inr ‹_›
  · rintro (rfl | h)
    · exact .optNone
    · exact .optSome h

end Regex

open Table

/-- `t'` is `t` with the states of `r` appended, entered at `f.start` and open at `f.stop`, the
last state; the runs from the start to the open end read exactly the words of `r`. -/
structure Built (r : Regex) (t t' : Table) (f : Fragment) : Prop where
  size_lt : t.size < t'.size
  frame : ∀ i, i < t.size → t'.get? i = t.get? i
  start_ge : t.size ≤ f.start
  start_lt : f.start < t'.size
  stop_eq : f.stop = t'.size - 1
  region : t'.Region t.size t'.size f.stop
  run_iff : ∀ w, t'.Run (.state f.start) w .unresolved ↔ r.Matches w

namespace Built

variable {r s : Regex} {t t' t₁ t₂ : Table} {f g : Fragment}

theorem stop_lt (h : Built r t t' f) : f.stop < t'.size := h.region.stop_lt

theorem stop_ge (h : Built r t t' f) : t.size ≤ f.stop := h.region.stop_ge

theorem exits_of_frame {t'' : Table} (h : Built r t t' f) (k : Target)
    (hsame : ∀ i, t.size ≤ i → i < t'.size → i ≠ f.stop → t''.get? i = t'.get? i)
    (hfill : t''.get? f.stop = (t'.get? f.stop).map (·.fill k)) :
    Exits t' t'' t.size t'.size f.stop k :=
  ⟨h.region, hsame, hfill⟩

theorem single {kind : Kind} (hk : kind.isBranch = false) {r : Regex}
    (hr : ∀ w, r.Matches w ↔ ∃ c, kind.consumes c = true ∧ w = [c]) :
    Built r t (t.push ⟨kind, .unresolved, .unresolved⟩) ⟨t.size, t.size⟩ where
  size_lt := by simp
  frame i hi := get?_push_lt hi
  start_ge := Nat.le_refl _
  start_lt := by simp
  stop_eq := by simp
  region := by
    refine Region.of_states (Nat.le_refl _) (by simp) fun i hl hh => ?_
    have hi : i = t.size := by simp at hh; omega
    subst hi
    refine ⟨_, get?_push_self, fun x hx => .inl ⟨?_, rfl⟩⟩
    simpa [State.successors] using hx
  run_iff w := by
    rw [hr]
    constructor
    · intro h
      cases h with
      | branch hs hkb =>
        rw [get?_push_self, Option.some.injEq] at hs
        subst hs
        simp only at hkb
        rw [hkb] at hk
        cases hk
      | @read _ _ c x _ w hs hc hx h =>
        rw [get?_push_self, Option.some.injEq] at hs
        subst hs
        simp only [State.successors, ite_true, List.mem_singleton] at hx
        subst hx
        exact ⟨c, hc, by rw [h.of_unresolved.1]⟩
    · rintro ⟨c, hc, rfl⟩
      exact .read get?_push_self hc (by simp [State.successors]) (.refl _)

theorem literal (c : Char) :
    Built (.literal c) t (t.push ⟨.literal c, .unresolved, .unresolved⟩) ⟨t.size, t.size⟩ :=
  single rfl fun w => by
    rw [Regex.matches_literal_iff]
    constructor
    · rintro rfl; exact ⟨c, by simp [Kind.consumes], rfl⟩
    · rintro ⟨d, hd, rfl⟩; simp [Kind.consumes] at hd; rw [hd]

theorem wildcard :
    Built .wildcard t (t.push ⟨.wildcard, .unresolved, .unresolved⟩) ⟨t.size, t.size⟩ :=
  single rfl fun w => by
    rw [Regex.matches_wildcard_iff]
    exact ⟨fun ⟨c, h⟩ => ⟨c, rfl, h⟩, fun ⟨c, _, h⟩ => ⟨c, h⟩⟩

theorem seq (hr : Built r t t₁ f) (hs : Built s t₁ t₂ g) :
    Built (.seq r s) t (t₂.connect f.stop (.state g.start)) ⟨f.start, g.stop⟩ := by
  have hfs := hr.stop_lt
  have hfs' := hr.stop_ge
  have hgs := hs.stop_ge
  -- the states of `r` in the end, with their stop connected to the start of `s`
  have her : Exits t₁ (t₂.connect f.stop (.state g.start)) t.size t₁.size f.stop
      (.state g.start) := by
    refine hr.exits_of_frame _ (fun i _ hh hne => ?_) ?_
    · rw [get?_connect_ne (Ne.symm hne), hs.frame i hh]
    · rw [get?_connect_self, hs.frame _ hfs]
  -- the states of `s`, untouched
  have hes : Exits t₂ (t₂.connect f.stop (.state g.start)) t₁.size t₂.size g.stop
      .unresolved := by
    refine hs.exits_of_frame _ (fun i hl _ _ => get?_connect_ne (by omega)) ?_
    rw [get?_connect_ne (by omega)]
    simp
  have h₁ := hr.size_lt
  have h₂ := hs.size_lt
  refine ⟨by simp; omega, fun i hi => ?_, hr.start_ge, by simp; have := hr.start_lt; omega,
    by simp [hs.stop_eq], ?_, fun w => ?_⟩
  · rw [get?_connect_ne (by omega), hs.frame i (by omega), hr.frame i hi]
  · refine Region.of_states (show t.size ≤ g.stop by omega)
      (show g.stop < _ by simp; exact hs.stop_lt) fun i hl hh => ?_
    simp only [size_connect] at hh ⊢
    rcases Nat.lt_or_ge i t₁.size with hi | hi
    · obtain ⟨s', hs', hx⟩ := her.states_within
        (show t.size ≤ g.start ∧ g.start < t₂.size from ⟨by have := hs.start_ge; omega, hs.start_lt⟩)
        (Nat.le_refl _) (by omega) hl hi
      exact ⟨s', hs', fun x hxs => .inr (hx x hxs)⟩
    · obtain ⟨s', hs', hx⟩ := hes.states_same hi hh
      refine ⟨s', hs', fun x hxs => (hx x hxs).imp id fun ⟨j, hj, hj₁, hj₂⟩ => ⟨j, hj, by omega, hj₂⟩⟩
  · rw [Regex.matches_seq_iff]
    constructor
    · intro h
      obtain ⟨u, v, rfl, hu, hv⟩ := her.escape hr.start_ge hr.start_lt h (fun _ h => by cases h)
      exact ⟨u, v, rfl, (hr.run_iff u).1 hu,
        (hs.run_iff v).1 ((hes.run_iff_of_same hs.start_ge hs.start_lt).1 hv)⟩
    · rintro ⟨u, v, rfl, hu, hv⟩
      exact her.enter hr.start_ge hr.start_lt ((hr.run_iff u).2 hu)
        ((hes.run_iff_of_same hs.start_ge hs.start_lt).2 ((hs.run_iff v).2 hv))

theorem alt (hr : Built r t t₁ f) (hs : Built s (t₁.addBranch (.state f.start) .unresolved) t₂ g) :
    Built (.alt r s) t
      ((((t₂.addBranch .unresolved .unresolved).connect t₁.size (.state g.start)).connect f.stop
        (.state t₂.size)).connect g.stop (.state t₂.size)) ⟨t₁.size, t₂.size⟩ := by
  have hf₁ := hr.stop_lt
  have hf₂ := hr.stop_ge
  have hg₁ := hs.stop_lt
  have hg₂ := hs.stop_ge
  have hn := hr.size_lt
  have hm := hs.size_lt
  have hfs₁ := hr.start_ge
  have hfs₂ := hr.start_lt
  have hgs₁ := hs.start_ge
  have hgs₂ := hs.start_lt
  simp only [size_addBranch] at hg₂ hm hgs₁
  obtain ⟨hsize, hlow, hfstop, hb, hhigh, hgstop, hmerge⟩ :=
    get?_alt hf₁ hg₂ hg₁ fun i hi => hs.frame i (by simpa using hi)
  generalize (((t₂.addBranch .unresolved .unresolved).connect t₁.size (.state g.start)).connect
    f.stop (.state t₂.size)).connect g.stop (.state t₂.size) = T at *
  have her : Exits t₁ T t.size t₁.size f.stop (.state t₂.size) :=
    hr.exits_of_frame _ (fun i _ hh hne => hlow i hh hne) hfstop
  have hes : Exits t₂ T (t₁.size + 1) t₂.size g.stop (.state t₂.size) := by
    refine ⟨?_, fun i hl hh hne => hhigh i hl hh hne, hgstop⟩
    simpa using hs.region
  have hend : ∀ v, T.Run (.state t₂.size) v .unresolved ↔ v = [] := fun _ => run_open_branch hmerge
  refine ⟨by omega, fun i hi => ?_, show t.size ≤ t₁.size by omega,
    show t₁.size < T.size by omega, show t₂.size = T.size - 1 by omega, ?_, fun w => ?_⟩
  · rw [hlow i (by omega) (by omega), hr.frame i hi]
  · refine Region.of_states (show t.size ≤ t₂.size by omega) (show t₂.size < T.size by omega)
      fun i hl hh => ?_
    rw [hsize] at hh ⊢
    rcases Nat.lt_or_ge i t₁.size with hi | hi
    · obtain ⟨s', hs', hx⟩ := her.states_within
        (show t.size ≤ t₂.size ∧ t₂.size < t₂.size + 1 by omega) (Nat.le_refl _) (by omega) hl hi
      exact ⟨s', hs', fun x hxs => .inr (hx x hxs)⟩
    rcases Nat.eq_or_lt_of_le hi with rfl | hi
    · refine ⟨_, hb, fun x hx => .inr ?_⟩
      rcases State.mem_successors.1 hx with rfl | rfl
      · exact ⟨f.start, rfl, hfs₁, by omega⟩
      · exact ⟨g.start, rfl, by omega, by omega⟩
    rcases Nat.lt_or_ge i t₂.size with hi' | hi'
    · obtain ⟨s', hs', hx⟩ := hes.states_within
        (show t.size ≤ t₂.size ∧ t₂.size < t₂.size + 1 by omega) (by omega) (by omega) hi hi'
      exact ⟨s', hs', fun x hxs => .inr (hx x hxs)⟩
    · have : i = t₂.size := by omega
      subst this
      exact ⟨_, hmerge, fun x hx => .inl ⟨by simpa [State.successors] using hx, rfl⟩⟩
  · rw [Regex.matches_alt_iff, run_branch_iff hb rfl]
    simp only [State.mem_successors, exists_eq_or_imp, exists_eq_left, reduceCtorEq, and_false,
      false_or]
    rw [her.run_iff_of_exit hend (fun _ h => by cases h) hfs₁ hfs₂,
      hes.run_iff_of_exit hend (fun _ h => by cases h) hgs₁ hgs₂, hr.run_iff, hs.run_iff]

theorem loop_exits (hr : Built r t t₁ f) :
    let T := (t₁.addBranch (.state f.start) .unresolved).connect f.stop (.state t₁.size)
    T.size = t₁.size + 1 ∧ Exits t₁ T t.size t₁.size f.stop (.state t₁.size) ∧
      T.get? t₁.size = some ⟨.branch, .state f.start, .unresolved⟩ := by
  obtain ⟨hsize, hlow, hfstop, hb⟩ := @get?_loop t₁ f.start f.stop hr.stop_lt
  exact ⟨hsize, hr.exits_of_frame _ (fun i _ hh hne => hlow i hh hne) hfstop, hb⟩

theorem loop_region (hr : Built r t t₁ f) :
    ((t₁.addBranch (.state f.start) .unresolved).connect f.stop (.state t₁.size)).Region t.size
      (t₁.size + 1) t₁.size := by
  obtain ⟨-, her, hb⟩ := loop_exits hr
  have hn := hr.size_lt
  have hfs₁ := hr.start_ge
  have hfs₂ := hr.start_lt
  refine Region.of_states (by omega) (by omega) fun i hl hh => ?_
  rcases Nat.lt_or_ge i t₁.size with hi | hi
  · obtain ⟨s', hs', hx⟩ := her.states_within
      (show t.size ≤ t₁.size ∧ t₁.size < t₁.size + 1 by omega) (Nat.le_refl _) (by omega) hl hi
    exact ⟨s', hs', fun x hxs => .inr (hx x hxs)⟩
  · have : i = t₁.size := by omega
    subst this
    refine ⟨_, hb, fun x hx => ?_⟩
    rcases State.mem_successors.1 hx with rfl | rfl
    · exact .inr ⟨f.start, rfl, hfs₁, by omega⟩
    · exact .inl ⟨rfl, rfl⟩

/-- A run from the loop's branch to its open end reads a word of `r*`. -/
theorem loop_run_sound (hr : Built r t t₁ f) {z : Target} {w : List Char}
    (h : ((t₁.addBranch (.state f.start) .unresolved).connect f.stop (.state t₁.size)).Run z w
      .unresolved) :
    (z = .state t₁.size → (Regex.star r).Matches w) ∧
      ∀ x, z = .state x → t.size ≤ x → x < t₁.size →
        ∃ u v, w = u ++ v ∧ t₁.Run (.state x) u .unresolved ∧ (Regex.star r).Matches v := by
  obtain ⟨-, her, hb⟩ := loop_exits hr
  have hfs₁ := hr.start_ge
  have hfs₂ := hr.start_lt
  generalize (t₁.addBranch (.state f.start) .unresolved).connect f.stop (.state t₁.size) = T
    at h her hb
  generalize he : Target.unresolved = e at h
  induction h with
  | refl => subst he; exact ⟨fun h => (by cases h), fun _ h => (by cases h)⟩
  | @branch i s' x' y' w hs' hk hx h ih =>
    subst he
    obtain ⟨ih₁, ih₂⟩ := ih rfl
    constructor
    · rintro ⟨⟩
      rw [hb, Option.some.injEq] at hs'
      subst hs'
      rcases State.mem_successors.1 hx with rfl | rfl
      · obtain ⟨u, v, rfl, hu, hv⟩ := ih₂ f.start rfl hfs₁ hfs₂
        exact .starCons ((hr.run_iff u).1 hu) hv
      · rw [h.of_unresolved.1]
        exact .starNil
    · rintro x ⟨⟩ hl hh
      obtain ⟨s, hs, hkind, ⟨j, rfl, hjl, hjh, hxs⟩ | ⟨-, rfl, hun⟩⟩ :=
        her.step_cases hl hh hs' hx
      · obtain ⟨u, v, rfl, hu, hv⟩ := ih₂ j rfl hjl hjh
        exact ⟨u, v, rfl, .branch hs (hkind ▸ hk) hxs hu, hv⟩
      · exact ⟨[], w, rfl, .branch hs (hkind ▸ hk) hun (.refl _), ih₁ rfl⟩
  | @read i s' c x' y' w hs' hc hx h ih =>
    subst he
    obtain ⟨ih₁, ih₂⟩ := ih rfl
    constructor
    · rintro ⟨⟩
      rw [hb, Option.some.injEq] at hs'
      subst hs'
      cases hc
    · rintro x ⟨⟩ hl hh
      obtain ⟨s, hs, hkind, ⟨j, rfl, hjl, hjh, hxs⟩ | ⟨-, rfl, hun⟩⟩ :=
        her.step_cases hl hh hs' hx
      · obtain ⟨u, v, rfl, hu, hv⟩ := ih₂ j rfl hjl hjh
        exact ⟨c :: u, v, rfl, .read hs (hkind ▸ hc) hxs hu, hv⟩
      · exact ⟨[c], w, rfl, .read hs (hkind ▸ hc) hun (.refl _), ih₁ rfl⟩

/-- Every word of `r*` is read by a run from the loop's branch to its open end. -/
theorem loop_run_complete (hr : Built r t t₁ f) {w : List Char} (h : (Regex.star r).Matches w) :
    ((t₁.addBranch (.state f.start) .unresolved).connect f.stop (.state t₁.size)).Run
      (.state t₁.size) w .unresolved := by
  obtain ⟨-, her, hb⟩ := loop_exits hr
  generalize he : Regex.star r = e at h
  induction h with
  | starNil => exact .branch hb rfl (State.next2_mem_successors _) (.refl _)
  | starCons hu _ _ ihv =>
    cases he
    exact .branch hb rfl (State.next1_mem_successors _)
      (her.enter hr.start_ge hr.start_lt ((hr.run_iff _).2 hu) (ihv rfl))
  | _ => cases he

/-- From the loop's branch runs read the words of `r*`; from the start of `r`, those of `r+`. -/
theorem loop_run (hr : Built r t t₁ f) :
    let T := (t₁.addBranch (.state f.start) .unresolved).connect f.stop (.state t₁.size)
    (∀ w, T.Run (.state t₁.size) w .unresolved ↔ (Regex.star r).Matches w) ∧
      (∀ w, T.Run (.state f.start) w .unresolved ↔ (Regex.plus r).Matches w) := by
  intro T
  obtain ⟨-, her, -⟩ := loop_exits hr
  refine ⟨fun w => ⟨fun h => (loop_run_sound hr h).1 rfl, loop_run_complete hr⟩, fun w => ?_⟩
  rw [Regex.matches_plus_iff]
  constructor
  · intro h
    obtain ⟨u, v, rfl, hu, hv⟩ := (loop_run_sound hr h).2 f.start rfl hr.start_ge hr.start_lt
    exact ⟨u, v, rfl, (hr.run_iff u).1 hu, hv⟩
  · rintro ⟨u, v, rfl, hu, hv⟩
    exact her.enter hr.start_ge hr.start_lt ((hr.run_iff u).2 hu) (loop_run_complete hr hv)

/-- `r*`: entered at the loop's branch, which is also where it is left. -/
theorem star (hr : Built r t t₁ f) :
    Built (.star r) t ((t₁.addBranch (.state f.start) .unresolved).connect f.stop
      (.state t₁.size)) ⟨t₁.size, t₁.size⟩ := by
  obtain ⟨hsize, -, -⟩ := loop_exits hr
  have hn := hr.size_lt
  have hf₂ := hr.stop_ge
  refine ⟨by omega, fun i hi => ?_, show t.size ≤ t₁.size by omega,
    show t₁.size < _ by omega, show t₁.size = _ - 1 by omega, ?_, (loop_run hr).1⟩
  · rw [get?_connect_ne (by omega), addBranch, get?_push_lt (by omega), hr.frame i hi]
  · rw [hsize]; exact loop_region hr

theorem plus (hr : Built r t t₁ f) :
    Built (.plus r) t ((t₁.addBranch (.state f.start) .unresolved).connect f.stop
      (.state t₁.size)) ⟨f.start, t₁.size⟩ := by
  obtain ⟨hsize, -, -⟩ := loop_exits hr
  have hn := hr.size_lt
  have hf₂ := hr.stop_ge
  have hfs₂ := hr.start_lt
  refine ⟨by omega, fun i hi => ?_, hr.start_ge, show f.start < _ by omega,
    show t₁.size = _ - 1 by omega, ?_, (loop_run hr).2⟩
  · rw [get?_connect_ne (by omega), addBranch, get?_push_lt (by omega), hr.frame i hi]
  · rw [hsize]; exact loop_region hr

theorem opt (hr : Built r t t₁ f) :
    Built (.opt r) t
      (((t₁.connect f.stop (.state (t₁.size + 1))).addBranch (.state f.start)
        (.state (t₁.size + 1))).addBranch .unresolved .unresolved) ⟨t₁.size, t₁.size + 1⟩ := by
  have hf₁ := hr.stop_lt
  have hf₂ := hr.stop_ge
  have hn := hr.size_lt
  have hfs₁ := hr.start_ge
  have hfs₂ := hr.start_lt
  obtain ⟨hsize, hlow, hfstop, hb, hclose⟩ := @get?_opt t₁ f.start f.stop hf₁
  generalize ((t₁.connect f.stop (.state (t₁.size + 1))).addBranch (.state f.start)
    (.state (t₁.size + 1))).addBranch .unresolved .unresolved = T at *
  have her : Exits t₁ T t.size t₁.size f.stop (.state (t₁.size + 1)) :=
    hr.exits_of_frame _ (fun i _ hh hne => hlow i hh hne) hfstop
  have hend : ∀ v, T.Run (.state (t₁.size + 1)) v .unresolved ↔ v = [] :=
    fun _ => run_open_branch hclose
  refine ⟨by omega, fun i hi => ?_, show t.size ≤ t₁.size by omega,
    show t₁.size < T.size by omega, show t₁.size + 1 = T.size - 1 by omega, ?_, fun w => ?_⟩
  · rw [hlow i (by omega) (by omega), hr.frame i hi]
  · refine Region.of_states (show t.size ≤ t₁.size + 1 by omega)
      (show t₁.size + 1 < T.size by omega) fun i hl hh => ?_
    rw [hsize] at hh ⊢
    rcases Nat.lt_or_ge i t₁.size with hi | hi
    · obtain ⟨s', hs', hx⟩ := her.states_within
        (show t.size ≤ t₁.size + 1 ∧ t₁.size + 1 < t₁.size + 2 by omega) (Nat.le_refl _)
        (by omega) hl hi
      exact ⟨s', hs', fun x hxs => .inr (hx x hxs)⟩
    rcases Nat.eq_or_lt_of_le hi with rfl | hi
    · refine ⟨_, hb, fun x hx => .inr ?_⟩
      rcases State.mem_successors.1 hx with rfl | rfl
      · exact ⟨f.start, rfl, hfs₁, by omega⟩
      · exact ⟨t₁.size + 1, rfl, by omega, by omega⟩
    · have : i = t₁.size + 1 := by omega
      subst this
      exact ⟨_, hclose, fun x hx => .inl ⟨by simpa [State.successors] using hx, rfl⟩⟩
  · rw [Regex.matches_opt_iff, run_branch_iff hb rfl]
    simp only [State.mem_successors, exists_eq_or_imp, exists_eq_left, reduceCtorEq, and_false,
      false_or]
    rw [her.run_iff_of_exit hend (fun _ h => by cases h) hfs₁ hfs₂, hend, hr.run_iff,
      or_comm]

end Built

/-- `emit` builds the states of every pattern as `Built` says. -/
theorem emit_built : ∀ (r : Regex) (t : Table), Built r t (r.emit t).2 (r.emit t).1
  | .literal c, _ => Built.literal c
  | .wildcard, _ => Built.wildcard
  | .seq r s, t => Built.seq (emit_built r t) (emit_built s _)
  | .alt r s, t => Built.alt (emit_built r t) (emit_built s _)
  | .star r, t => Built.star (emit_built r t)
  | .plus r, t => Built.plus (emit_built r t)
  | .opt r, t => Built.opt (emit_built r t)

/-- The states of a pattern's table: an entry branch at 0 led to the pattern's start, the
pattern's states from 1 on, and an accepting branch last. -/
theorem toTable_states (r : Regex) :
    ∃ f t₁, Built r (Table.empty.addBranch .unresolved .unresolved) t₁ f ∧
      r.toTable.size = t₁.size + 1 ∧
      r.toTable.get? 0 = some ⟨.branch, .state f.start, .state f.start⟩ ∧
      Exits t₁ r.toTable 1 t₁.size f.stop (.state t₁.size) ∧
      r.toTable.get? t₁.size = some ⟨.branch, .accept, .accept⟩ := by
  have hr := emit_built r (Table.empty.addBranch .unresolved .unresolved)
  unfold Regex.toTable Regex.body
  rcases he : r.emit (Table.empty.addBranch .unresolved .unresolved) with ⟨f, t₁⟩
  rw [he] at hr
  dsimp only at hr ⊢
  have hf₁ := hr.stop_lt
  have hf₂ : 1 ≤ f.stop := hr.stop_ge
  simp only [Table.close, size_connect, ← hr.stop_eq]
  refine ⟨f, t₁, hr, by simp, ?_, hr.exits_of_frame _ (fun i hl hh hne => ?_) ?_, ?_⟩
  · rw [addBranch, get?_push_lt (by simp; omega), get?_connect_ne (by omega), get?_connect_self,
      hr.frame 0 (by simp)]
    rfl
  · rw [addBranch, get?_push_lt (by simpa using hh), get?_connect_ne (Ne.symm hne),
      get?_connect_ne (show 0 ≠ i by simp at hl; omega)]
  · rw [addBranch, get?_push_lt (by simpa using hf₁), get?_connect_self, get?_connect_ne (by omega)]
  · rw [addBranch, get?_push_eq (by simp)]

/-- The table of a pattern accepts from state 0 exactly the words of the pattern. -/
theorem accepts_toTable (r : Regex) (w : List Char) :
    r.toTable.Accepts (.state 0) w ↔ r.Matches w := by
  obtain ⟨f, t₁, hr, -, h0, her, hacc⟩ := toTable_states r
  have hfs₁ : 1 ≤ f.start := hr.start_ge
  unfold Table.Accepts
  rw [run_branch_iff h0 rfl]
  simp only [State.mem_successors, or_self, exists_eq_left, reduceCtorEq, and_false, false_or]
  rw [her.run_iff_of_exit (fun _ => accepts_accepting_branch hacc) (fun _ h => by cases h) hfs₁
    hr.start_lt, hr.run_iff]

end TableGrep
