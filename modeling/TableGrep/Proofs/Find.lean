import TableGrep.Table.Find
import TableGrep.Proofs.Run

/-!
# What finding a match computes

`Table.find` runs every start offset of a line at once. This module shows that it answers the
question it is asked: it gives no match exactly when no stretch of the line is accepted from
state 0, and otherwise it stops at the least position at which some stretch ending there is
accepted (`find_eq_none_iff`, `find_eq_some`). This holds of every table, well formed or not.

The work is in one scan. Started with nothing marked, a scan of the threads `now` accepts exactly
when acceptance is reached from one of them without reading (`scan_accepted_iff`), and otherwise
hands on exactly the successors of the states reached so that read the character
(`mem_scan_later_iff`). Soundness needs no invariant; completeness rests on `Covered`: every
marked state's silent successors are still to be handled, marked, or lead nowhere, so once the
work list is empty the marked states are closed under silent moves.
-/

namespace TableGrep

namespace Table

variable {t : Table}

/-- Some stretch of the line that ends at position `j` is accepted from state 0. -/
def MatchEnds (t : Table) (l : List Char) (j : Nat) : Prop :=
  ∃ i ≤ j, t.Accepts (.state 0) ((l.take j).drop i)

/-- A silent run from `x` reaches a state that reads `c`, and `z` is one of its successors. -/
def Feeds (t : Table) (c : Option Char) (x z : Target) : Prop :=
  ∃ i s, t.Run x [] (.state i) ∧ t.get? i = some s ∧ c.any s.kind.consumes = true ∧
    z ∈ s.successors

theorem Feeds.of_branch {c : Option Char} {i : Nat} {s : State} {x z : Target}
    (hs : t.get? i = some s) (hk : s.kind = .branch) (hx : x ∈ s.successors)
    (h : t.Feeds c x z) : t.Feeds c (.state i) z := by
  obtain ⟨j, s', hr, hs', hc, hz⟩ := h
  exact ⟨j, s', .branch hs hk hx hr, hs', hc, hz⟩

theorem run_nil_closed {C : Target → Prop}
    (hC : ∀ i s, C (.state i) → t.get? i = some s → s.kind = .branch → ∀ x ∈ s.successors, C x)
    {x y : Target} (hx : C x) (h : t.Run x [] y) : C y := by
  generalize hw : ([] : List Char) = w at h
  induction h with
  | refl => exact hx
  | branch hs hk hx' _ ih => exact ih (hC _ _ hx hs hk _ hx') hw
  | read => cases hw

end Table

namespace Find

open Table

variable {t : Table} {c : Option Char}

theorem none_getElem? (n i : Nat) :
    (Marks.none n)[i]? = if i < n then some false else none := by
  simp [Marks.none, Array.getElem?_replicate]

theorem isBranch_iff {k : Kind} : k.isBranch = true ↔ k = .branch := by
  cases k <;> simp [Kind.isBranch]

theorem any_consumes_branch (c : Option Char) : c.any Kind.branch.consumes = false := by
  cases c <;> rfl

/-- A target the marks say nothing more about: unresolved, marked, or naming no state. -/
def Settled (t : Table) (seen : Marks) : Target → Prop
  | .state j => seen[j]? = some true ∨ t.get? j = none
  | .accept => False
  | .unresolved => True

/-- Every marked state exists; the silent successors of a marked branch are still to be handled
or settled, and the successors of a marked state that reads `c` wait in `later`. -/
def Covered (t : Table) (c : Option Char) (seen : Marks) (now later : List Target) : Prop :=
  ∀ i, seen[i]? = some true → ∃ s, t.get? i = some s ∧
    (s.kind = .branch → ∀ x ∈ s.successors, x ∈ now ∨ Settled t seen x) ∧
    (c.any s.kind.consumes = true → ∀ x ∈ s.successors, x ∈ later)

/-! ## Soundness -/

/-- Everything a scan reports is justified by the threads it started with. -/
theorem scan_sound (now : List Target) (seen : Marks) (later : List Target) (b : Bool) :
    ((scan t c now seen later b).accepted = true → ∃ x ∈ now, t.Run x [] .accept) ∧
    (∀ z ∈ (scan t c now seen later b).later, z ∈ later ∨ ∃ x ∈ now, t.Feeds c x z) ∧
    ((scan t c now seen later b).consumed = false →
      b = false ∧ (scan t c now seen later b).later = later) := by
  fun_induction scan t c now seen later b with
  | case1 => simp
  | case2 => exact ⟨fun _ => ⟨.accept, by simp, .refl _⟩, fun z hz => .inl hz, by simp⟩
  | case3 _ _ _ _ ih | case4 _ _ _ _ _ _ _ ih | case5 _ _ _ _ _ _ _ _ _ ih
  | case8 _ _ _ _ _ _ _ _ _ _ _ _ ih | case9 _ _ _ _ _ _ ih =>
    obtain ⟨ha, hl, hb⟩ := ih
    exact ⟨fun h => (ha h).imp fun x ⟨hx, hr⟩ => ⟨by simp [hx], hr⟩,
      fun z hz => (hl z hz).imp_right fun ⟨x, hx, hf⟩ => ⟨x, by simp [hx], hf⟩, hb⟩
  | case6 _ _ _ i _ _ _ _ s hs hk ih =>
    have hk' : s.kind = .branch := isBranch_iff.1 hk
    obtain ⟨ha, hl, hb⟩ := ih
    refine ⟨fun h => ?_, fun z hz => ?_, hb⟩
    · obtain ⟨x, hx, hr⟩ := ha h
      rcases List.mem_append.1 hx with hx | hx
      · exact ⟨.state i, by simp, .branch hs hk' (List.mem_reverse.1 hx) hr⟩
      · exact ⟨x, by simp [hx], hr⟩
    · rcases hl z hz with hz | ⟨x, hx, hf⟩
      · exact .inl hz
      · rcases List.mem_append.1 hx with hx | hx
        · exact .inr ⟨.state i, by simp, hf.of_branch hs hk' (List.mem_reverse.1 hx)⟩
        · exact .inr ⟨x, by simp [hx], hf⟩
  | case7 _ _ _ i _ _ _ _ s hs _ hc ih =>
    obtain ⟨ha, hl, hb⟩ := ih
    refine ⟨fun h => (ha h).imp fun x ⟨hx, hr⟩ => ⟨by simp [hx], hr⟩, fun z hz => ?_,
      fun h => absurd (hb h).1 (by simp)⟩
    rcases hl z hz with hz | ⟨x, hx, hf⟩
    · rcases List.mem_append.1 hz with hz | hz
      · exact .inr ⟨.state i, by simp, i, s, .refl _, hs, hc, List.mem_reverse.1 hz⟩
      · exact .inl hz
    · exact .inr ⟨x, by simp [hx], hf⟩

/-! ## Completeness -/

theorem scan_later_mono (now : List Target) (seen : Marks) (later : List Target) (b : Bool) :
    ∀ z ∈ later, z ∈ (scan t c now seen later b).later := by
  fun_induction scan t c now seen later b with
  | case7 _ _ _ _ _ _ _ _ _ _ _ _ ih => exact fun z hz => ih z (by simp [hz])
  | _ => simp_all

theorem settled_closed {seen : Marks} {later : List Target} (hcov : Covered t c seen [] later) :
    ∀ i s, Settled t seen (.state i) → t.get? i = some s → s.kind = .branch →
      ∀ x ∈ s.successors, Settled t seen x := by
  intro i s hi hs hk x hx
  rcases hi with hi | hi
  · obtain ⟨s', hs', hbr, -⟩ := hcov i hi
    rw [hs] at hs'
    cases hs'
    simpa using hbr hk x hx
  · rw [hs] at hi
    cases hi

theorem set_getElem? {seen : Marks} {i j : Nat} (h : i < seen.size) :
    (seen.set i true h)[j]? = if i = j then some true else seen[j]? :=
  Array.getElem?_set h

theorem settled_set {seen : Marks} {i : Nat} (h : i < seen.size) {x : Target}
    (hx : Settled t seen x) : Settled t (seen.set i true h) x := by
  cases x with
  | state j =>
    rcases hx with hx | hx
    · left; rw [set_getElem?]; split <;> simp_all
    · exact .inr hx
  | accept => exact hx
  | unresolved => trivial

theorem settled_set_self {seen : Marks} {i : Nat} (h : i < seen.size) :
    Settled t (seen.set i true h) (.state i) :=
  .inl (by simp)

theorem covered_set {seen : Marks} {now now' later later' : List Target} {i : Nat}
    (h : i < seen.size) {s : State} (hs : t.get? i = some s) (hlater : ∀ x ∈ later, x ∈ later')
    (hcov : Covered t c seen (.state i :: now) later)
    (hbr : s.kind = .branch → ∀ x ∈ s.successors, x ∈ now')
    (hrd : c.any s.kind.consumes = true → ∀ x ∈ s.successors, x ∈ later')
    (hnow : ∀ x ∈ now, x ∈ now') :
    Covered t c (seen.set i true h) now' later' := by
  intro j hj
  rw [set_getElem?] at hj
  split at hj
  · subst j
    exact ⟨s, hs, fun hk x hx => .inl (hbr hk x hx), hrd⟩
  · obtain ⟨s', hs', hb, hr⟩ := hcov j hj
    refine ⟨s', hs', fun hk x hx => ?_, fun hc x hx => hlater x (hr hc x hx)⟩
    rcases hb hk x hx with hx | hx
    · rcases List.mem_cons.1 hx with rfl | hx
      · exact .inr (settled_set_self h)
      · exact .inl (hnow x hx)
    · exact .inr (settled_set h hx)

theorem covered_of_settled {seen : Marks} {now later : List Target} {x : Target}
    (hx : Settled t seen x) (hcov : Covered t c seen (x :: now) later) :
    Covered t c seen now later := by
  intro j hj
  obtain ⟨s, hs, hb, hr⟩ := hcov j hj
  refine ⟨s, hs, fun hk y hy => ?_, hr⟩
  rcases hb hk y hy with hy | hy
  · rcases List.mem_cons.1 hy with rfl | hy
    · exact .inr hx
    · exact .inl hy
  · exact .inr hy

theorem pending_of_settled {seen : Marks} {y x : Target} {rest : List Target}
    (hy : Settled t seen y) (hx : x ∈ y :: rest ∨ Settled t seen x) :
    x ∈ rest ∨ Settled t seen x := by
  rcases hx with hx | hx
  · rcases List.mem_cons.1 hx with rfl | hx
    · exact .inr hy
    · exact .inl hx
  · exact .inr hx

theorem pending_set {seen : Marks} {i : Nat} (h : i < seen.size) {rest : List Target}
    {x : Target} (hx : x ∈ .state i :: rest ∨ Settled t seen x) :
    x = .state i ∨ x ∈ rest ∨ Settled t (seen.set i true h) x := by
  rcases hx with hx | hx
  · exact (List.mem_cons.1 hx).imp_right .inl
  · exact .inr (.inr (settled_set h hx))

/-- A scan that does not accept misses nothing that its threads reach without reading. -/
theorem scan_complete (now : List Target) (seen : Marks) (later : List Target) (b : Bool)
    (hsize : seen.size = t.size) (hcov : Covered t c seen now later)
    (hacc : (scan t c now seen later b).accepted = false) :
    ∀ x, (x ∈ now ∨ Settled t seen x) →
      ¬ t.Run x [] .accept ∧ ∀ z, t.Feeds c x z → z ∈ (scan t c now seen later b).later := by
  fun_induction scan t c now seen later b with
  | case1 seen later b =>
    intro x hx
    have hx : Settled t seen x := by simpa using hx
    refine ⟨fun h => run_nil_closed (settled_closed hcov) hx h, ?_⟩
    rintro z ⟨i, s, hr, hs, hc, hz⟩
    rcases run_nil_closed (settled_closed hcov) hx hr with hi | hi
    · obtain ⟨s', hs', -, hrd⟩ := hcov i hi
      rw [hs] at hs'
      cases hs'
      exact hrd hc z hz
    · rw [hs] at hi
      cases hi
  | case2 => simp at hacc
  | case3 seen later b rest ih =>
    have hset : Settled t seen .unresolved := trivial
    exact fun x hx => ih hsize (covered_of_settled hset hcov) hacc x (pending_of_settled hset hx)
  | case4 seen later b i rest hi hmark ih =>
    have hset : Settled t seen (.state i) := .inl (by simp [hi, hmark])
    exact fun x hx => ih hsize (covered_of_settled hset hcov) hacc x (pending_of_settled hset hx)
  | case5 seen later b i rest hi _ _ hs _ =>
    rw [get?_eq_none_iff] at hs
    omega
  | case6 seen later b i rest hi hmark seen' s hs hk ih =>
    have hk' : s.kind = .branch := isBranch_iff.1 hk
    have hcov' : Covered t c seen' (s.successors.reverse ++ rest) later :=
      covered_set hi hs (fun x hx => hx) hcov (fun _ x hx => by simp [hx])
        (fun hc => by rw [hk', any_consumes_branch] at hc; cases hc)
        (fun x hx => by simp [hx])
    have ih := ih (by simpa [seen'] using hsize) hcov' hacc
    intro x hx
    rcases pending_set hi hx with rfl | hx | hx
    · -- the branch itself: its silent runs go through one of its successors, all queued
      refine ⟨fun h => ?_, fun z hz => ?_⟩
      · rcases (run_branch_iff hs hk').1 h with ⟨-, ⟨⟩⟩ | ⟨y, hy, h⟩
        exact (ih y (.inl (by simp [hy]))).1 h
      · obtain ⟨j, s', hr, hs', hc, hzs⟩ := hz
        rcases (run_branch_iff hs hk').1 hr with ⟨-, hji⟩ | ⟨y, hy, h⟩
        · cases hji
          rw [hs, Option.some.injEq] at hs'
          subst hs'
          rw [hk', any_consumes_branch] at hc
          cases hc
        · exact (ih y (.inl (by simp [hy]))).2 z ⟨j, s', h, hs', hc, hzs⟩
    · exact ih x (.inl (by simp [hx]))
    · exact ih x (.inr hx)
  | case7 seen later b i rest hi hmark seen' s hs hk hc ih =>
    have hk' : s.kind ≠ .branch := fun h => by simp [h, Kind.isBranch] at hk
    have hcov' : Covered t c seen' rest (s.successors.reverse ++ later) :=
      covered_set hi hs (fun x hx => by simp [hx]) hcov (fun h => absurd h hk')
        (fun _ x hx => by simp [hx]) (fun x hx => hx)
    have ih := ih (by simpa [seen'] using hsize) hcov' hacc
    intro x hx
    rcases pending_set hi hx with rfl | hx
    · exact ih (.state i) (.inr (settled_set_self hi))
    · exact ih x hx
  | case8 seen later b i rest hi hmark seen' s hs hk hc ih =>
    have hk' : s.kind ≠ .branch := fun h => by simp [h, Kind.isBranch] at hk
    have hcov' : Covered t c seen' rest later :=
      covered_set hi hs (fun x hx => hx) hcov (fun h => absurd h hk')
        (fun h => absurd h hc) (fun x hx => hx)
    have ih := ih (by simpa [seen'] using hsize) hcov' hacc
    intro x hx
    rcases pending_set hi hx with rfl | hx
    · exact ih (.state i) (.inr (settled_set_self hi))
    · exact ih x hx
  | case9 seen later b i rest hi ih =>
    have hnone : t.get? i = none := get?_eq_none_iff.2 (by omega)
    have hset : Settled t seen (.state i) := .inr hnone
    exact fun x hx => ih hsize (covered_of_settled hset hcov) hacc x (pending_of_settled hset hx)

/-! ## One position -/

theorem covered_none (now later : List Target) : Covered t c (Marks.none t.size) now later := by
  intro i hi
  rw [none_getElem?] at hi
  split at hi <;> simp at hi

/-- A fresh scan accepts exactly when acceptance is reached from a thread without reading. -/
theorem scan_accepted_iff (now later : List Target) (b : Bool) :
    (scan t c now (Marks.none t.size) later b).accepted = true ↔
      ∃ x ∈ now, t.Run x [] .accept := by
  refine ⟨(scan_sound now _ later b).1, fun ⟨x, hx, hr⟩ => ?_⟩
  cases hacc : (scan t c now (Marks.none t.size) later b).accepted
  · exact absurd hr (scan_complete now _ later b (by simp [Marks.none, Table.size])
      (covered_none now later) hacc x (.inl hx)).1
  · rfl

theorem mem_scan_later_iff (now later : List Target) (b : Bool)
    (hacc : (scan t c now (Marks.none t.size) later b).accepted = false) (z : Target) :
    z ∈ (scan t c now (Marks.none t.size) later b).later ↔
      z ∈ later ∨ ∃ x ∈ now, t.Feeds c x z := by
  refine ⟨(scan_sound now _ later b).2.1 z, ?_⟩
  have hc := scan_complete now _ later b (by simp [Marks.none, Table.size])
    (covered_none now later) hacc
  rintro (hz | ⟨x, hx, hf⟩)
  · exact scan_later_mono now _ later b z hz
  · exact (hc x (.inl hx)).2 z hf

/-! ## The whole line -/

/-- The targets at position `p` of the line: those reached by a run from state 0 that starts at
some position `i ≤ p` and reads the line from `i` up to `p`. -/
def Reach (t : Table) (l : List Char) (p : Nat) (y : Target) : Prop :=
  ∃ i ≤ p, t.Run (.state 0) ((l.take p).drop i) y

/-- The threads carried into position `p`, with a fresh start at state 0, reach exactly the
targets of `p`. -/
def Primed (t : Table) (l : List Char) (p : Nat) (carried : List Target) : Prop :=
  ∀ y, Reach t l p y ↔ ∃ x, (x ∈ carried ∨ x = .state 0) ∧ t.Run x [] y

/-- `r` is what a search of the line from position `p` on must give: no match exactly when no
accepted stretch ends at `p` or later, and otherwise the least such end. -/
structure Answers (t : Table) (l : List Char) (p : Nat) (r : Option Match) : Prop where
  none_iff : r = none ↔ ∀ j, p ≤ j → j ≤ l.length → ¬ t.MatchEnds l j
  least : ∀ m, r = some m → p ≤ m.stop ∧ m.stop ≤ l.length ∧ t.MatchEnds l m.stop ∧
    ∀ j, p ≤ j → j < m.stop → ¬ t.MatchEnds l j

theorem Answers.here {l : List Char} {p : Nat} (hp : p ≤ l.length) (hm : t.MatchEnds l p)
    (w : Bool) : Answers t l p (some ⟨p, w⟩) where
  none_iff := ⟨fun h => (by cases h), fun hn => absurd hm (hn p (Nat.le_refl _) hp)⟩
  least m h := by
    cases h
    exact ⟨Nat.le_refl _, hp, hm, fun j h₁ h₂ => absurd h₂ (Nat.not_lt.2 h₁)⟩

theorem Answers.at_end {l : List Char} (hn : ¬ t.MatchEnds l l.length) :
    Answers t l l.length none where
  none_iff := ⟨fun _ j h₁ h₂ => (Nat.le_antisymm h₂ h₁) ▸ hn, fun _ => rfl⟩
  least m h := by cases h

theorem Answers.of_succ {l : List Char} {p : Nat} {r : Option Match}
    (h : Answers t l (p + 1) r) (hn : ¬ t.MatchEnds l p) : Answers t l p r where
  none_iff := by
    rw [h.none_iff]
    refine ⟨fun hr j h₁ h₂ hj => ?_, fun hr j h₁ h₂ => hr j (by omega) h₂⟩
    rcases Nat.eq_or_lt_of_le h₁ with rfl | h₁
    · exact hn hj
    · exact hr j h₁ h₂ hj
  least m hm := by
    obtain ⟨h₁, h₂, h₃, h₄⟩ := h.least m hm
    refine ⟨by omega, h₂, h₃, fun j hj₁ hj₂ hj => ?_⟩
    rcases Nat.eq_or_lt_of_le hj₁ with rfl | hj₁
    · exact hn hj
    · exact h₄ j hj₁ hj₂ hj

theorem slice_succ {l : List Char} {i p : Nat} (hi : i ≤ p) (hp : p < l.length) :
    (l.take (p + 1)).drop i = (l.take p).drop i ++ [l[p]] := by
  rw [List.take_add_one, List.drop_append_of_le_length (by simp; omega)]
  simp [hp]

/-- The threads a position hands on, with a fresh start at 0, reach the next position's targets. -/
theorem reach_succ {l : List Char} {p : Nat} (hp : p < l.length) {carried : List Target}
    {b : Bool} (hreach : Primed t l p carried)
    (hacc :
      (scan t (some l[p]) (carried ++ [.state 0]) (Marks.none t.size) [] b).accepted = false) :
    Primed t l (p + 1)
      (scan t (some l[p]) (carried ++ [.state 0]) (Marks.none t.size) [] b).later.reverse := by
  have hlater := mem_scan_later_iff (carried ++ [.state 0]) [] b hacc
  intro y
  constructor
  · rintro ⟨i, hi, hr⟩
    rcases Nat.lt_or_ge p i with hpi | hpi
    · -- a run that starts here reads nothing yet
      have : (l.take (p + 1)).drop i = [] := by simp; omega
      exact ⟨.state 0, .inr rfl, this ▸ hr⟩
    · rw [slice_succ hpi hp] at hr
      obtain ⟨j, s, z, hj, hs, hc, hz, hzy⟩ := hr.split_last
      obtain ⟨x, hx, hxj⟩ := (hreach (.state j)).1 ⟨i, hpi, hj⟩
      refine ⟨z, .inl (List.mem_reverse.2 ((hlater z).2 (.inr ⟨x, ?_, j, s, hxj, hs, ?_, hz⟩))), hzy⟩
      · rcases hx with hx | rfl
        · simp [hx]
        · simp
      · simpa using hc
  · rintro ⟨x, hx | rfl, hxy⟩
    · rcases (hlater x).1 (List.mem_reverse.1 hx) with hx | ⟨x₀, hx₀, j, s, hj, hs, hc, hxs⟩
      · cases hx
      · obtain ⟨i, hi, hr⟩ := (hreach (.state j)).2 ⟨x₀, by simpa using hx₀, hj⟩
        refine ⟨i, by omega, ?_⟩
        rw [slice_succ hi hp]
        exact hr.snoc hs (by simpa using hc) hxs hxy
    · exact ⟨p + 1, Nat.le_refl _, by simpa using hxy⟩

theorem accepted_iff {l : List Char} {p : Nat} {carried : List Target}
    (hreach : Primed t l p carried) (c : Option Char) (b : Bool) :
    (scan t c (carried ++ [.state 0]) (Marks.none t.size) [] b).accepted = true ↔
      t.MatchEnds l p := by
  rw [scan_accepted_iff]
  show _ ↔ Reach t l p .accept
  rw [hreach]
  simp only [List.mem_append, List.mem_singleton]

/-- The search from `p` on gives the right answer when the threads carried into `p` are primed. -/
theorem run_spec {l : List Char} :
    ∀ (cs : List Char) (carried : List Target) (b : Bool) (p : Nat), l.drop p = cs →
      p ≤ l.length → Primed t l p carried → Answers t l p (run t carried b p cs) := by
  intro cs
  induction cs with
  | nil =>
    intro carried b p hdrop hp hreach
    have hpl : p = l.length := by
      have := List.drop_eq_nil_iff.1 hdrop
      omega
    subst hpl
    simp only [run]
    split
    · exact .here hp ((accepted_iff hreach none b).1 ‹_›) _
    · rename_i ha
      exact .at_end fun hm => ha ((accepted_iff hreach none b).2 hm)
  | cons c cs ih =>
    intro carried b p hdrop hp hreach
    have hpl : p < l.length := by
      have : (l.drop p).length = cs.length + 1 := by rw [hdrop]; rfl
      simp at this
      omega
    have hc : l[p] = c := by
      have : (l.drop p)[0]? = some c := by rw [hdrop]; rfl
      simpa [hpl] using this
    have hdrop' : l.drop (p + 1) = cs := by
      rw [← List.drop_drop, hdrop]
      rfl
    subst hc
    simp only [run]
    split
    · exact .here hp ((accepted_iff hreach _ b).1 ‹_›) _
    · rename_i ha
      have ha' : (scan t (some l[p]) (carried ++ [.state 0]) (Marks.none t.size) [] b).accepted =
          false := by simpa using ha
      exact (ih _ _ (p + 1) hdrop' hpl (reach_succ hpl hreach ha')).of_succ
        fun hm => ha ((accepted_iff hreach _ b).2 hm)

theorem reach_zero {l : List Char} : Primed t l 0 [] := by
  intro y
  constructor
  · rintro ⟨i, -, hr⟩
    exact ⟨.state 0, .inr rfl, by simpa using hr⟩
  · rintro ⟨x, hx | rfl, hr⟩
    · cases hx
    · exact ⟨0, Nat.le_refl _, by simpa using hr⟩

end Find

open Find in
/-- No match is found exactly when no stretch of the line is accepted from state 0. -/
theorem Table.find_eq_none_iff {t : Table} {l : List Char} :
    t.find l = none ↔ ∀ j ≤ l.length, ¬ t.MatchEnds l j :=
  (run_spec l [] false 0 List.drop_zero (Nat.zero_le _) reach_zero).none_iff.trans
    ⟨fun h j hj => h j (Nat.zero_le _) hj, fun h j _ hj => h j hj⟩

open Find in
/-- A match stops at the least position where some accepted stretch of the line ends. -/
theorem Table.find_eq_some {t : Table} {l : List Char} {m : Match} (h : t.find l = some m) :
    m.stop ≤ l.length ∧ t.MatchEnds l m.stop ∧ ∀ j < m.stop, ¬ t.MatchEnds l j := by
  obtain ⟨-, h₁, h₂, h₃⟩ :=
    (run_spec l [] false 0 List.drop_zero (Nat.zero_le _) reach_zero).least m h
  exact ⟨h₁, h₂, fun j hj => h₃ j (Nat.zero_le _) hj⟩

/-- Tables that accept the same words from state 0 find matches that stop at the same place. -/
theorem Table.find_stop_congr {t t' : Table}
    (h : ∀ w, t'.Accepts (.state 0) w ↔ t.Accepts (.state 0) w) (l : List Char) :
    (t'.find l).map Match.stop = (t.find l).map Match.stop := by
  have hm : ∀ j, t'.MatchEnds l j ↔ t.MatchEnds l j := fun j => by simp only [Table.MatchEnds, h]
  cases ht : t.find l with
  | none =>
    have h' : t'.find l = none :=
      Table.find_eq_none_iff.2 fun j hj hj' => Table.find_eq_none_iff.1 ht j hj ((hm j).1 hj')
    rw [h']
  | some m =>
    obtain ⟨h₁, h₂, h₃⟩ := Table.find_eq_some ht
    cases ht' : t'.find l with
    | none => exact absurd ((hm _).2 h₂) (Table.find_eq_none_iff.1 ht' _ h₁)
    | some m' =>
      obtain ⟨-, h₂', h₃'⟩ := Table.find_eq_some ht'
      -- both stops are the least end of an accepted stretch
      have e : m'.stop = m.stop := by
        rcases Nat.lt_trichotomy m'.stop m.stop with hlt | heq | hgt
        · exact absurd ((hm _).1 h₂') (h₃ _ hlt)
        · exact heq
        · exact absurd ((hm _).2 h₂) (h₃' _ hgt)
      simp [e]

end TableGrep
