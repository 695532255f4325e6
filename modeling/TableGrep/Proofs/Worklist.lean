import Mathlib.Data.Finset.Card
import Mathlib.Logic.Relation
import TableGrep.Proofs.Contraction

/-!
# The work list of a scan

A scan handles the threads of one position in a loop. It takes the thread at the front and drops
it when it is unresolved, already handled, or past the table; a branch puts its successors at the
front, and a state that reads the character puts its successors at the back, for the next
position. `Find.Turn` is one pass of that loop, and `scan` is the loop (`scan_turn`), which stops
at acceptance or when no thread is left (`turn_or_stop`).

Every scan that `Table.find` runs ends: each turn lowers, in lexicographic order, the number of
indices the scan can meet (`Table.named`) that it has not marked, then the length of its work
list, the threads of this position and those of the next (`Turn.weight_lt`). Between positions the
work list holds only the threads handed on, each a successor of a state that read, and at most
two for each state that reads (`Carries.bound`).
-/

namespace TableGrep

theorem State.length_successors_le (s : State) : s.successors.length ≤ 2 := by
  unfold State.successors
  split <;> simp

namespace Table

variable {t : Table}

/-- The indices a scan can meet: 0, where every position starts, and every index a successor
names, in the table or past it. -/
def named (t : Table) : Finset Nat :=
  insert 0 ((t.states.toList.flatMap State.successors).filterMap Target.index?).toFinset

/-- The states that read a character: the literals and the wildcards. -/
def readers (t : Table) : Finset Nat :=
  (Finset.range t.size).filter fun i => (t.get? i).any fun s => !s.kind.isBranch

theorem zero_mem_named : 0 ∈ t.named := Finset.mem_insert_self _ _

theorem mem_named {i : Nat} {s : State} (hs : t.get? i = some s) {j : Nat}
    (hj : .state j ∈ s.successors) : j ∈ t.named := by
  refine Finset.mem_insert_of_mem (List.mem_toFinset.2 (List.mem_filterMap.2 ⟨.state j, ?_, rfl⟩))
  exact List.mem_flatMap.2 ⟨s, mem_toList_of_get? hs, hj⟩

theorem mem_readers {i : Nat} {s : State} (hs : t.get? i = some s) (hk : s.kind ≠ .branch) :
    i ∈ t.readers := by
  have hb : s.kind.isBranch = false := Bool.eq_false_iff.2 (mt Find.isBranch_iff.1 hk)
  simp [readers, lt_size_of_get? hs, hs, hb]

end Table

namespace Find

open Table

variable {t : Table} {c : Option Char}

theorem scan_missing {i : Nat} {seen : Marks} (h : i < seen.size) (hi : seen[i] = false)
    (hs : t.get? i = none) (rest later : List Target) (b : Bool) :
    scan t c (.state i :: rest) seen later b = scan t c rest (seen.set i true h) later b := by
  rw [scan, dif_pos h]
  simp [hi, hs]

/-- A scan part way through a position: the threads still to handle at it, the marks, the
threads for the next position (most recent first), and whether a character has been read. -/
structure Pass where
  now : List Target
  seen : Marks
  later : List Target
  consumed : Bool

/-- One turn of a scan: the thread at the front handled, when it does not accept. -/
inductive Turn (t : Table) (c : Option Char) : Pass → Pass → Prop
  | dead {x : Target} {rest : List Target} {seen : Marks} {later : List Target} {b : Bool} :
      Dead seen x → Turn t c ⟨x :: rest, seen, later, b⟩ ⟨rest, seen, later, b⟩
  | missing {i : Nat} {rest : List Target} {seen : Marks} {later : List Target} {b : Bool}
      (h : i < seen.size) : seen[i] = false → t.get? i = none →
      Turn t c ⟨.state i :: rest, seen, later, b⟩ ⟨rest, seen.set i true h, later, b⟩
  | branch {i : Nat} {s : State} {rest : List Target} {seen : Marks} {later : List Target}
      {b : Bool} (h : i < seen.size) : seen[i] = false → t.get? i = some s → s.kind = .branch →
      Turn t c ⟨.state i :: rest, seen, later, b⟩
        ⟨s.successors.reverse ++ rest, seen.set i true h, later, b⟩
  | read {i : Nat} {s : State} {rest : List Target} {seen : Marks} {later : List Target}
      {b : Bool} (h : i < seen.size) : seen[i] = false → t.get? i = some s → s.kind ≠ .branch →
      c.any s.kind.consumes = true →
      Turn t c ⟨.state i :: rest, seen, later, b⟩
        ⟨rest, seen.set i true h, s.successors.reverse ++ later, true⟩
  | stuck {i : Nat} {s : State} {rest : List Target} {seen : Marks} {later : List Target}
      {b : Bool} (h : i < seen.size) : seen[i] = false → t.get? i = some s → s.kind ≠ .branch →
      c.any s.kind.consumes = false →
      Turn t c ⟨.state i :: rest, seen, later, b⟩ ⟨rest, seen.set i true h, later, b⟩

theorem scan_turn {p q : Pass} (h : Turn t c p q) :
    scan t c p.now p.seen p.later p.consumed = scan t c q.now q.seen q.later q.consumed := by
  cases h with
  | dead hx => exact scan_dead hx _ _ _
  | missing h hi hs => exact scan_missing h hi hs _ _ _
  | branch h hi hs hk => exact scan_branch h hi hs hk _ _ _
  | read h hi hs hk hc => rw [scan_read h hi hs hk, if_pos hc]
  | stuck h hi hs hk hc => rw [scan_read h hi hs hk, if_neg (by simp [hc])]

/-- A scan turns until no thread is left or acceptance is at the front. -/
theorem turn_or_stop (t : Table) (c : Option Char) (p : Pass) :
    (∃ q, Turn t c p q) ∨ p.now = [] ∨ ∃ rest, p.now = .accept :: rest := by
  obtain ⟨now, seen, later, b⟩ := p
  match now with
  | [] => exact .inr (.inl rfl)
  | .accept :: rest => exact .inr (.inr ⟨rest, rfl⟩)
  | .unresolved :: rest => exact .inl ⟨_, .dead (.inl rfl)⟩
  | .state i :: rest =>
    left
    by_cases h : i < seen.size
    · cases hi : seen[i] with
      | true => exact ⟨_, .dead (.inr ⟨i, rfl, by simp [Array.getElem?_eq_getElem h, hi]⟩)⟩
      | false =>
        cases hs : t.get? i with
        | none => exact ⟨_, .missing h hi hs⟩
        | some s =>
          by_cases hk : s.kind = .branch
          · exact ⟨_, .branch h hi hs hk⟩
          · cases hc : c.any s.kind.consumes
            · exact ⟨_, .stuck h hi hs hk hc⟩
            · exact ⟨_, .read h hi hs hk hc⟩
    · exact ⟨_, .dead (.inr ⟨i, rfl, by simp [Array.getElem?_eq_none (Nat.le_of_not_lt h)]⟩)⟩

theorem scan_later_of_stop {p : Pass} (h : p.now = [] ∨ ∃ rest, p.now = .accept :: rest) :
    (scan t c p.now p.seen p.later p.consumed).later = p.later := by
  rcases h with h | ⟨rest, h⟩
  · rw [h, scan_nil]
  · rw [h, scan_accept]

/-! ## The measure -/

/-- How far a scan is from its end: the indices it can meet that it has not marked, then the
length of its work list. -/
def Pass.weight (t : Table) (p : Pass) : Nat × Nat :=
  ((t.named.filter fun i => p.seen[i]? ≠ some true).card, p.now.length + p.later.length)

/-- Every state a pass holds, for this position or the next, is one a scan can meet. -/
def Named (t : Table) (p : Pass) : Prop :=
  ∀ i, .state i ∈ p.now ∨ .state i ∈ p.later → i ∈ t.named

theorem Turn.named {p q : Pass} (h : Turn t c p q) (hp : Named t p) : Named t q := by
  intro j hj
  cases h with
  | dead | missing | stuck => exact hp j (hj.imp_left (List.mem_cons_of_mem _))
  | branch _ _ hs =>
    rcases hj with hj | hj
    · rcases List.mem_append.1 hj with hj | hj
      · exact mem_named hs (List.mem_reverse.1 hj)
      · exact hp j (.inl (List.mem_cons_of_mem _ hj))
    · exact hp j (.inr hj)
  | read _ _ hs =>
    rcases hj with hj | hj
    · exact hp j (.inl (List.mem_cons_of_mem _ hj))
    · rcases List.mem_append.1 hj with hj | hj
      · exact mem_named hs (List.mem_reverse.1 hj)
      · exact hp j (.inr hj)

theorem card_unmarked_set_lt {seen : Marks} {i : Nat} (h : i < seen.size) (hi : seen[i] = false)
    (hn : i ∈ t.named) :
    (t.named.filter fun j => (seen.set i true h)[j]? ≠ some true).card <
      (t.named.filter fun j => seen[j]? ≠ some true).card := by
  refine Finset.card_lt_card ((Finset.ssubset_iff_of_subset fun j hj => ?_).2 ⟨i, ?_, ?_⟩)
  · simp only [Finset.mem_filter, set_getElem? h] at hj ⊢
    refine ⟨hj.1, fun e => hj.2 ?_⟩
    split <;> simp_all
  · simp [hn, Array.getElem?_eq_getElem h, hi]
  · simp [set_getElem? h]

/-- Every turn lowers the weight: it marks a new index or shortens the work list. -/
theorem Turn.weight_lt {p q : Pass} (h : Turn t c p q) (hp : Named t p) :
    Prod.Lex (· < ·) (· < ·) (q.weight t) (p.weight t) := by
  have hfront : ∀ {i rest}, p.now = .state i :: rest → i ∈ t.named :=
    fun e => hp _ (.inl (by rw [e]; exact List.mem_cons_self))
  cases h with
  | dead => exact Prod.Lex.right _ (by simp)
  | missing h hi | branch h hi | read h hi | stuck h hi =>
    exact Prod.Lex.left _ _ (card_unmarked_set_lt h hi (hfront rfl))

/-- From a pass that holds only states it can meet, every chain of turns ends. -/
theorem acc_turn (p : Pass) (hp : Named t p) : Acc (fun q p => Turn t c p q) p :=
  Acc.intro p fun q (hq : Turn t c p q) => acc_turn q (hq.named hp)
termination_by p.weight t
decreasing_by exact hq.weight_lt hp

/-! ## Threads handed on -/

/-- The marked states that read. -/
def markedReaders (t : Table) (seen : Marks) : Finset Nat :=
  t.readers.filter fun i => seen[i]? = some true

/-- The threads a pass hands on are at most two for each state that reads and that it marked. -/
def Bounded (t : Table) (p : Pass) : Prop :=
  p.later.length ≤ 2 * (markedReaders t p.seen).card

theorem markedReaders_mono {seen : Marks} {i : Nat} (h : i < seen.size) :
    markedReaders t seen ⊆ markedReaders t (seen.set i true h) := by
  intro j hj
  simp only [markedReaders, Finset.mem_filter, set_getElem? h] at hj ⊢
  exact ⟨hj.1, by split <;> simp_all⟩

theorem card_markedReaders_set {seen : Marks} {i : Nat} (h : i < seen.size) (hi : seen[i] = false)
    (hr : i ∈ t.readers) :
    (markedReaders t seen).card + 1 ≤ (markedReaders t (seen.set i true h)).card := by
  refine Finset.card_lt_card ((Finset.ssubset_iff_of_subset (markedReaders_mono h)).2 ⟨i, ?_, ?_⟩)
  · simp [markedReaders, hr, set_getElem? h]
  · simp [markedReaders, Array.getElem?_eq_getElem h, hi]

theorem Turn.bounded {p q : Pass} (h : Turn t c p q) (hp : Bounded t p) : Bounded t q := by
  unfold Bounded at hp ⊢
  cases h with
  | dead => exact hp
  | missing h | branch h | stuck h =>
    exact hp.trans (Nat.mul_le_mul_left _ (Finset.card_le_card (markedReaders_mono h)))
  | @read i s rest seen later b h hi hs hk =>
    -- the state read is marked now, and hands on at most two threads
    have hcard := card_markedReaders_set h hi (mem_readers hs hk)
    have hlen := State.length_successors_le s
    dsimp only at hp ⊢
    simp only [List.length_append, List.length_reverse]
    omega

/-- A bounded pass of named states hands on at most two threads per reading state. -/
theorem scan_later_length_le (p : Pass) (hn : Named t p) (hb : Bounded t p) :
    (scan t c p.now p.seen p.later p.consumed).later.length ≤ 2 * t.readers.card := by
  rcases turn_or_stop t c p with ⟨q, hq⟩ | hstop
  · rw [scan_turn hq]
    exact scan_later_length_le q (hq.named hn) (hq.bounded hb)
  · rw [scan_later_of_stop hstop]
    exact hb.trans (Nat.mul_le_mul_left _ (Finset.card_le_card (Finset.filter_subset _ _)))
termination_by p.weight t
decreasing_by exact hq.weight_lt hn

theorem Named.of_turns {p q : Pass} (hp : Named t p) (h : Relation.ReflTransGen (Turn t c) p q) :
    Named t q := by
  induction h with
  | refl => exact hp
  | tail _ hq ih => exact hq.named ih

/-! ## The positions of a line -/

/-- The threads `find` carries into position `pos` of the line `l`, and whether it has read a
character by then. -/
inductive Carries (t : Table) (l : List Char) : Nat → List Target → Bool → Prop
  | start : Carries t l 0 [] false
  | next {pos : Nat} {carried : List Target} {b : Bool} {c : Char} :
      Carries t l pos carried b → l[pos]? = some c →
      (scan t (some c) (carried ++ [.state 0]) (Marks.none t.size) [] b).accepted = false →
      Carries t l (pos + 1)
        (scan t (some c) (carried ++ [.state 0]) (Marks.none t.size) [] b).later.reverse
        (scan t (some c) (carried ++ [.state 0]) (Marks.none t.size) [] b).consumed

variable {l : List Char} {pos : Nat} {carried : List Target} {b : Bool}

theorem named_start (hfrom : ∀ z ∈ carried, ∃ i s, t.get? i = some s ∧ s.kind ≠ .branch ∧
    z ∈ s.successors) : Named t ⟨carried ++ [.state 0], Marks.none t.size, [], b⟩ := by
  rintro i (hi | hi)
  · rcases List.mem_append.1 hi with hi | hi
    · obtain ⟨j, s, hs, -, hz⟩ := hfrom _ hi
      exact mem_named hs hz
    · obtain rfl : i = 0 := by simpa using hi
      exact zero_mem_named
  · cases hi

theorem Carries.le_length (h : Carries t l pos carried b) : pos ≤ l.length := by
  induction h with
  | start => exact Nat.zero_le _
  | next _ hc => exact (List.getElem?_eq_some_iff.1 hc).1

/-- Between positions the work list holds at most two threads per reading state, all read from. -/
theorem Carries.bound (h : Carries t l pos carried b) :
    carried.length ≤ 2 * t.readers.card ∧
      ∀ z ∈ carried, ∃ i s, t.get? i = some s ∧ s.kind ≠ .branch ∧ z ∈ s.successors := by
  induction h with
  | start => simp
  | @next pos carried b c _ hc hacc ih =>
    have hlen := scan_later_length_le (c := some c) _ (named_start (b := b) ih.2)
      (by simp [Bounded])
    refine ⟨by simpa using hlen, fun z hz => ?_⟩
    rcases (scan_sound _ _ _ _).2.1 z (List.mem_reverse.1 hz) with hz | ⟨x, -, i, s, -, hs, hr, hzs⟩
    · cases hz
    · refine ⟨i, s, hs, fun hk => ?_, hzs⟩
      rw [hk, any_consumes_branch] at hr
      cases hr

theorem Carries.find_eq (h : Carries t l pos carried b) :
    t.find l = run t carried b pos (l.drop pos) := by
  induction h with
  | start => rfl
  | @next pos carried b c _ hc hacc ih =>
    obtain ⟨hlt, rfl⟩ := List.getElem?_eq_some_iff.1 hc
    rw [ih, List.drop_eq_getElem_cons hlt, run]
    simp only [hacc, Bool.false_eq_true, if_false]

end Find

open Find in
/-- Every scan that `find` runs ends: it starts from at most two carried threads per reading
state and state 0, and each turn lowers the unmarked indices it can meet, then its work list. -/
theorem find_scans_end (t : Table) (l : List Char) {pos : Nat} {carried : List Target}
    {b : Bool} (h : Carries t l pos carried b) :
    (t.find l =
      let o := scan t l[pos]? (carried ++ [.state 0]) (Marks.none t.size) [] b
      if o.accepted then some ⟨pos, !o.consumed⟩
      else if pos < l.length then run t o.later.reverse o.consumed (pos + 1) (l.drop (pos + 1))
      else none) ∧
      carried.length ≤ 2 * t.readers.card ∧
      (∀ z ∈ carried, ∃ i s, t.get? i = some s ∧ s.kind ≠ .branch ∧ z ∈ s.successors) ∧
      Acc (fun q p => Turn t l[pos]? p q) ⟨carried ++ [.state 0], Marks.none t.size, [], b⟩ ∧
      ∀ p q, Relation.ReflTransGen (Turn t l[pos]?)
          ⟨carried ++ [.state 0], Marks.none t.size, [], b⟩ p →
        Turn t l[pos]? p q → Prod.Lex (· < ·) (· < ·) (q.weight t) (p.weight t) := by
  obtain ⟨hlen, hfrom⟩ := h.bound
  have hn := named_start (b := b) hfrom
  refine ⟨?_, hlen, hfrom, acc_turn _ hn, fun p q hr hq => hq.weight_lt (hn.of_turns hr)⟩
  rw [h.find_eq]
  -- the position is inside the line, or it is the end of the line
  rcases Nat.lt_or_ge pos l.length with hlt | hge
  · rw [List.drop_eq_getElem_cons hlt, List.getElem?_eq_getElem hlt, run]
    simp only [if_pos hlt]
  · obtain rfl : pos = l.length := Nat.le_antisymm h.le_length hge
    rw [List.drop_length, List.getElem?_length, run]
    simp

open Find in
/-- On a table whose states 0 and 1 pass control to each other, the first scan ends. -/
theorem find_scans_end_epsilon_cycle :
    Carries ⟨#[⟨.branch, .state 1, .state 1⟩, ⟨.branch, .state 0, .state 2⟩,
        ⟨.literal 'q', .accept, .accept⟩]⟩ ['a', 'q'] 0 [] false ∧
      Acc (fun q p => Turn ⟨#[⟨.branch, .state 1, .state 1⟩, ⟨.branch, .state 0, .state 2⟩,
          ⟨.literal 'q', .accept, .accept⟩]⟩ (some 'a') p q)
        ⟨[.state 0], Marks.none 3, [], false⟩ :=
  ⟨.start, (find_scans_end _ ['a', 'q'] .start).2.2.2.1⟩

end TableGrep
