import Mathlib
import TableGrep.Table.Reader

/-!
# The line grammar of table texts

`Table.read` accepts exactly the texts whose records are the records of a well-formed table, in
order, and otherwise reports the first fault it meets (`read_line_grammar`).

The records of a text are its lines (`Text.lines`, which drops a carriage return before each line
feed), each less one more trailing carriage return, numbered from 1 and kept where they are not
empty (`Text.records`). A record is read as state `k` when its fields, cut at commas by the
library's `List.splitOn`, are four, `index,kind,next1,next2`, or five, `index,,,next1,next2` for a
comma literal, the index reads as the unsigned numeral `k` and both targets read (`Record`). A line
that is no record has one fault, from the first check that fails in the order field count, kind,
index, index match, `next1`, `next2` (`LineFault`). Reading stops at the first record that fails
(`RecordsFail`); once all are read, the table must have a state and no target out of range, and
otherwise the first state with a target out of range is reported at its line.
-/

namespace TableGrep

namespace Text

theorem splitFrom_eq (sep : Char) (acc s : List Char) :
    splitFrom sep acc s = s.splitOnPPrepend (· == sep) acc := by
  induction s generalizing acc with
  | nil => simp [splitFrom]
  | cons c s ih =>
    rw [splitFrom, List.splitOnPPrepend_cons_eq_if]
    by_cases h : c = sep <;> simp [h, ih]

/-- Cutting at a separator is the library's `List.splitOn`. -/
theorem split_eq_splitOn (sep : Char) (s : List Char) : split sep s = s.splitOn sep :=
  splitFrom_eq sep [] s

/-! ## Numerals -/

theorem digitsValue_go_some : ∀ (a : Nat) (ds : List Char),
    digitsValue?.go (some a) ds =
      if ∀ c ∈ ds, c.isDigit then some (Nat.ofDigitChars 10 ds a) else none
  | a, [] => by simp [digitsValue?.go]
  | a, d :: ds => by
    unfold digitsValue?.go
    by_cases hd : d.isDigit
    · simp only [hd, ↓reduceIte, Option.map_some, digitsValue_go_some, List.mem_cons,
        forall_eq_or_imp, true_and, Nat.ofDigitChars_cons]
    · simp [hd]

/-- A run of digits reads as the number it writes in decimal. -/
theorem digitsValue?_eq_some_iff {ds : List Char} {n : Nat} :
    digitsValue? ds = some n ↔ ds ≠ [] ∧ (∀ c ∈ ds, c.isDigit) ∧ Nat.ofDigitChars 10 ds 0 = n := by
  cases ds with
  | nil => simp [digitsValue?]
  | cons d ds =>
    rw [digitsValue?, digitsValue_go_some]
    split <;> simp_all

/-- An unsigned numeral: an optional `+`, one or more digits, and a value below `2 ^ b`. -/
theorem readUnsigned?_eq_some_iff {b : Nat} {s : List Char} {n : Nat} :
    readUnsigned? b s = some n ↔ ∃ ds, (s = ds ∨ s = '+' :: ds) ∧ ds ≠ [] ∧
      (∀ c ∈ ds, c.isDigit) ∧ Nat.ofDigitChars 10 ds 0 = n ∧ n < 2 ^ b := by
  cases s with
  | nil => simp [readUnsigned?, digitsValue?]
  | cons c cs =>
    by_cases hc : c = '+'
    · subst hc
      have hplus : ¬ ('+' : Char).isDigit := by decide
      simp only [readUnsigned?, Option.bind_eq_some_iff, digitsValue?_eq_some_iff,
        Option.ite_none_right_eq_some, Option.some.injEq, Nat.pow_eq]
      constructor
      · rintro ⟨m, ⟨hne, hd, rfl⟩, hlt, rfl⟩
        exact ⟨cs, .inr rfl, hne, hd, rfl, hlt⟩
      · rintro ⟨ds, rfl | e, hne, hd, rfl, hlt⟩
        · exact absurd (hd _ (.head _)) hplus
        · cases e
          exact ⟨_, ⟨hne, hd, rfl⟩, hlt, rfl⟩
    · have hbody : readUnsigned? b (c :: cs) = (digitsValue? (c :: cs)).bind
          fun n => if n < 2 ^ b then some n else none := by
        simp [readUnsigned?, hc]
      simp only [hbody, Option.bind_eq_some_iff, digitsValue?_eq_some_iff,
        Option.ite_none_right_eq_some, Option.some.injEq]
      constructor
      · rintro ⟨m, ⟨hne, hd, rfl⟩, hlt, rfl⟩
        exact ⟨c :: cs, .inl rfl, hne, hd, rfl, hlt⟩
      · rintro ⟨ds, rfl | e, hne, hd, rfl, hlt⟩
        · exact ⟨_, ⟨hne, hd, rfl⟩, hlt, rfl⟩
        · exact absurd (List.cons.inj e).1 hc

end Text

/-! ## Targets out of range -/

namespace Target

/-- The target names no state at or past `n`. -/
def Below (n : Nat) (x : Target) : Prop := ∀ j, x = .state j → j < n

theorem defectAt_eq_none_iff {n i : Nat} {x : Target} :
    x.defectAt n i = none ↔ x ≠ .unresolved ∧ x.Below n := by
  cases x with
  | state j => by_cases h : j < n <;> simp [defectAt, Below, h]
  | accept => simp [defectAt, Below]
  | unresolved => simp [defectAt]

theorem defectAt_eq_some_iff {n i : Nat} {x : Target} {d : Defect} (hx : x ≠ .unresolved) :
    x.defectAt n i = some d ↔ ∃ j, x = .state j ∧ n ≤ j ∧ d = .dangling i j := by
  cases x with
  | state j =>
    by_cases h : j < n
    · simp [defectAt, h]
    · simp [defectAt, h, eq_comm]
      omega
  | accept => simp [defectAt]
  | unresolved => exact (hx rfl).elim

theorem read?_ne_unresolved {s : List Char} {x : Target} (h : read? s = some x) :
    x ≠ .unresolved := by
  unfold read? at h
  split at h
  · cases h
    exact nofun
  · cases h
    exact nofun
  · cases h

end Target

namespace State

/-- Both successors of the state name no state at or past `n`. -/
def Below (n : Nat) (s : State) : Prop := s.next1.Below n ∧ s.next2.Below n

/-- Neither successor of the state is unresolved. -/
def Resolved (s : State) : Prop := s.next1 ≠ .unresolved ∧ s.next2 ≠ .unresolved

/-- The first fault of the successors of state `i`, `next1` before `next2`. -/
def defectAt (n i : Nat) (s : State) : Option Defect :=
  (s.next1.defectAt n i).or (s.next2.defectAt n i)

theorem defectAt_eq_none_iff {n i : Nat} {s : State} :
    s.defectAt n i = none ↔ s.Resolved ∧ s.Below n := by
  simp only [defectAt, Option.or_eq_none_iff, Target.defectAt_eq_none_iff, Resolved, Below]
  tauto

theorem defectAt_eq_some_iff {n i : Nat} {s : State} {d : Defect} (hs : s.Resolved) :
    s.defectAt n i = some d ↔ ∃ j, (s.next1 = .state j ∨ s.next1.Below n ∧ s.next2 = .state j) ∧
      n ≤ j ∧ d = .dangling i j := by
  rw [defectAt, Option.or_eq_some_iff, Target.defectAt_eq_some_iff hs.1,
    Target.defectAt_eq_none_iff, Target.defectAt_eq_some_iff hs.2]
  constructor
  · rintro (⟨j, h1, hn, rfl⟩ | ⟨⟨-, hb⟩, j, h2, hn, rfl⟩)
    · exact ⟨j, .inl h1, hn, rfl⟩
    · exact ⟨j, .inr ⟨hb, h2⟩, hn, rfl⟩
  · rintro ⟨j, h1 | ⟨hb, h2⟩, hn, rfl⟩
    · exact .inl ⟨j, h1, hn, rfl⟩
    · exact .inr ⟨⟨hs.1, hb⟩, j, h2, hn, rfl⟩

end State

namespace Table

theorem defectFrom_cons {n i : Nat} {s : State} {rest : List State} :
    defectFrom n i (s :: rest) = (s.defectAt n i).or (defectFrom n (i + 1) rest) := by
  simp only [defectFrom, State.defectAt]
  cases s.next1.defectAt n i <;> cases s.next2.defectAt n i <;> rfl

theorem defectFrom_eq_none_iff {n : Nat} :
    ∀ {i : Nat} {l : List State}, defectFrom n i l = none ↔ ∀ s ∈ l, s.Resolved ∧ s.Below n
  | _, [] => by simp [defectFrom]
  | i, s :: rest => by
    rw [defectFrom_cons, Option.or_eq_none_iff, State.defectAt_eq_none_iff, defectFrom_eq_none_iff,
      List.forall_mem_cons]

theorem defectFrom_eq_some_iff_first {n : Nat} {d : Defect} :
    ∀ {i : Nat} {l : List State}, defectFrom n i l = some d ↔
      ∃ (pre : List State) (s : State) (post : List State), l = pre ++ s :: post ∧
        (∀ s' ∈ pre, s'.Resolved ∧ s'.Below n) ∧ s.defectAt n (i + pre.length) = some d
  | _, [] => by simp [defectFrom]
  | i, s :: rest => by
    rw [defectFrom_cons, Option.or_eq_some_iff, defectFrom_eq_some_iff_first,
      State.defectAt_eq_none_iff]
    constructor
    · rintro (h | ⟨hs, pre, s', post, rfl, hpre, h⟩)
      · exact ⟨[], s, rest, rfl, by simp, h⟩
      · refine ⟨s :: pre, s', post, rfl, List.forall_mem_cons.2 ⟨hs, hpre⟩, ?_⟩
        rwa [List.length_cons, ← Nat.add_assoc, Nat.add_right_comm]
    · rintro ⟨_ | ⟨p, pre⟩, s', post, e, hpre, h⟩
      · obtain ⟨rfl, rfl⟩ := List.cons_eq_cons.1 e
        exact .inl h
      · obtain ⟨rfl, rfl⟩ := List.cons_eq_cons.1 e
        refine .inr ⟨hpre _ (.head _), pre, s', post, rfl, fun s'' h => hpre s'' (.tail _ h), ?_⟩
        rwa [List.length_cons, ← Nat.add_assoc, Nat.add_right_comm] at h

/-- Among resolved states, the scan reports the first target out of range, `next1` first. -/
theorem defectFrom_eq_some_iff {n : Nat} {d : Defect} {i : Nat} {l : List State}
    (hl : ∀ s ∈ l, s.Resolved) :
    defectFrom n i l = some d ↔
      ∃ (pre : List State) (s : State) (post : List State) (j : Nat), l = pre ++ s :: post ∧
        (∀ s' ∈ pre, s'.Below n) ∧ (s.next1 = .state j ∨ s.next1.Below n ∧ s.next2 = .state j) ∧
        n ≤ j ∧ d = .dangling (i + pre.length) j := by
  rw [defectFrom_eq_some_iff_first]
  constructor
  · rintro ⟨pre, s, post, rfl, hpre, h⟩
    obtain ⟨j, hj, hn, rfl⟩ := (State.defectAt_eq_some_iff (hl s (by simp))).1 h
    exact ⟨pre, s, post, j, rfl, fun s' hs' => (hpre s' hs').2, hj, hn, rfl⟩
  · rintro ⟨pre, s, post, j, rfl, hpre, hj, hn, rfl⟩
    refine ⟨pre, s, post, rfl, fun s' hs' => ⟨hl s' (by simp [hs']), hpre s' hs'⟩, ?_⟩
    exact (State.defectAt_eq_some_iff (hl s (by simp))).2 ⟨j, hj, hn, rfl⟩

end Table

/-! ## The grammar of one line -/

namespace Table

/-- How the fields of a line, cut at its commas, give the index text, the kind and the two target
texts of a state: four fields whose kind text reads as a kind, or five fields whose second and
third are empty, a comma literal. -/
def Fields (fields : List (List Char)) (index : List Char) (k : Kind) (n1 n2 : List Char) : Prop :=
  (∃ kt, fields = [index, kt, n1, n2] ∧ Kind.read? kt = some k) ∨
    (fields = [index, [], [], n1, n2] ∧ k = .literal ',')

/-- The line is the record of the state `s` numbered `k`. -/
def Record (k : Nat) (line : List Char) (s : State) : Prop :=
  ∃ index n1 n2, Fields (line.splitOn ',') index s.kind n1 n2 ∧
    Text.readUnsigned? 64 index = some k ∧ Target.read? n1 = some s.next1 ∧
    Target.read? n2 = some s.next2

/-- The fault of a line that is no record of the state numbered `k`: the first check that fails,
in the order field count, kind, index, index match, `next1`, `next2`. -/
inductive LineFault (k : Nat) (line : List Char) : TableFault → Prop
  | fieldCount : (line.splitOn ',').length ≠ 4 → (∀ i a b, line.splitOn ',' ≠ [i, [], [], a, b]) →
      LineFault k line (.fieldCount (line.splitOn ',').length)
  | badKind {i kt a b : List Char} : line.splitOn ',' = [i, kt, a, b] → Kind.read? kt = none →
      LineFault k line (.badKind (String.ofList kt))
  | badIndex {i a b : List Char} {kind : Kind} : Fields (line.splitOn ',') i kind a b →
      Text.readUnsigned? 64 i = none → LineFault k line (.badIndex (String.ofList i))
  | indexMismatch {i a b : List Char} {kind : Kind} {f : Nat} :
      Fields (line.splitOn ',') i kind a b → Text.readUnsigned? 64 i = some f → f ≠ k →
      LineFault k line (.indexMismatch k f)
  | badNext1 {i a b : List Char} {kind : Kind} : Fields (line.splitOn ',') i kind a b →
      Text.readUnsigned? 64 i = some k → Target.read? a = none →
      LineFault k line (.badTarget (String.ofList a))
  | badNext2 {i a b : List Char} {kind : Kind} {x : Target} : Fields (line.splitOn ',') i kind a b →
      Text.readUnsigned? 64 i = some k → Target.read? a = some x → Target.read? b = none →
      LineFault k line (.badTarget (String.ofList b))

end Table

namespace State

theorem readFields_eq_ok_iff {line index n1 n2 : List Char} {k : Kind} :
    readFields line = .ok (index, k, n1, n2) ↔ Table.Fields (line.splitOn ',') index k n1 n2 := by
  unfold readFields Table.Fields
  rw [Text.split_eq_splitOn]
  generalize line.splitOn ',' = fields
  split
  · rename_i i kt a b
    split
    · rename_i k' hk
      constructor
      · rintro ⟨⟩
        exact .inl ⟨kt, rfl, hk⟩
      · rintro (⟨kt', e, hk'⟩ | ⟨e, -⟩)
        · obtain ⟨rfl, rfl, rfl, rfl⟩ : i = index ∧ kt = kt' ∧ a = n1 ∧ b = n2 := by simpa using e
          rw [hk] at hk'
          cases hk'
          rfl
        · simp at e
    · simp_all
  · constructor
    · rintro ⟨⟩
      exact .inr ⟨rfl, rfl⟩
    · rintro (⟨kt, e, -⟩ | ⟨e, rfl⟩)
      · simp at e
      · obtain ⟨rfl, rfl, rfl⟩ : _ ∧ _ ∧ _ := by simpa using e
        rfl
  · rename_i h4 h5
    simp only [reduceCtorEq, false_iff, not_or, not_exists, not_and]
    exact ⟨fun kt e => (h4 _ _ _ _ e).elim, fun e => (h5 _ _ _ e).elim⟩

theorem readFields_eq_error_iff {line : List Char} {f : TableFault} :
    readFields line = .error f ↔
      ((line.splitOn ',').length ≠ 4 ∧ (∀ i a b, line.splitOn ',' ≠ [i, [], [], a, b]) ∧
          f = .fieldCount (line.splitOn ',').length) ∨
        ∃ i kt a b, line.splitOn ',' = [i, kt, a, b] ∧ Kind.read? kt = none ∧
          f = .badKind (String.ofList kt) := by
  unfold readFields
  rw [Text.split_eq_splitOn]
  split
  · rename_i i kt a b e
    split
    · rename_i hk
      simp [e, hk]
    · rename_i hk
      simp [e, hk, eq_comm]
  · rename_i e
    simp [e]
  · rename_i h4 h5
    have hlen : (line.splitOn ',').length ≠ 4 := fun e => by
      obtain ⟨i, kt, a, b, e'⟩ := List.length_eq_four.1 e
      exact h4 i kt a b e'
    constructor
    · rintro ⟨⟩
      exact .inl ⟨hlen, fun i a b e => h5 i a b e, rfl⟩
    · rintro (⟨-, -, rfl⟩ | ⟨i, kt, a, b, e, -⟩)
      · rfl
      · exact (h4 _ _ _ _ e).elim

/-- A line reads as a state exactly when it is that state's record. -/
theorem read_eq_ok_iff {k : Nat} {line : List Char} {s : State} :
    read k line = .ok s ↔ Table.Record k line s := by
  constructor
  · intro h
    unfold read at h
    cases hf : readFields line with
    | error f => simp [hf, bind, Except.bind] at h
    | ok p =>
      obtain ⟨i, kind, a, b⟩ := p
      simp only [hf, bind, Except.bind] at h
      split at h
      · rename_i found hi
        split at h
        · cases h
        · split at h
          · rename_i x ha
            split at h
            · rename_i y hb
              simp only [pure, Except.pure, Except.ok.injEq] at h
              subst h
              exact ⟨i, a, b, readFields_eq_ok_iff.1 hf, by simp_all, ha, hb⟩
            · cases h
          · cases h
      · cases h
  · rintro ⟨i, a, b, hF, hi, ha, hb⟩
    have hf := readFields_eq_ok_iff.2 hF
    simp [read, hf, hi, ha, hb, bind, Except.bind, pure, Except.pure]

/-- A line fails with the fault `LineFault` names. -/
theorem read_eq_error_iff {k : Nat} {line : List Char} {f : TableFault} :
    read k line = .error f ↔ Table.LineFault k line f := by
  constructor
  · intro h
    unfold read at h
    cases hf : readFields line with
    | error f' =>
      simp only [hf, bind, Except.bind, Except.error.injEq] at h
      subst h
      rcases readFields_eq_error_iff.1 hf with ⟨h4, h5, rfl⟩ | ⟨i, kt, a, b, e, hk, rfl⟩
      · exact .fieldCount h4 h5
      · exact .badKind e hk
    | ok p =>
      obtain ⟨i, kind, a, b⟩ := p
      have hF := readFields_eq_ok_iff.1 hf
      simp only [hf, bind, Except.bind] at h
      split at h
      · rename_i found hi
        split at h
        · rename_i hne
          cases h
          exact .indexMismatch hF hi hne
        · rename_i heq
          have hk : found = k := by simpa using heq
          subst hk
          split at h
          · rename_i x ha
            split at h
            · cases h
            · rename_i hb
              cases h
              exact .badNext2 hF hi ha (Option.eq_none_iff_forall_ne_some.2 hb)
          · rename_i ha
            cases h
            exact .badNext1 hF hi (Option.eq_none_iff_forall_ne_some.2 ha)
      · rename_i hi
        cases h
        exact .badIndex hF (Option.eq_none_iff_forall_ne_some.2 hi)
  · intro h
    cases h with
    | fieldCount h4 h5 =>
      simp [read, readFields_eq_error_iff.2 (.inl ⟨h4, h5, rfl⟩), bind, Except.bind]
    | badKind e hk =>
      simp [read, readFields_eq_error_iff.2 (.inr ⟨_, _, _, _, e, hk, rfl⟩), bind, Except.bind]
    | badIndex hF hi =>
      simp [read, readFields_eq_ok_iff.2 hF, hi, bind, Except.bind, throw, throwThe,
        MonadExceptOf.throw]
    | indexMismatch hF hi hne =>
      simp [read, readFields_eq_ok_iff.2 hF, hi, hne, bind, Except.bind, throw, throwThe,
        MonadExceptOf.throw]
    | badNext1 hF hi ha =>
      simp [read, readFields_eq_ok_iff.2 hF, hi, ha, bind, Except.bind, throw, throwThe,
        MonadExceptOf.throw]
    | badNext2 hF hi ha hb =>
      simp [read, readFields_eq_ok_iff.2 hF, hi, ha, hb, bind, Except.bind, throw, throwThe,
        MonadExceptOf.throw]

end State

/-! ## The records of a text -/

namespace Text

/-- The records among the lines `ls`, numbered from `n`: each line less one more trailing carriage
return, where that leaves it non-empty, with its number. -/
def numbered (n : Nat) (ls : List (List Char)) : List (List Char × Nat) :=
  ((ls.map trimReturn).zipIdx n).filter fun p => !p.1.isEmpty

/-- The records of a table text with the numbers of their lines, counted from 1. -/
def records (text : List Char) : List (List Char × Nat) := numbered 1 (lines text)

@[simp] theorem numbered_nil (n : Nat) : numbered n [] = [] := rfl

theorem numbered_cons (n : Nat) (l : List Char) (ls : List (List Char)) :
    numbered n (l :: ls) =
      if (trimReturn l).isEmpty then numbered (n + 1) ls else (trimReturn l, n) :: numbered (n + 1) ls := by
  by_cases h : (trimReturn l).isEmpty <;> simp [numbered, List.zipIdx_cons, h]

end Text

namespace Table

/-- The records `recs`, the first numbered `k`, are the records of the states `ss`, in order. -/
inductive RecordsRead : Nat → List (List Char × Nat) → List State → Prop
  | nil (k : Nat) : RecordsRead k [] []
  | cons {k n : Nat} {line : List Char} {s : State} {recs : List (List Char × Nat)}
      {ss : List State} :
      Record k line s → RecordsRead (k + 1) recs ss → RecordsRead k ((line, n) :: recs) (s :: ss)

/-- Reading the records `recs`, the first numbered `k`, stops with the error `e`: the fault of the
first line that is no record, at that line's number. -/
inductive RecordsFail : Nat → List (List Char × Nat) → TableError → Prop
  | here {k n : Nat} {line : List Char} {f : TableFault} {recs : List (List Char × Nat)} :
      LineFault k line f → RecordsFail k ((line, n) :: recs) ⟨some n, f⟩
  | next {k n : Nat} {line : List Char} {s : State} {recs : List (List Char × Nat)}
      {e : TableError} :
      Record k line s → RecordsFail (k + 1) recs e → RecordsFail k ((line, n) :: recs) e

theorem Record.unique {k : Nat} {line : List Char} {s s' : State} (h : Record k line s)
    (h' : Record k line s') : s = s' := by
  rw [← State.read_eq_ok_iff] at h h'
  rw [h] at h'
  cases h'
  rfl

/-- Reading numbered lines skips the blank ones and reads the others as consecutive states. -/
theorem readLines_eq_ok_iff {n : Nat} {states : Array State} {lineOf : Array Nat}
    {ls : List (List Char)} {states' : Array State} {lineOf' : Array Nat} :
    readLines n states lineOf ls = .ok (states', lineOf') ↔
      ∃ ss, RecordsRead states.size (Text.numbered n ls) ss ∧
        states' = states ++ ss.toArray ∧
        lineOf' = lineOf ++ ((Text.numbered n ls).map Prod.snd).toArray := by
  induction ls generalizing n states lineOf with
  | nil =>
    simp only [readLines, Except.ok.injEq, Prod.mk.injEq, Text.numbered_nil, List.map_nil]
    constructor
    · rintro ⟨rfl, rfl⟩
      exact ⟨[], .nil _, by simp, by simp⟩
    · rintro ⟨ss, hr, rfl, rfl⟩
      cases hr
      simp
  | cons l ls ih =>
    rw [readLines, Text.numbered_cons]
    split
    · exact ih
    · cases hs : State.read states.size (Text.trimReturn l) with
      | error f =>
        simp only [reduceCtorEq, false_iff, not_exists, not_and]
        intro ss hr
        cases hr with
        | cons hrec _ =>
          rw [State.read_eq_ok_iff.2 hrec] at hs
          cases hs
      | ok s =>
        simp only
        rw [ih]
        constructor
        · rintro ⟨ss, hr, rfl, rfl⟩
          refine ⟨s :: ss, .cons (State.read_eq_ok_iff.1 hs) (by simpa using hr), ?_, ?_⟩
          · simp
          · simp
        · rintro ⟨ss, hr, rfl, rfl⟩
          cases hr with
          | cons hrec hr =>
            rename_i s' ss
            obtain rfl := hrec.unique (State.read_eq_ok_iff.1 hs)
            exact ⟨ss, by simpa using hr, by simp, by simp⟩

theorem readLines_eq_error_iff {n : Nat} {states : Array State} {lineOf : Array Nat}
    {ls : List (List Char)} {e : TableError} :
    readLines n states lineOf ls = .error e ↔ RecordsFail states.size (Text.numbered n ls) e := by
  induction ls generalizing n states lineOf with
  | nil =>
    simp only [readLines, reduceCtorEq, Text.numbered_nil, false_iff]
    rintro ⟨⟩
  | cons l ls ih =>
    rw [readLines, Text.numbered_cons]
    split
    · exact ih
    · cases hs : State.read states.size (Text.trimReturn l) with
      | error f =>
        simp only [Except.error.injEq]
        constructor
        · rintro rfl
          exact .here (State.read_eq_error_iff.1 hs)
        · intro h
          cases h with
          | here hf =>
            rw [← State.read_eq_error_iff, hs] at hf
            cases hf
            rfl
          | next hrec _ =>
            rw [← State.read_eq_ok_iff, hs] at hrec
            cases hrec
      | ok s =>
        simp only
        rw [ih]
        constructor
        · intro h
          exact .next (State.read_eq_ok_iff.1 hs) (by simpa using h)
        · intro h
          cases h with
          | here hf =>
            rw [← State.read_eq_error_iff, hs] at hf
            cases hf
          | next hrec h =>
            obtain rfl := hrec.unique (State.read_eq_ok_iff.1 hs)
            simpa using h

theorem RecordsRead.unique {k : Nat} {recs : List (List Char × Nat)} {ss ss' : List State}
    (h : RecordsRead k recs ss) (h' : RecordsRead k recs ss') : ss = ss' := by
  induction h generalizing ss' with
  | nil => cases h'; rfl
  | cons hrec _ ih =>
    cases h' with
    | cons hrec' hr' => rw [hrec.unique hrec', ih hr']

theorem readLines_records {text : String} {states : Array State} {lineOf : Array Nat}
    (h : readLines 1 #[] #[] (Text.lines text.toList) = .ok (states, lineOf)) :
    RecordsRead 0 (Text.records text.toList) states.toList ∧
      lineOf = ((Text.records text.toList).map Prod.snd).toArray := by
  obtain ⟨ss, hr, rfl, rfl⟩ := readLines_eq_ok_iff.1 h
  exact ⟨by simpa [Text.records] using hr, by simp [Text.records]⟩

/-- A text reads as a table exactly when its records are the table's and the table is well formed. -/
theorem read_eq_ok_iff {text : String} {t : Table} :
    read text = .ok t ↔ RecordsRead 0 (Text.records text.toList) t.states.toList ∧ t.WellFormed := by
  unfold read
  cases hl : readLines 1 #[] #[] (Text.lines text.toList) with
  | error e =>
    simp only [bind, Except.bind, reduceCtorEq, false_iff, not_and]
    intro hr _
    have hok := (@readLines_eq_ok_iff 1 #[] #[] (Text.lines text.toList) t.states
      ((Text.records text.toList).map Prod.snd).toArray).2
        ⟨t.states.toList, by simpa [Text.records] using hr, by simp, by simp [Text.records]⟩
    rw [hl] at hok
    cases hok
  | ok p =>
    obtain ⟨states, lineOf⟩ := p
    obtain ⟨hr, -⟩ := readLines_records hl
    simp only [bind, Except.bind]
    split
    · rename_i hd
      simp only [pure, Except.pure, Except.ok.injEq]
      constructor
      · rintro rfl
        exact ⟨hr, hd⟩
      · rintro ⟨hr', -⟩
        have := hr.unique hr'
        cases t
        simp_all
    · rename_i d hd
      simp only [throw, throwThe, MonadExceptOf.throw, reduceCtorEq, false_iff, not_and]
      intro hr' hw
      have := hr.unique hr'
      cases t
      simp_all [WellFormed]

theorem RecordsFail.not_read {k : Nat} {recs : List (List Char × Nat)} {e : TableError}
    {ss : List State} (h : RecordsFail k recs e) (hr : RecordsRead k recs ss) : False := by
  induction h generalizing ss with
  | here hf =>
    cases hr with
    | cons hrec _ =>
      rw [← State.read_eq_error_iff] at hf
      rw [← State.read_eq_ok_iff, hf] at hrec
      cases hrec
  | next _ _ ih =>
    cases hr with
    | cons _ hr => exact ih hr

theorem RecordsFail.unique {k : Nat} {recs : List (List Char × Nat)} {e e' : TableError}
    (h : RecordsFail k recs e) (h' : RecordsFail k recs e') : e = e' := by
  induction h generalizing e' with
  | here hf =>
    rw [← State.read_eq_error_iff] at hf
    cases h' with
    | here hf' =>
      rw [← State.read_eq_error_iff, hf] at hf'
      cases hf'
      rfl
    | next hrec _ =>
      rw [← State.read_eq_ok_iff, hf] at hrec
      cases hrec
  | next hrec _ ih =>
    rw [← State.read_eq_ok_iff] at hrec
    cases h' with
    | here hf' =>
      rw [← State.read_eq_error_iff, hrec] at hf'
      cases hf'
    | next _ h' => exact ih h'

/-- A text fails at its first failing record, or else at the first defect of its table. -/
theorem read_eq_error_iff {text : String} {e : TableError} :
    read text = .error e ↔
      RecordsFail 0 (Text.records text.toList) e ∨
        ∃ ss d, RecordsRead 0 (Text.records text.toList) ss ∧ Table.defect? ⟨ss.toArray⟩ = some d ∧
          e = ⟨d.state?.bind fun i => ((Text.records text.toList).map Prod.snd)[i]?, .defect d⟩ := by
  unfold read
  cases hl : readLines 1 #[] #[] (Text.lines text.toList) with
  | error e' =>
    have hf : RecordsFail 0 (Text.records text.toList) e' := by
      simpa [Text.records] using readLines_eq_error_iff.1 hl
    simp only [bind, Except.bind, Except.error.injEq]
    constructor
    · rintro rfl
      exact .inl hf
    · rintro (h | ⟨ss, d, hr, -, -⟩)
      · exact hf.unique h
      · exact (hf.not_read hr).elim
  | ok p =>
    obtain ⟨states, lineOf⟩ := p
    obtain ⟨hr, rfl⟩ := readLines_records hl
    simp only [bind, Except.bind]
    split
    · rename_i hd
      simp only [pure, Except.pure, reduceCtorEq, false_iff, not_or, not_exists, not_and]
      refine ⟨fun hf => hf.not_read hr, fun ss d hr' hd' _ => ?_⟩
      rw [← hr.unique hr'] at hd'
      simp_all
    · rename_i d hd
      simp only [throw, throwThe, MonadExceptOf.throw, Except.error.injEq]
      constructor
      · rintro rfl
        exact .inr ⟨states.toList, d, hr, by simpa using hd, by simp⟩
      · rintro (hf | ⟨ss, d', hr', hd', rfl⟩)
        · exact (hf.not_read hr).elim
        · rw [← hr.unique hr'] at hd'
          simp_all

theorem Record.resolved {k : Nat} {line : List Char} {s : State} (h : Record k line s) :
    s.Resolved := by
  obtain ⟨_, _, _, _, _, h1, h2⟩ := h
  exact ⟨Target.read?_ne_unresolved h1, Target.read?_ne_unresolved h2⟩

theorem RecordsRead.resolved {k : Nat} {recs : List (List Char × Nat)} {ss : List State}
    (h : RecordsRead k recs ss) : ∀ s ∈ ss, s.Resolved := by
  induction h with
  | nil => simp
  | cons hrec _ ih =>
    rintro s (_ | ⟨_, hs⟩)
    · exact hrec.resolved
    · exact ih s hs

theorem wellFormed_iff {t : Table} :
    t.WellFormed ↔ 0 < t.size ∧ ∀ s ∈ t.states.toList, s.Resolved ∧ s.Below t.size := by
  unfold WellFormed defect?
  by_cases h : t.states.isEmpty
  · have h0 : t.size = 0 := by simpa [size] using h
    simp [h, h0]
  · have h0 : 0 < t.size := by
      simp only [Array.isEmpty_iff] at h
      simp only [size]
      exact Array.size_pos_iff.2 h
    simp only [h, Bool.false_eq_true, ↓reduceIte, h0, true_and]
    exact defectFrom_eq_none_iff

theorem defect?_eq_some_iff {ss : List State} (hs : ∀ s ∈ ss, s.Resolved) {d : Defect} :
    Table.defect? ⟨ss.toArray⟩ = some d ↔
      (ss = [] ∧ d = .empty) ∨
        ∃ (pre : List State) (s : State) (post : List State) (j : Nat), ss = pre ++ s :: post ∧
          (∀ s' ∈ pre, s'.Below ss.length) ∧
          (s.next1 = .state j ∨ s.next1.Below ss.length ∧ s.next2 = .state j) ∧ ss.length ≤ j ∧
          d = .dangling pre.length j := by
  unfold defect?
  cases ss with
  | nil => simp [eq_comm]
  | cons s rest =>
    simp only [List.isEmpty_toArray, List.isEmpty_cons, Bool.false_eq_true, ↓reduceIte,
      reduceCtorEq, false_and, false_or]
    have := @defectFrom_eq_some_iff (s :: rest).length d 0 (s :: rest) hs
    simpa [size] using this

/-- Reading a table text gives the table whose records it holds, when that table has a state and
no target out of range; otherwise the first line that is no record, or the first state out of range. -/
theorem read_line_grammar (text : String) :
    (∀ t : Table, Table.read text = .ok t ↔
      RecordsRead 0 (Text.records text.toList) t.states.toList ∧ 0 < t.size ∧
        ∀ s ∈ t.states.toList, s.Below t.size) ∧
    (∀ e : TableError, Table.read text = .error e ↔
      RecordsFail 0 (Text.records text.toList) e ∨
        ∃ ss, RecordsRead 0 (Text.records text.toList) ss ∧
          ((ss = [] ∧ e = ⟨none, .defect .empty⟩) ∨
            ∃ pre s post j, ss = pre ++ s :: post ∧ (∀ s' ∈ pre, s'.Below ss.length) ∧
              (s.next1 = .state j ∨ s.next1.Below ss.length ∧ s.next2 = .state j) ∧
              ss.length ≤ j ∧
              e = ⟨((Text.records text.toList)[pre.length]?).map Prod.snd,
                .defect (.dangling pre.length j)⟩)) := by
  refine ⟨fun t => ?_, fun e => ?_⟩
  · rw [read_eq_ok_iff, wellFormed_iff]
    constructor
    · rintro ⟨hr, h0, hw⟩
      exact ⟨hr, h0, fun s hs => (hw s hs).2⟩
    · rintro ⟨hr, h0, hw⟩
      exact ⟨hr, h0, fun s hs => ⟨hr.resolved s hs, hw s hs⟩⟩
  · rw [read_eq_error_iff]
    refine or_congr Iff.rfl ⟨?_, ?_⟩
    · rintro ⟨ss, d, hr, hd, rfl⟩
      refine ⟨ss, hr, ?_⟩
      rcases (defect?_eq_some_iff hr.resolved).1 hd with ⟨rfl, rfl⟩ | ⟨pre, s, post, j, e, hpre, hj, hn, rfl⟩
      · exact .inl ⟨rfl, rfl⟩
      · refine .inr ⟨pre, s, post, j, e, hpre, hj, hn, ?_⟩
        simp [Defect.state?]
    · rintro ⟨ss, hr, ⟨rfl, rfl⟩ | ⟨pre, s, post, j, e, hpre, hj, hn, rfl⟩⟩
      · exact ⟨[], .empty, hr, rfl, rfl⟩
      · refine ⟨ss, .dangling pre.length j, hr,
          (defect?_eq_some_iff hr.resolved).2 (.inr ⟨pre, s, post, j, e, hpre, hj, hn, rfl⟩), ?_⟩
        simp [Defect.state?]

end Table

end TableGrep
