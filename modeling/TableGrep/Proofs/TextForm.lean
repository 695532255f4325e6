import Mathlib
import TableGrep.Proofs.LineGrammar

/-!
# Reading back the text form of a table

`Table.render` writes one line per state, `index,kind,next1,next2`, each ended by a line feed.
Read back with `Table.read`, every such line is one record of the grammar of
`TableGrep.Proofs.LineGrammar`: the index and the targets are decimal numerals with no comma, a
comma literal is the five-field form, and no line ends in a carriage return.

The one thing the text form cannot carry is a literal line feed: it cuts its own line after the
index and the comma, and the reader refuses that piece for having two fields. So a well-formed
table is read back from its text exactly when none of its literals is a line feed
(`Table.read_render_iff`). A table read from text never has one, since no line of a text holds a
line feed, and so it always comes back (`Table.read_render_read`).
-/

namespace TableGrep

namespace Text

theorem linesFrom_append_newline : ∀ (acc xs ys : List Char),
    linesFrom acc (xs ++ '\n' :: ys) = linesFrom acc (xs ++ ['\n']) ++ linesFrom [] ys
  | acc, [], ys => by simp [linesFrom]
  | acc, x :: xs, ys => by
    simp only [List.cons_append, linesFrom]
    split
    · simp [linesFrom_append_newline [] xs ys]
    · exact linesFrom_append_newline (x :: acc) xs ys

theorem lines_append_newline (xs ys : List Char) :
    lines (xs ++ '\n' :: ys) = lines (xs ++ ['\n']) ++ lines ys :=
  linesFrom_append_newline [] xs ys

theorem linesFrom_line : ∀ (acc xs : List Char), '\n' ∉ xs →
    linesFrom acc (xs ++ ['\n']) = [(dropReturn (xs.reverse ++ acc)).reverse]
  | acc, [], _ => by simp [linesFrom]
  | acc, x :: xs, h => by
    have hx : x ≠ '\n' := fun e => h (e ▸ .head _)
    simp only [List.cons_append, linesFrom, hx, ↓reduceIte]
    rw [linesFrom_line (x :: acc) xs fun e => h (.tail _ e)]
    simp

theorem lines_line {xs : List Char} (h : '\n' ∉ xs) : lines (xs ++ ['\n']) = [trimReturn xs] := by
  simp [lines, linesFrom_line [] xs h, trimReturn]

/-- Texts that are each ended by a line feed, one after the other, are their lines. -/
theorem lines_flatMap {α : Type} (f : α → List Char) :
    ∀ l : List α, (∀ x ∈ l, '\n' ∉ f x) →
      lines (l.flatMap fun x => f x ++ ['\n']) = l.map (trimReturn ∘ f)
  | [], _ => rfl
  | x :: l, h => by
    rw [List.flatMap_cons, List.append_assoc, List.singleton_append, lines_append_newline,
      lines_line (h x (.head _)), lines_flatMap f l fun y hy => h y (.tail _ hy)]
    rfl

theorem linesFrom_newline_not_mem : ∀ (acc s : List Char), '\n' ∉ acc →
    ∀ l ∈ linesFrom acc s, '\n' ∉ l
  | acc, [], hacc, l, hl => by
    unfold linesFrom at hl
    split at hl
    · cases hl
    · rw [List.mem_singleton.1 hl, List.mem_reverse]
      exact hacc
  | acc, c :: s, hacc, l, hl => by
    unfold linesFrom at hl
    split at hl
    · rcases List.mem_cons.1 hl with rfl | hl
      · rw [List.mem_reverse]
        unfold dropReturn
        split
        · exact fun h => hacc (.tail _ h)
        · exact hacc
      · exact linesFrom_newline_not_mem [] s (by simp) l hl
    · rename_i hc
      exact linesFrom_newline_not_mem (c :: acc) s
        (by rintro (_ | ⟨_, h⟩); exacts [hc rfl, hacc h]) l hl

/-- No line of a text holds a line feed. -/
theorem newline_not_mem_of_mem_lines {s l : List Char} (h : l ∈ lines s) : '\n' ∉ l :=
  linesFrom_newline_not_mem [] s (by simp) l h

theorem dropReturn_cons {c : Char} (hc : c ≠ '\r') (r : List Char) : dropReturn (c :: r) = c :: r := by
  unfold dropReturn
  split
  · rename_i h
    cases h
    exact absurd rfl hc
  · rfl

theorem trimReturn_of_getLast? {l : List Char} (h : l.getLast? ≠ some '\r') : trimReturn l = l := by
  unfold trimReturn
  cases hl : l.reverse with
  | nil =>
    rw [List.reverse_eq_nil_iff.1 hl]
    rfl
  | cons c r =>
    have hc : c ≠ '\r' := by
      rintro rfl
      apply h
      rw [← List.head?_reverse, hl]
      rfl
    rw [dropReturn_cons hc, ← hl, List.reverse_reverse]

theorem mem_of_mem_trimReturn {x : Char} {l : List Char} (h : x ∈ trimReturn l) : x ∈ l := by
  unfold trimReturn at h
  rw [List.mem_reverse] at h
  rw [← List.mem_reverse]
  unfold dropReturn at h
  split at h
  · rename_i rest e
    rw [e]
    exact .tail _ h
  · exact h

theorem newline_not_mem_of_mem_records {text : List Char} {p : List Char × Nat}
    (h : p ∈ records text) : '\n' ∉ p.1 := by
  have hz := List.fst_mem_of_mem_zipIdx (List.mem_filter.1 h).1
  obtain ⟨l, hl, e⟩ := List.mem_map.1 hz
  rw [← e]
  exact fun hx => newline_not_mem_of_mem_lines hl (mem_of_mem_trimReturn hx)

theorem mem_numbered {n : Nat} {ls : List (List Char)} {l : List Char} (hl : l ∈ ls)
    (hne : trimReturn l ≠ []) : ∃ m, (trimReturn l, m) ∈ numbered n ls := by
  obtain ⟨i, hi, rfl⟩ := List.getElem_of_mem hl
  refine ⟨n + i, List.mem_filter.2 ⟨?_, by simpa using hne⟩⟩
  rw [List.mk_add_mem_zipIdx_iff_getElem?]
  simp [hi]

theorem trimReturn_mem_lines {A B R : List Char} (hB : '\n' ∉ B)
    (hA : A = [] ∨ ∃ A', A = A' ++ ['\n']) : trimReturn B ∈ lines (A ++ B ++ '\n' :: R) := by
  have key : trimReturn B ∈ lines (B ++ '\n' :: R) := by
    rw [lines_append_newline, lines_line hB]
    exact .head _
  rcases hA with rfl | ⟨A', rfl⟩
  · simpa using key
  · rw [List.append_assoc, List.append_assoc, List.singleton_append, lines_append_newline]
    exact List.mem_append_right _ (by simpa using key)

theorem readUnsigned?_toDigits {b n : Nat} (h : n < 2 ^ b) :
    readUnsigned? b (Nat.toDigits 10 n) = some n :=
  readUnsigned?_eq_some_iff.2 ⟨_, .inl rfl, Nat.toDigits_ne_nil,
    fun _ hc => Nat.isDigit_of_mem_toDigits (by decide) (by decide) hc,
    Nat.ofDigitChars_ten_toDigits, h⟩

theorem not_mem_toDigits {c : Char} (hc : c.isDigit = false) (n : Nat) : c ∉ Nat.toDigits 10 n :=
  fun h => by simp [Nat.isDigit_of_mem_toDigits (by decide) (by decide) h] at hc

end Text

namespace Target

@[simp] theorem render_state (i : Nat) : (Target.state i).render.toList = Nat.toDigits 10 i := by
  simp [render, Nat.toList_repr]

@[simp] theorem render_accept : Target.accept.render.toList = ['-', '1'] := by
  simp [render]

@[simp] theorem render_unresolved : Target.unresolved.render.toList = ['-', '2'] := by
  simp [render]

theorem read?_state {i : Nat} (h : i < 2 ^ 63) :
    read? (Target.state i).render.toList = some (.state i) := by
  have hu := Text.readUnsigned?_toDigits h
  obtain ⟨c, cs, e⟩ := List.exists_cons_of_ne_nil (@Nat.toDigits_ne_nil i 10)
  have hc : c ≠ '-' := by
    rintro rfl
    exact Text.not_mem_toDigits (by decide) i (e ▸ List.mem_cons_self)
  rw [render_state, e]
  rw [e] at hu
  simp [read?, Text.readSigned?, hc, hu]

/-- A target read from text is read back from its own text. -/
theorem read?_render_of_read? {s : List Char} {x : Target} (h : read? s = some x) :
    read? x.render.toList = some x := by
  unfold read? at h
  split at h
  · rename_i n hn
    cases h
    apply read?_state
    unfold Text.readSigned? at hn
    split at hn
    · obtain ⟨m, -, hm⟩ := Option.bind_eq_some_iff.1 hn
      split at hm
      · simp only [Option.some.injEq, Int.ofNat_eq_natCast] at hm
        omega
      · cases hm
    · obtain ⟨m, hm, e⟩ := Option.map_eq_some_iff.1 hn
      cases e
      obtain ⟨-, -, -, -, -, hlt⟩ := Text.readUnsigned?_eq_some_iff.1 hm
      exact hlt
  · cases h
    rfl
  · cases h

theorem read?_render_of_below {n : Nat} {x : Target} (hx : x ≠ .unresolved) (hb : x.Below n)
    (hn : n ≤ 2 ^ 63) : read? x.render.toList = some x := by
  cases x with
  | state i => exact read?_state (by have := hb i rfl; omega)
  | accept => rfl
  | unresolved => exact (hx rfl).elim

theorem not_mem_render {c : Char} (hd : c.isDigit = false) (hm : c ≠ '-') (x : Target) :
    c ∉ x.render.toList := by
  cases x with
  | state i => simpa using Text.not_mem_toDigits hd i
  | accept =>
    simp only [render_accept, List.mem_cons, List.not_mem_nil, or_false, not_or]
    exact ⟨hm, by rintro rfl; exact absurd hd (by decide)⟩
  | unresolved =>
    simp only [render_unresolved, List.mem_cons, List.not_mem_nil, or_false, not_or]
    exact ⟨hm, by rintro rfl; exact absurd hd (by decide)⟩

end Target

namespace Kind

/-- Every kind is read back from its text. -/
theorem read?_render (k : Kind) : read? k.render.toList = some k := by
  cases k with
  | branch => rfl
  | wildcard => rfl
  | literal c => simp [render, read?]

theorem read?_eq_literal {kt : List Char} {c : Char} (h : read? kt = some (.literal c)) :
    kt = [c] := by
  unfold read? at h
  split_ifs at h
  · simp at h
  · simp at h
  · split at h
    · cases h
      rfl
    · cases h

theorem mem_render {c : Char} (hB : c ≠ 'B') (hR : c ≠ 'R') (hW : c ≠ 'W') (hC : c ≠ 'C')
    (k : Kind) : c ∈ k.render.toList ↔ k = .literal c := by
  cases k with
  | branch => simp [render, hB, hR]
  | wildcard => simp [render, hW, hC]
  | literal d => simp [render, eq_comm]

end Kind

namespace State

/-- The line the text form writes for the state `s` at index `i`, without its line feed. -/
def body (i : Nat) (s : State) : List Char :=
  Nat.toDigits 10 i ++ ',' :: s.kind.render.toList ++ ',' :: s.next1.render.toList ++ ',' ::
    s.next2.render.toList

theorem renderAt_toList (i : Nat) (s : State) : (s.renderAt i).toList = s.body i ++ ['\n'] := by
  simp [renderAt, body, Nat.toList_repr]

/-- The line written for a state is its record, when its index and targets can be read back. -/
theorem record_body {i : Nat} {s : State} (hi : i < 2 ^ 64)
    (h1 : Target.read? s.next1.render.toList = some s.next1)
    (h2 : Target.read? s.next2.render.toList = some s.next2) : Table.Record i (s.body i) s := by
  have hd : ',' ∉ Nat.toDigits 10 i := Text.not_mem_toDigits (by decide) i
  have hn1 : ',' ∉ s.next1.render.toList := Target.not_mem_render (by decide) (by decide) _
  have hn2 : ',' ∉ s.next2.render.toList := Target.not_mem_render (by decide) (by decide) _
  refine ⟨Nat.toDigits 10 i, s.next1.render.toList, s.next2.render.toList, ?_,
    Text.readUnsigned?_toDigits hi, h1, h2⟩
  by_cases hk : s.kind = .literal ','
  · -- a comma literal spreads over five fields
    have e : s.body i = [','].intercalate
        [Nat.toDigits 10 i, [], [], s.next1.render.toList, s.next2.render.toList] := by
      simp [body, hk, Kind.render, List.intercalate]
    rw [e, List.splitOn_intercalate _ (by simp [hd, hn1, hn2]) (by simp)]
    exact .inr ⟨rfl, hk⟩
  · have hkt : ',' ∉ s.kind.render.toList := by
      rw [Kind.mem_render (by decide) (by decide) (by decide) (by decide)]
      exact hk
    have e : s.body i = [','].intercalate
        [Nat.toDigits 10 i, s.kind.render.toList, s.next1.render.toList, s.next2.render.toList] := by
      simp [body, List.intercalate]
    rw [e, List.splitOn_intercalate _ (by simp [hd, hkt, hn1, hn2]) (by simp)]
    exact .inl ⟨_, rfl, Kind.read?_render _⟩

theorem body_getLast? (i : Nat) (s : State) :
    (s.body i).getLast? = s.next2.render.toList.getLast? := by
  have hne : s.next2.render.toList ≠ [] := by
    cases s.next2 <;> simp [Nat.toDigits_ne_nil]
  have e : s.body i = (Nat.toDigits 10 i ++ ',' :: s.kind.render.toList ++ ',' ::
      s.next1.render.toList ++ [',']) ++ s.next2.render.toList := by
    simp [body]
  rw [e, List.getLast?_append_of_ne_nil _ hne]

theorem trimReturn_body (i : Nat) (s : State) : Text.trimReturn (s.body i) = s.body i := by
  refine Text.trimReturn_of_getLast? fun h => ?_
  rw [body_getLast?] at h
  exact Target.not_mem_render (by decide) (by decide) s.next2 (List.mem_of_getLast? h)

theorem newline_not_mem_body {i : Nat} {s : State} (hk : s.kind ≠ .literal '\n') :
    '\n' ∉ s.body i := by
  have hd : '\n' ∉ Nat.toDigits 10 i := Text.not_mem_toDigits (by decide) i
  have hn1 : '\n' ∉ s.next1.render.toList := Target.not_mem_render (by decide) (by decide) _
  have hn2 : '\n' ∉ s.next2.render.toList := Target.not_mem_render (by decide) (by decide) _
  have hkt : '\n' ∉ s.kind.render.toList := by
    rw [Kind.mem_render (by decide) (by decide) (by decide) (by decide)]
    exact hk
  simp [body, hd, hn1, hn2, hkt]

end State

namespace Table

theorem render_toList (t : Table) :
    t.render.toList = t.states.toList.zipIdx.flatMap fun p => p.1.body p.2 ++ ['\n'] := by
  simp [render, String.toList_join, List.flatMap_map, State.renderAt_toList]

/-- The lines written for the states `l`, numbered from `k`, are their records. -/
theorem recordsRead_bodies : ∀ (l : List State) (k : Nat),
    (∀ s ∈ l, Target.read? s.next1.render.toList = some s.next1 ∧
      Target.read? s.next2.render.toList = some s.next2) →
    k + l.length ≤ 2 ^ 64 →
    RecordsRead k (Text.numbered (k + 1)
      ((l.zipIdx k).map (Text.trimReturn ∘ fun p => p.1.body p.2))) l
  | [], _, _, _ => .nil _
  | s :: l, k, hs, hk => by
    have hne : (s.body k).isEmpty = false := by simp [State.body]
    rw [List.zipIdx_cons, List.map_cons, Text.numbered_cons]
    simp only [Function.comp_apply, State.trimReturn_body, hne, Bool.false_eq_true, ↓reduceIte]
    simp only [List.length_cons] at hk
    exact .cons (State.record_body (by omega) (hs s (.head _)).1 (hs s (.head _)).2)
      (recordsRead_bodies l (k + 1) (fun s' h => hs s' (.tail _ h)) (by omega))

/-- A well-formed table whose numerals read back and with no line feed literal is read back. -/
theorem read_render_of {t : Table} (hw : t.WellFormed) (hsize : t.size ≤ 2 ^ 64)
    (hs : ∀ s ∈ t.states.toList, s.kind ≠ .literal '\n' ∧
      Target.read? s.next1.render.toList = some s.next1 ∧
      Target.read? s.next2.render.toList = some s.next2) :
    Table.read t.render = .ok t := by
  refine read_eq_ok_iff.2 ⟨?_, hw⟩
  rw [Text.records, render_toList, Text.lines_flatMap _ _ fun p hp =>
    State.newline_not_mem_body (hs p.1 (List.fst_mem_of_mem_zipIdx hp)).1]
  exact recordsRead_bodies _ 0 (fun s h => (hs s h).2) (by simpa [size] using hsize)

theorem Record.kind_ne_newline {k : Nat} {line : List Char} {s : State} (h : Record k line s)
    (hl : '\n' ∉ line) : s.kind ≠ .literal '\n' := by
  obtain ⟨idx, n1, n2, hF, -⟩ := h
  rcases hF with ⟨kt, e, hk⟩ | ⟨-, hk⟩
  · intro hkind
    rw [hkind] at hk
    have hsplit : [','].intercalate (line.splitOn ',') = line := List.intercalate_splitOn ','
    rw [e, Kind.read?_eq_literal hk] at hsplit
    exact hl (hsplit ▸ by simp [List.intercalate])
  · rw [hk]
    exact nofun

theorem RecordsRead.mem {k : Nat} {recs : List (List Char × Nat)} {ss : List State}
    (h : RecordsRead k recs ss) {p : List Char × Nat} (hp : p ∈ recs) :
    ∃ k' s, Record k' p.1 s := by
  induction h with
  | nil => cases hp
  | cons hrec _ ih =>
    rcases List.mem_cons.1 hp with rfl | hp
    · exact ⟨_, _, hrec⟩
    · exact ih hp

theorem RecordsRead.exists_record {k : Nat} {recs : List (List Char × Nat)} {ss : List State}
    (h : RecordsRead k recs ss) {s : State} (hs : s ∈ ss) :
    ∃ p ∈ recs, ∃ k', Record k' p.1 s := by
  induction h with
  | nil => cases hs
  | cons hrec _ ih =>
    rcases List.mem_cons.1 hs with rfl | hs
    · exact ⟨_, .head _, _, hrec⟩
    · obtain ⟨p, hp, k', hr⟩ := ih hs
      exact ⟨p, .tail _ hp, k', hr⟩

theorem RecordsRead.length_le {k : Nat} {recs : List (List Char × Nat)} {ss : List State}
    (h : RecordsRead k recs ss) : ss = [] ∨ k + ss.length ≤ 2 ^ 64 := by
  induction h with
  | nil => exact .inl rfl
  | cons hrec _ ih =>
    obtain ⟨_, _, _, _, hi, -⟩ := hrec
    obtain ⟨-, -, -, -, -, hlt⟩ := Text.readUnsigned?_eq_some_iff.1 hi
    right
    rcases ih with rfl | ih
    · simp only [List.length_singleton]
      omega
    · simp only [List.length_cons]
      omega

/-- A table read from text is read back from its own text. -/
theorem read_render_read {text : String} {t : Table} (h : Table.read text = .ok t) :
    Table.read t.render = .ok t := by
  obtain ⟨hr, hw⟩ := read_eq_ok_iff.1 h
  refine read_render_of hw ?_ fun s hs => ?_
  · rcases hr.length_le with e | e
    · have h0 : t.states.size = 0 := by rw [← Array.length_toList, e]; rfl
      simp [size, h0]
    · simpa [size] using e
  · obtain ⟨p, hp, k, hrec⟩ := hr.exists_record hs
    have hk := hrec.kind_ne_newline (Text.newline_not_mem_of_mem_records hp)
    obtain ⟨_, _, _, _, _, h1, h2⟩ := hrec
    exact ⟨hk, Target.read?_render_of_read? h1, Target.read?_render_of_read? h2⟩

theorem Record.length_fields {k : Nat} {line : List Char} {s : State} (h : Record k line s) :
    (line.splitOn ',').length = 4 ∨ (line.splitOn ',').length = 5 := by
  obtain ⟨idx, n1, n2, hF, -⟩ := h
  rcases hF with ⟨kt, e, -⟩ | ⟨e, -⟩ <;> rw [e] <;> simp

theorem flatMap_body_cases (L : List (State × Nat)) :
    (L.flatMap fun p => p.1.body p.2 ++ ['\n']) = [] ∨
      ∃ A, (L.flatMap fun p => p.1.body p.2 ++ ['\n']) = A ++ ['\n'] := by
  rcases List.eq_nil_or_concat L with rfl | ⟨L', q, rfl⟩
  · exact .inl rfl
  · exact .inr ⟨L'.flatMap (fun p => p.1.body p.2 ++ ['\n']) ++ q.1.body q.2, by simp⟩

/-- A literal line feed cuts its state's line after the index and the comma. -/
theorem mem_records_render {t : Table} {pre post : List State} {s : State}
    (e : t.states.toList = pre ++ s :: post) (hk : s.kind = .literal '\n') :
    ∃ m, (Nat.toDigits 10 pre.length ++ [','], m) ∈ Text.records t.render.toList := by
  have hB : '\n' ∉ Nat.toDigits 10 pre.length ++ [','] := by
    simp [Text.not_mem_toDigits (by decide : ('\n' : Char).isDigit = false)]
  have hlast : Text.trimReturn (Nat.toDigits 10 pre.length ++ [',']) =
      Nat.toDigits 10 pre.length ++ [','] :=
    Text.trimReturn_of_getLast? (by simp)
  obtain ⟨R, hR⟩ : ∃ R, t.render.toList =
      (pre.zipIdx.flatMap fun p => p.1.body p.2 ++ ['\n']) ++
        (Nat.toDigits 10 pre.length ++ [',']) ++ '\n' :: R := by
    refine ⟨',' :: s.next1.render.toList ++ ',' :: s.next2.render.toList ++ '\n' ::
      ((post.zipIdx (pre.length + 1)).flatMap fun p => p.1.body p.2 ++ ['\n']), ?_⟩
    rw [render_toList, e, List.zipIdx_append, List.flatMap_append, List.zipIdx_cons,
      List.flatMap_cons]
    simp [State.body, hk, Kind.render]
  have hmem := @Text.trimReturn_mem_lines _ _ R hB (flatMap_body_cases pre.zipIdx)
  rw [hlast, ← hR] at hmem
  have := @Text.mem_numbered 1 _ _ hmem (by rw [hlast]; simp)
  rwa [hlast] at this

/-- A well-formed table of at most `2 ^ 63` states reads back exactly without line feed literals. -/
theorem read_render_iff {t : Table} (hw : t.WellFormed) (hsize : t.size ≤ 2 ^ 63) :
    Table.read t.render = .ok t ↔ ∀ s ∈ t.states.toList, s.kind ≠ .literal '\n' := by
  constructor
  · intro h s hs hk
    obtain ⟨hr, -⟩ := read_eq_ok_iff.1 h
    obtain ⟨pre, post, e⟩ := List.append_of_mem hs
    -- the piece of its line before the line feed has two fields, so it is no record
    obtain ⟨m, hm⟩ := mem_records_render e hk
    obtain ⟨k, s', hrec⟩ := hr.mem hm
    have h2 : ((Nat.toDigits 10 pre.length ++ [',']).splitOn ',').length = 2 := by
      have e2 : Nat.toDigits 10 pre.length ++ [','] = [','].intercalate [Nat.toDigits 10 pre.length, []] := by
        simp [List.intercalate]
      rw [e2, List.splitOn_intercalate _
        (by simp [Text.not_mem_toDigits (by decide : (',' : Char).isDigit = false)]) (by simp)]
      rfl
    have h45 := hrec.length_fields
    rw [h2] at h45
    omega
  · intro hk
    obtain ⟨-, hs⟩ := wellFormed_iff.1 hw
    refine read_render_of hw (hsize.trans (by norm_num)) fun s h => ⟨hk s h, ?_, ?_⟩
    · exact Target.read?_render_of_below (hs s h).1.1 (hs s h).2.1 hsize
    · exact Target.read?_render_of_below (hs s h).1.2 (hs s h).2.2 hsize

/-- The text form of a table reads back as the table exactly when no literal is a line feed, for
tables whose targets fit the signed 64-bit numerals; every table read from text qualifies. -/
theorem text_form_reads_back (t : Table) :
    (t.WellFormed → t.size ≤ 2 ^ 63 →
      (Table.read t.render = .ok t ↔ ∀ s ∈ t.states.toList, s.kind ≠ .literal '\n')) ∧
    ∀ text : String, Table.read text = .ok t → Table.read t.render = .ok t :=
  ⟨fun hw hsize => read_render_iff hw hsize, fun _ h => read_render_read h⟩

theorem text_form_reads_back_comma :
    (⟨#[⟨.literal ',', .accept, .accept⟩]⟩ : Table).WellFormed ∧
      (⟨#[⟨.literal ',', .accept, .accept⟩]⟩ : Table).size ≤ 2 ^ 63 ∧
      Table.read (Table.render ⟨#[⟨.literal ',', .accept, .accept⟩]⟩) =
        .ok ⟨#[⟨.literal ',', .accept, .accept⟩]⟩ :=
  ⟨by decide, by norm_num [size],
    ((text_form_reads_back _).1 (by decide) (by norm_num [size])).2 (by simp)⟩

/-- The line of a one-state table whose literal is a line feed is cut in two. -/
theorem read_render_line_feed_literal :
    Table.read (Table.render ⟨#[⟨.literal '\n', .accept, .accept⟩]⟩) =
      .error ⟨some 1, .fieldCount 2⟩ := by
  decide

end Table

end TableGrep
