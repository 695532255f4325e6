import Mathlib
import TableGrep.Search

/-!
# Which lines a search reads and writes

A haystack is cut into the pieces between its line feeds, as the library's `List.splitOn` cuts
it, except that the text after the last line feed is a piece only when it is not empty: an empty
haystack has no pieces, and a final line feed ends the last piece without starting another
(`Search.pieces`). There are as many pieces as line feeds, plus one when the haystack does not
end in a line feed and is not empty (`Search.length_pieces`). Each piece, less one trailing
carriage return, is a line (`Search.lines_eq_pieces`).

`search_writes_matching_lines` is the whole behaviour of a search: it writes, in order and each
followed by a line feed, exactly the lines whose lossy decoding has a match, and its summary
counts the lines read and the lines written and tells whether one of the written lines matched
before reading a character.
-/

namespace TableGrep

namespace Search

/-- A list of pieces less its last one when that one is empty. -/
def dropEmptyLast (ps : List (List UInt8)) : List (List UInt8) :=
  if ps.getLast? = some [] then ps.dropLast else ps

/-- The pieces of a haystack between line feeds, with no empty piece after the last one. -/
def pieces (h : List UInt8) : List (List UInt8) :=
  dropEmptyLast (h.splitOn lineFeed)

/-- A piece without one trailing carriage return. -/
def stripReturn (l : List UInt8) : List UInt8 :=
  if l.getLast? = some carriageReturn then l.dropLast else l

/-! ## Pieces -/

theorem dropEmptyLast_singleton (x : List UInt8) :
    dropEmptyLast [x] = if x = [] then [] else [x] := by
  by_cases hx : x = [] <;> simp [dropEmptyLast, hx]

theorem dropEmptyLast_cons (x : List UInt8) {ps : List (List UInt8)} (hps : ps ≠ []) :
    dropEmptyLast (x :: ps) = x :: dropEmptyLast ps := by
  obtain ⟨y, ys, rfl⟩ := List.exists_cons_of_ne_nil hps
  unfold dropEmptyLast
  rw [List.getLast?_cons_cons]
  split <;> simp [List.dropLast_cons_cons]

theorem length_dropEmptyLast (ps : List (List UInt8)) :
    (dropEmptyLast ps).length = ps.length - if ps.getLast? = some [] then 1 else 0 := by
  unfold dropEmptyLast
  split <;> simp

theorem reverse_dropReturn (acc : List UInt8) :
    (dropReturn acc).reverse = stripReturn acc.reverse := by
  cases acc with
  | nil => rfl
  | cons b rest =>
    by_cases hb : b = carriageReturn <;> simp [dropReturn, stripReturn, hb]

/-- Reading with the current piece held reversed in `acc` gives the library's pieces after it. -/
theorem linesFrom_eq (acc bs : List UInt8) :
    linesFrom acc bs =
      (dropEmptyLast (bs.splitOnPPrepend (· == lineFeed) acc)).map stripReturn := by
  induction bs generalizing acc with
  | nil =>
    rw [List.splitOnPPrepend_nil, dropEmptyLast_singleton]
    cases acc with
    | nil => rfl
    | cons b rest => simp [linesFrom, reverse_dropReturn]
  | cons b rest ih =>
    rw [linesFrom, List.splitOnPPrepend_cons_eq_if]
    by_cases hb : b = lineFeed
    · -- a line feed ends the current piece; the rest is cut afresh
      have hne : rest.splitOnPPrepend (· == lineFeed) [] ≠ [] := List.splitOnP_ne_nil _ _
      rw [if_pos hb, if_pos (by simp [hb]), List.splitOnP, dropEmptyLast_cons _ hne,
        List.map_cons, reverse_dropReturn, ih]
    · rw [if_neg hb, if_neg (by simpa using hb), ih]

/-- The lines of a haystack are its pieces, each less one trailing carriage return. -/
theorem lines_eq_pieces (h : List UInt8) : lines h = (pieces h).map stripReturn :=
  linesFrom_eq [] h

theorem length_splitOnPPrepend (acc bs : List UInt8) :
    (bs.splitOnPPrepend (· == lineFeed) acc).length = bs.count lineFeed + 1 := by
  induction bs generalizing acc with
  | nil => simp
  | cons b rest ih =>
    rw [List.splitOnPPrepend_cons_eq_if, List.count_cons]
    by_cases hb : b = lineFeed
    · rw [if_pos (by simp [hb]), List.length_cons, List.splitOnP, ih, if_pos (by simp [hb])]
    · rw [if_neg (by simpa using hb), ih, if_neg (by simpa using hb)]

theorem getLast?_splitOnPPrepend (acc bs : List UInt8) :
    (bs.splitOnPPrepend (· == lineFeed) acc).getLast? = some [] ↔
      (bs = [] ∧ acc = []) ∨ bs.getLast? = some lineFeed := by
  induction bs generalizing acc with
  | nil => simp
  | cons b rest ih =>
    rw [List.splitOnPPrepend_cons_eq_if]
    by_cases hb : b = lineFeed
    · -- the pieces after this line feed hold the last one
      have hne : rest.splitOnPPrepend (· == lineFeed) [] ≠ [] := List.splitOnP_ne_nil _ _
      rw [if_pos (by simp [hb]), List.splitOnP, List.getLast?_cons_of_ne_nil hne, ih]
      cases rest with
      | nil => simp [hb]
      | cons c more => simp
    · rw [if_neg (by simpa using hb), ih]
      cases rest with
      | nil => simp [hb]
      | cons c more => simp

/-- One piece per line feed, and one more for a non-empty haystack that ends otherwise. -/
theorem length_pieces (h : List UInt8) :
    (pieces h).length = h.count lineFeed + if h ≠ [] ∧ h.getLast? ≠ some lineFeed then 1 else 0 := by
  have hsplit : h.splitOn lineFeed = h.splitOnPPrepend (· == lineFeed) [] := rfl
  have hlast := getLast?_splitOnPPrepend [] h
  simp only [and_true] at hlast
  rw [pieces, length_dropEmptyLast, hsplit, length_splitOnPPrepend]
  by_cases hl : h = [] ∨ h.getLast? = some lineFeed
  · rw [if_pos (hlast.2 hl), if_neg (by tauto)]
    omega
  · rw [if_neg (fun e => hl (hlast.1 e)), if_pos (by tauto)]
    omega

end Search

/-! ## What a search writes -/

theorem hits_map_fst (t : Table) (h : List UInt8) :
    (t.hits h).map Prod.fst =
      (Search.lines h).filter fun l => (t.find (Text.decodeLossy l)).isSome := by
  unfold Table.hits
  induction Search.lines h with
  | nil => rfl
  | cons l ls ih => cases hf : t.find (Text.decodeLossy l) <;> simp [hf, ih]

theorem mem_hits {t : Table} {h : List UInt8} {l : List UInt8} {m : Match} :
    (l, m) ∈ t.hits h ↔ l ∈ Search.lines h ∧ t.find (Text.decodeLossy l) = some m := by
  simp [Table.hits]

/-- A search writes, in order, each line of the haystack whose lossy decoding has a match, with
a line feed; it counts one line per piece between line feeds, counts the lines written, and reports
a match before any character exactly when one of the written lines matched so. -/
theorem search_writes_matching_lines (t : Table) (h : List UInt8) :
    Search.lines h = (Search.pieces h).map Search.stripReturn ∧
    (t.search h).1 =
      ((Search.lines h).filter fun l => (t.find (Text.decodeLossy l)).isSome).flatMap
        (· ++ [lineFeed]) ∧
    (t.search h).2.lines = (Search.pieces h).length ∧
    (Search.pieces h).length =
      h.count lineFeed + (if h ≠ [] ∧ h.getLast? ≠ some lineFeed then 1 else 0) ∧
    (t.search h).2.matched =
      ((Search.lines h).filter fun l => (t.find (Text.decodeLossy l)).isSome).length ∧
    ((t.search h).2.matchedWithoutChar = true ↔
      ∃ l ∈ (Search.lines h).filter (fun l => (t.find (Text.decodeLossy l)).isSome),
        ∃ m, t.find (Text.decodeLossy l) = some m ∧ m.withoutChar = true) := by
  refine ⟨Search.lines_eq_pieces h, ?_, ?_, Search.length_pieces h, ?_, ?_⟩
  · rw [← hits_map_fst, List.flatMap_map]
    rfl
  · simp [Table.search, Search.lines_eq_pieces]
  · rw [← hits_map_fst, List.length_map]
    rfl
  · simp only [Table.search, List.any_eq_true, List.mem_filter]
    constructor
    · rintro ⟨⟨l, m⟩, hlm, hw⟩
      obtain ⟨hl, hm⟩ := mem_hits.1 hlm
      exact ⟨l, ⟨hl, by simp [hm]⟩, m, hm, hw⟩
    · rintro ⟨l, ⟨hl, -⟩, m, hm, hw⟩
      exact ⟨(l, m), mem_hits.2 ⟨hl, hm⟩, hw⟩

end TableGrep
