import TableGrep.Table.Find
import TableGrep.Text.Utf8

/-!
# Searching text for matching lines

A haystack of bytes is cut into lines at line feeds: the pieces between them, no piece after a
final line feed and none at all for an empty haystack, each without one trailing carriage return.
Each line is decoded lossily as UTF-8 and matched; the lines with a match are written out as
their own bytes, each followed by a line feed.
-/
namespace TableGrep

/-- The byte of a line feed. -/
def lineFeed : UInt8 := 0x0A

/-- The byte of a carriage return. -/
def carriageReturn : UInt8 := 0x0D

namespace Search

/-- A piece without one trailing carriage return, the piece held reversed. -/
def dropReturn : List UInt8 → List UInt8
  | b :: rest => if b = carriageReturn then rest else b :: rest
  | [] => []

/-- The lines of a haystack, `acc` holding the current piece reversed. -/
def linesFrom (acc : List UInt8) : List UInt8 → List (List UInt8)
  | [] => if acc.isEmpty then [] else [(dropReturn acc).reverse]
  | b :: rest =>
    if b = lineFeed then (dropReturn acc).reverse :: linesFrom [] rest
    else linesFrom (b :: acc) rest

/-- The lines of a haystack. -/
def lines (haystack : List UInt8) : List (List UInt8) := linesFrom [] haystack

end Search

/-- What a search saw. -/
structure Summary where
  /-- Lines searched. -/
  lines : Nat
  /-- Lines written out. -/
  matched : Nat
  /-- Some line matched before any character of it was read. -/
  matchedWithoutChar : Bool
  deriving DecidableEq, Repr

/-- The lines of a haystack that have a match, each with its match. -/
def Table.hits (t : Table) (haystack : List UInt8) : List (List UInt8 × Match) :=
  (Search.lines haystack).filterMap fun l => (t.find (Text.decodeLossy l)).map (l, ·)

/-- Search a haystack: the matching lines, each followed by a line feed, and the summary. -/
def Table.search (t : Table) (haystack : List UInt8) : List UInt8 × Summary :=
  let hits := t.hits haystack
  (hits.flatMap (·.1 ++ [lineFeed]),
    ⟨(Search.lines haystack).length, hits.length, hits.any (·.2.withoutChar)⟩)

end TableGrep
