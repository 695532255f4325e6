import TableGrep.Table.Basic

/-!
# Finding a match in a line

Every start offset of a line is tried at once. Threads are the targets waiting in a work list;
at each position a fresh thread enters at state 0 behind the threads carried over from earlier
positions, and the threads are run against the character there (or against the end of the line,
after the last character).

Handling a thread at a position:

* acceptance ends the search: the match ends at this position;
* an unresolved target, a state already handled at this position, or an index past the table is
  a dead end;
* a branch puts its successors at the front of the work list, `next1` and then `next2`, so
  `next2` is handled first;
* a state that reads the character puts its successors at the back, for the next position, and
  notes that a character was read.

A match also tells whether no thread had read any character of the line when it was found.
-/
namespace TableGrep

/-- Where and how a line was accepted. -/
structure Match where
  /-- The position, in characters, at which acceptance was reached. -/
  stop : Nat
  /-- No thread had read a character of the line when acceptance was reached. -/
  withoutChar : Bool
  deriving DecidableEq, Repr

namespace Find

/-- What a scan of one position leaves: whether it accepted, the threads for the next position
(most recent first), and whether any character of the line has been read. -/
structure Scanned where
  accepted : Bool
  later : List Target
  consumed : Bool
  deriving DecidableEq, Repr

/-- Handle the threads `now` at one position, against `c` (none at the end of the line). -/
def scan (t : Table) (c : Option Char) (now : List Target) (seen : Marks) (later : List Target)
    (consumed : Bool) : Scanned :=
  match now with
  | [] => ⟨false, later, consumed⟩
  | .accept :: _ => ⟨true, later, consumed⟩
  | .unresolved :: rest => scan t c rest seen later consumed
  | .state i :: rest =>
    if h : i < seen.size then
      if hi : seen[i] then scan t c rest seen later consumed
      else
        let seen' := seen.set i true h
        match t.get? i with
        | none => scan t c rest seen' later consumed
        | some s =>
          if s.kind.isBranch then scan t c (s.successors.reverse ++ rest) seen' later consumed
          else if c.any s.kind.consumes then
            scan t c rest seen' (s.successors.reverse ++ later) true
          else scan t c rest seen' later consumed
    else scan t c rest seen later consumed
termination_by (seen.unmarked, now.length)
decreasing_by
  all_goals first
    | exact Prod.Lex.right _ (by simp)
    | exact Prod.Lex.left _ _ (Marks.unmarked_set_lt h (by simpa using hi))

/-- Run the line from position `pos`, with the threads carried over from the position before. -/
def run (t : Table) (carried : List Target) (consumed : Bool) (pos : Nat) :
    List Char → Option Match
  | [] =>
    let o := scan t none (carried ++ [.state 0]) (Marks.none t.size) [] consumed
    if o.accepted then some ⟨pos, !o.consumed⟩ else none
  | c :: cs =>
    let o := scan t (some c) (carried ++ [.state 0]) (Marks.none t.size) [] consumed
    if o.accepted then some ⟨pos, !o.consumed⟩ else run t o.later.reverse o.consumed (pos + 1) cs

end Find

/-- The least position at which some stretch of the line is accepted, if any. -/
def Table.find (t : Table) (line : List Char) : Option Match :=
  Find.run t [] false 0 line

end TableGrep
