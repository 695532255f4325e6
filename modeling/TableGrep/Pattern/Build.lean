import TableGrep.Table.Basic
import TableGrep.Pattern.Regex

/-!
# From syntax trees to tables

The construction appends states to a table and leaves every transition whose destination is not
known yet unresolved; the enclosing construct connects it later. A construct gives back a
`Fragment`: the state where it is entered and the state that still holds its open transitions,
which is always the last state appended.

States come in the order the pattern is read: a literal or wildcard is one state; `r*` and `r+`
add a branch after `r`; `r?` adds a branch and then a merge; `r|s` adds a branch after `r` and a
merge after `s`.

`Regex.body` puts an entry branch at state 0 before the pattern, and `Table.close` connects the
last state to an accepting branch added at the end, so the table is entered at 0 and accepts
through its last state. `Regex.toTable` does both.
-/
namespace TableGrep

/-- A built construct: where it is entered and the state holding its open transitions. -/
structure Fragment where
  start : Nat
  stop : Nat
  deriving DecidableEq, Repr

namespace Regex

/-- Append the states of `r` to `t`. -/
def emit : Regex → Table → Fragment × Table
  | .literal c, t => (⟨t.size, t.size⟩, t.push ⟨.literal c, .unresolved, .unresolved⟩)
  | .wildcard, t => (⟨t.size, t.size⟩, t.push ⟨.wildcard, .unresolved, .unresolved⟩)
  | .seq r s, t =>
    let (f, t) := r.emit t
    let (g, t) := s.emit t
    (⟨f.start, g.stop⟩, t.connect f.stop (.state g.start))
  | .alt r s, t =>
    let (f, t) := r.emit t
    let b := t.size
    let (g, t) := s.emit (t.addBranch (.state f.start) .unresolved)
    let m := t.size
    let t := t.addBranch .unresolved .unresolved
    let t := ((t.connect b (.state g.start)).connect f.stop (.state m)).connect g.stop (.state m)
    (⟨b, m⟩, t)
  | .star r, t =>
    let (f, t) := r.emit t
    let b := t.size
    (⟨b, b⟩, (t.addBranch (.state f.start) .unresolved).connect f.stop (.state b))
  | .plus r, t =>
    let (f, t) := r.emit t
    let b := t.size
    (⟨f.start, b⟩, (t.addBranch (.state f.start) .unresolved).connect f.stop (.state b))
  | .opt r, t =>
    let (f, t) := r.emit t
    let b := t.size
    let t := (t.connect f.stop (.state (b + 1))).addBranch (.state f.start) (.state (b + 1))
    (⟨b, b + 1⟩, t.addBranch .unresolved .unresolved)

/-- The states of a pattern behind an entry branch at 0, which leads to the pattern's start. -/
def body (r : Regex) : Table :=
  let (f, t) := r.emit (Table.empty.addBranch .unresolved .unresolved)
  t.connect 0 (.state f.start)

end Regex

namespace Table

/-- The first state before index `n` that still has an unresolved successor. -/
def firstOpen? (t : Table) (n : Nat) : Option Nat :=
  (List.range n).find? fun i =>
    match t.get? i with
    | some s => s.next1.isUnresolved || s.next2.isUnresolved
    | none => false

/-- Finish a built table: its last state leads to a new accepting branch at the end. -/
def close (t : Table) : Table :=
  (t.connect (t.size - 1) (.state t.size)).addBranch .accept .accept

end Table

/-- The table of a pattern: the entry branch at 0, the pattern's states, and an accepting branch
at the end. -/
def Regex.toTable (r : Regex) : Table := r.body.close

end TableGrep
