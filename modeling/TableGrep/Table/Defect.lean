import TableGrep.Table.Basic

/-!
# Well-formed tables

A finished table must have at least one state, and every successor must be acceptance or a state
that exists. `Table.defect?` finds the first fault, scanning states in index order and each
state's `next1` before its `next2`; `Table.WellFormed` says there is none.
-/
namespace TableGrep

/-- Why a sequence of states is not a usable table. -/
inductive Defect where
  | empty
  | dangling (state target : Nat)
  | unresolved (state : Nat)
  deriving DecidableEq, Repr

namespace Defect

/-- The text of a defect. -/
def message : Defect → String
  | .empty => "table has no states"
  | .dangling s t => "state " ++ toString s ++ " refers to missing state " ++ toString t
  | .unresolved s => "state " ++ toString s ++ " has an unresolved transition"

/-- The state a defect is found at; an empty table has none. -/
def state? : Defect → Option Nat
  | .empty => none
  | .dangling s _ => some s
  | .unresolved s => some s

end Defect

namespace Target

/-- The fault of successor `t` of state `i` in a table of `n` states, if it has one. -/
def defectAt (n i : Nat) : Target → Option Defect
  | .state j => if j < n then none else some (.dangling i j)
  | .accept => none
  | .unresolved => some (.unresolved i)

end Target

namespace Table

/-- The first fault among states numbered from `i` on, in a table of `n` states. -/
def defectFrom (n : Nat) : Nat → List State → Option Defect
  | _, [] => none
  | i, s :: rest =>
    match s.next1.defectAt n i with
    | some d => some d
    | none =>
      match s.next2.defectAt n i with
      | some d => some d
      | none => defectFrom n (i + 1) rest

/-- The first fault of a table: emptiness, then successors in index order. -/
def defect? (t : Table) : Option Defect :=
  if t.states.isEmpty then some .empty else defectFrom t.size 0 t.states.toList

/-- A table is well formed when it has states and every successor is acceptance or a state of
the table. -/
def WellFormed (t : Table) : Prop := t.defect? = none

instance (t : Table) : Decidable t.WellFormed :=
  inferInstanceAs (Decidable (t.defect? = none))

end Table

end TableGrep
