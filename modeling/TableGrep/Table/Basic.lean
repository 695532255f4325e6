/-!
# State tables

A table is an array of states, entered at state 0. Each state has a kind (a branch that reads
nothing, a literal character, or the wildcard) and two successors. A successor names another
state by its index, the accepting end, or is still unresolved while a table is being built.

This module holds the types and the building operations: `push` and `add`, `addBranch`, and
`connect`, which fills exactly the unresolved successors of one state. Their lemmas say what each
does to `size` and to `get?`.

Walks over a table remember which states they have handled with `Marks`, one flag per state.
Marking an unmarked state lowers the number of unmarked ones, which is what makes those walks end.
-/
namespace TableGrep

/-- Where a transition leads: a state by index, acceptance, or nowhere yet. -/
inductive Target where
  | state (index : Nat)
  | accept
  | unresolved
  deriving DecidableEq, Repr, Inhabited

namespace Target

/-- The index a target names, if it names a state. -/
def index? : Target → Option Nat
  | .state i => some i
  | _ => none

/-- Whether a target still waits to be connected. -/
def isUnresolved : Target → Bool
  | .unresolved => true
  | _ => false

/-- Apply a relabelling to the index of a state target; other targets stay. -/
def relabel (f : Nat → Target) : Target → Target
  | .state i => f i
  | t => t

@[simp] theorem index?_state (i : Nat) : (Target.state i).index? = some i := rfl
@[simp] theorem index?_accept : Target.accept.index? = none := rfl
@[simp] theorem index?_unresolved : Target.unresolved.index? = none := rfl

end Target

/-- What a state does with the input. -/
inductive Kind where
  /-- Reads nothing and goes on to both successors. -/
  | branch
  /-- Reads exactly the given character. -/
  | literal (c : Char)
  /-- Reads any one character. -/
  | wildcard
  deriving DecidableEq, Repr, Inhabited

namespace Kind

/-- Whether a state of this kind reads the character `c`. -/
def consumes : Kind → Char → Bool
  | .branch, _ => false
  | .literal d, c => d == c
  | .wildcard, _ => true

/-- Whether the kind is a branch. -/
def isBranch : Kind → Bool
  | .branch => true
  | _ => false

end Kind

/-- One state of a table: its kind and its two successors. -/
structure State where
  kind : Kind
  next1 : Target
  next2 : Target
  deriving DecidableEq, Repr, Inhabited

namespace State

/-- A branch whose two successors agree: it only passes control on. -/
def isPassThrough (s : State) : Bool :=
  s.kind.isBranch && s.next1 == s.next2

/-- The distinct successors, `next1` first. -/
def successors (s : State) : List Target :=
  if s.next1 = s.next2 then [s.next1] else [s.next1, s.next2]

/-- Point each unresolved successor at `dest`; resolved successors stay. -/
def fill (s : State) (dest : Target) : State :=
  { s with
    next1 := if s.next1.isUnresolved then dest else s.next1
    next2 := if s.next2.isUnresolved then dest else s.next2 }

/-- Apply a relabelling to both successors. -/
def relabel (f : Nat → Target) (s : State) : State :=
  { s with next1 := s.next1.relabel f, next2 := s.next2.relabel f }

end State

/-- A table of states, entered at state 0. -/
structure Table where
  states : Array State
  deriving DecidableEq, Repr, Inhabited

namespace Table

/-- The table with no states. -/
def empty : Table := ⟨#[]⟩

/-- Number of states. -/
def size (t : Table) : Nat := t.states.size

/-- The state at index `i`, if there is one. -/
def get? (t : Table) (i : Nat) : Option State := t.states[i]?

/-- Append a state; its index is the old size. -/
def push (t : Table) (s : State) : Table := ⟨t.states.push s⟩

/-- Append a state, giving its index with the new table. -/
def add (t : Table) (s : State) : Nat × Table := (t.size, t.push s)

/-- Append a branch with the given successors. -/
def addBranch (t : Table) (next1 next2 : Target) : Table :=
  t.push ⟨.branch, next1, next2⟩

/-- Point every unresolved successor of state `i` at `dest`. An index past the end changes
nothing. -/
def connect (t : Table) (i : Nat) (dest : Target) : Table :=
  ⟨t.states.modify i (·.fill dest)⟩

@[simp] theorem size_push (t : Table) (s : State) : (t.push s).size = t.size + 1 := by
  simp [push, size]

@[simp] theorem size_addBranch (t : Table) (n1 n2 : Target) :
    (t.addBranch n1 n2).size = t.size + 1 := by
  simp [addBranch]

@[simp] theorem size_connect (t : Table) (i : Nat) (dest : Target) :
    (t.connect i dest).size = t.size := by
  simp [connect, size]

@[simp] theorem add_fst (t : Table) (s : State) : (t.add s).1 = t.size := rfl

@[simp] theorem add_snd (t : Table) (s : State) : (t.add s).2 = t.push s := rfl

theorem get?_push (t : Table) (s : State) (i : Nat) :
    (t.push s).get? i = if i = t.size then some s else t.get? i := by
  simp only [get?, push, size, Array.getElem?_push]
  split <;> simp_all

theorem get?_connect (t : Table) (i j : Nat) (dest : Target) :
    (t.connect i dest).get? j = if i = j then (t.get? j).map (·.fill dest) else t.get? j := by
  simp only [get?, connect, Array.getElem?_modify]

end Table

/-! ## Marks on states -/

/-- One flag per state: `true` once the state has been handled. -/
abbrev Marks := Array Bool

namespace Marks

/-- No state marked, for a table of `n` states. -/
def none (n : Nat) : Marks := Array.replicate n false

/-- The number of unmarked states. -/
def unmarked (m : Marks) : Nat := m.count false

/-- Marking an unmarked state lowers the number of unmarked states by one. -/
theorem unmarked_set {m : Marks} {i : Nat} (h : i < m.size) (hi : m[i] = false) :
    unmarked (m.set i true h) + 1 = unmarked m := by
  have hc : (m.set i true h).count false
      = m.count false - (if m[i] == false then 1 else 0)
        + (if (true == false) = true then 1 else 0) := Array.count_set h
  have hle : (if m[i] == false then 1 else 0) ≤ m.count false := Array.boole_getElem_le_count h
  rw [hi] at hc hle
  simp only [BEq.rfl, ite_true, Bool.true_beq, Bool.false_eq_true, ite_false,
    Nat.add_zero] at hc hle
  simp only [unmarked]
  omega

theorem unmarked_set_lt {m : Marks} {i : Nat} (h : i < m.size) (hi : m[i] = false) :
    unmarked (m.set i true h) < unmarked m := by
  have := unmarked_set h hi
  omega

end Marks

end TableGrep
