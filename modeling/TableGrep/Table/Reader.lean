import TableGrep.Table.Basic
import TableGrep.Table.Defect
import TableGrep.Text.Fields
import TableGrep.Text.Quoted

/-!
# The text form of a table

A table is written one line per state, `index,kind,next1,next2`, each ended by a newline. A
branch is written `BR`, the wildcard `WC`, and a literal as its character itself, so a comma
literal gives `i,,,n1,n2`. A target is its index, `-1` for acceptance or `-2` when unresolved.
The empty table is the empty text.

The text form is read line by line (`Text.lines`); one more trailing carriage return is dropped
from each line, and lines left empty are skipped, though they still count when lines are
numbered from 1.

A line has four fields separated by commas, `index,kind,next1,next2`, or five when the kind is a
comma literal (`index,,,next1,next2`). The kind is read before the index. The index is an unsigned
64-bit numeral and must be the number of states read so far. A target is a signed 64-bit
numeral: `-1` is acceptance, any value from 0 up names a state, anything else is refused.

Once every line is read, the table must be well formed; a defect is reported at the line of the
state it was found at.
-/

namespace TableGrep

/-! ## Writing -/

/-- The text of a target. -/
def Target.render : Target → String
  | .state i => toString i
  | .accept => "-1"
  | .unresolved => "-2"

/-- The text of a kind. -/
def Kind.render : Kind → String
  | .branch => "BR"
  | .wildcard => "WC"
  | .literal c => String.singleton c

/-- The line of state `s` at index `i`, with its newline. -/
def State.renderAt (i : Nat) (s : State) : String :=
  toString i ++ "," ++ s.kind.render ++ "," ++ s.next1.render ++ "," ++ s.next2.render ++ "\n"

/-- The text form of a table. -/
def Table.render (t : Table) : String :=
  String.join (t.states.toList.zipIdx.map fun (s, i) => s.renderAt i)

/-! ## Reading -/

/-- Why a line of a table text could not be read. -/
inductive TableFault where
  | fieldCount (count : Nat)
  | badIndex (text : String)
  | indexMismatch (expected found : Nat)
  | badKind (text : String)
  | badTarget (text : String)
  | defect (d : Defect)
  deriving DecidableEq, Repr

/-- A fault with the line it was found on, counted from 1, if it has one. -/
structure TableError where
  line : Option Nat
  fault : TableFault
  deriving DecidableEq, Repr

/-- The text of a table fault. -/
def TableFault.message : TableFault → String
  | .fieldCount n => "expected 4 or 5 fields, found " ++ toString n
  | .badIndex s => "invalid state index " ++ Text.quote s
  | .indexMismatch e f => "expected state " ++ toString e ++ ", found state " ++ toString f
  | .badKind s => "invalid state type " ++ Text.quote s
  | .badTarget s => "invalid transition " ++ Text.quote s
  | .defect d => d.message

/-- The text of a table error, with its line when it has one. -/
def TableError.message (e : TableError) : String :=
  match e.line with
  | some n => "malformed FSM table at line " ++ toString n ++ ": " ++ e.fault.message
  | none => "malformed FSM table: " ++ e.fault.message

/-- Read a kind: `BR`, `WC`, or a single character. -/
def Kind.read? (s : List Char) : Option Kind :=
  if s = ['B', 'R'] then some .branch
  else if s = ['W', 'C'] then some .wildcard
  else
    match s with
    | [c] => some (.literal c)
    | _ => none

/-- Read a target: `-1` is acceptance, a value from 0 up is a state. -/
def Target.read? (s : List Char) : Option Target :=
  match Text.readSigned? 64 s with
  | some (Int.ofNat n) => some (.state n)
  | some (-1) => some .accept
  | _ => none

/-- Cut a line at its commas into the index text, the kind and the two target texts: four fields,
or five for a comma literal. The kind is read here, before the index. -/
def State.readFields (line : List Char) :
    Except TableFault (List Char × Kind × List Char × List Char) :=
  match Text.split ',' line with
  | [i, k, n1, n2] =>
    match Kind.read? k with
    | some k => .ok (i, k, n1, n2)
    | none => .error (.badKind (String.ofList k))
  | [i, [], [], n1, n2] => .ok (i, .literal ',', n1, n2)
  | fields => .error (.fieldCount fields.length)

/-- Read one line of the text form, as state number `expected`. -/
def State.read (expected : Nat) (line : List Char) : Except TableFault State := do
  let (index, kind, n1, n2) ← State.readFields line
  let some found := Text.readUnsigned? 64 index | throw (.badIndex (String.ofList index))
  if found ≠ expected then throw (.indexMismatch expected found)
  let some next1 := Target.read? n1 | throw (.badTarget (String.ofList n1))
  let some next2 := Target.read? n2 | throw (.badTarget (String.ofList n2))
  pure ⟨kind, next1, next2⟩

/-- Read the numbered lines `n, n + 1, …`, adding each state and the number of its line. -/
def Table.readLines (n : Nat) (states : Array State) (lineOf : Array Nat) :
    List (List Char) → Except TableError (Array State × Array Nat)
  | [] => .ok (states, lineOf)
  | line :: rest =>
    let line := Text.trimReturn line
    if line.isEmpty then Table.readLines (n + 1) states lineOf rest
    else
      match State.read states.size line with
      | .error f => .error ⟨some n, f⟩
      | .ok s => Table.readLines (n + 1) (states.push s) (lineOf.push n) rest

/-- Read a table from its text form. -/
def Table.read (text : String) : Except TableError Table := do
  let (states, lineOf) ← Table.readLines 1 #[] #[] (Text.lines text.toList)
  let t : Table := ⟨states⟩
  match t.defect? with
  | none => pure t
  | some d => throw ⟨d.state?.bind (lineOf[·]?), .defect d⟩

end TableGrep
