import TableGrep.Table.Basic
import TableGrep.Table.Defect

/-!
# Compaction

A pass-through state is a branch whose two successors agree: it reads nothing and decides
nothing. Compaction routes every transition around such states, makes the real start state 0,
and keeps only the states reachable from it, renumbered in their old order.

It works in rounds. Each round

1. moves the start to index 0 when state 0 only passes control to a state `s`: states 0 and `s`
   trade places, and so do their indices in every transition;
2. flags the pass-through states other than state 0;
3. visits the unflagged states in index order, each seeing the rewrites of the ones before it.
   While a state's two successors agree and name a branch, it takes that branch's successors
   instead; then each successor is followed past flagged states along `next1`.

Rounds stop at the first that changes nothing; then the reachable states are kept. A table of
`n` states may take `n + 1` rounds and each walk `n` steps; one more is reported as divergence
or as a cycle of pass-through states. Reading a state that does not exist stops compaction too:
only tables whose transitions name missing states can do that.
-/
namespace TableGrep

namespace Compaction

/-- Why the bookkeeping of a table went wrong: why compaction stopped, or why a freshly built
table was not finished. -/
inductive Fault where
  /-- The table had no states. -/
  | empty
  /-- Rounds kept changing the table past the round limit. -/
  | diverged
  /-- Following pass-through states from this state went round in a cycle. -/
  | cycle (origin : Nat)
  /-- A kept state still leads to a pass-through state. -/
  | stranded (state next : Nat)
  /-- The kept states do not form a well-formed table. -/
  | defect (d : Defect)
  /-- A transition named a state that does not exist, and it was read. -/
  | missing (index : Nat)
  /-- A built table still had an unresolved transition at this state, before its last one. -/
  | unresolvedTransition (state : Nat)
  deriving DecidableEq, Repr

/-- The words for a fault. -/
def Fault.detail : Fault → String
  | .empty => Defect.empty.message
  | .diverged => "compression did not converge"
  | .cycle i => "cycle of pass-through states reached from state " ++ toString i
  | .stranded i j => "state " ++ toString i ++ " still refers to pass-through state " ++ toString j
  | .defect d => d.message
  | .missing i => "state " ++ toString i ++ " does not exist"
  | .unresolvedTransition i => "unresolved transition at state " ++ toString i

/-- A fault with the table as it stood when compaction stopped. -/
structure Error where
  fault : Fault
  table : Table
  deriving DecidableEq, Repr

/-- Why a walk along transitions stopped short. -/
inductive Snag where
  /-- It took more steps than the table has states. -/
  | loop
  /-- It read a state that does not exist. -/
  | missing (index : Nat)
  deriving DecidableEq, Repr

/-- Pass-through flags: state 0 is never flagged, since it is where every run begins. -/
def flags (t : Table) : Array Bool :=
  t.states.mapIdx fun i s => i != 0 && s.isPassThrough

/-- Follow `target` past flagged states along `next1`, with `fuel` steps to spare. -/
def skip (t : Table) (flagged : Array Bool) : Nat → Target → Except Snag Target
  | fuel, .state i =>
    match flagged[i]? with
    | none => .error (.missing i)
    | some false => .ok (.state i)
    | some true =>
      match fuel, t.get? i with
      | 0, _ => .error .loop
      | _, none => .error (.missing i)
      | fuel + 1, some s => skip t flagged fuel s.next1
  | _, target => .ok target

/-- While the two successors of state `id` agree and name another branch, take that branch's
successors instead, with `fuel` steps to spare. -/
def chase (t : Table) (id : Nat) : Nat → Target → Target → Except Snag (Target × Target)
  | fuel, n1, n2 =>
    if n1 = n2 then
      match n1 with
      | .state next =>
        if next = id then .ok (n1, n2)
        else
          match t.get? next with
          | none => .error (.missing next)
          | some s =>
            if s.kind.isBranch then
              match fuel with
              | 0 => .error .loop
              | fuel + 1 => chase t id fuel s.next1 s.next2
            else .ok (n1, n2)
      | _ => .ok (n1, n2)
    else .ok (n1, n2)

/-- The new successors of a state `s` at index `id`. -/
def redirect (t : Table) (flagged : Array Bool) (id : Nat) (s : State) :
    Except Snag (Target × Target) := do
  let (n1, n2) ← chase t id t.size s.next1 s.next2
  let a ← skip t flagged t.size n1
  let b ← skip t flagged t.size n2
  pure (a, b)

/-- Make the state that state 0 passes control to the new state 0, trading the two indices. -/
def recenter (t : Table) : Except Error (Table × Bool) :=
  match t.get? 0 with
  | some e =>
    match e.isPassThrough, e.next1 with
    | true, .state s =>
      if s = 0 then .ok (t, false)
      else if s < t.size then
        let trade : Nat → Target := fun i =>
          if i = s then .state 0 else if i = 0 then .state s else .state i
        .ok (⟨(t.states.swapIfInBounds 0 s).map (·.relabel trade)⟩, true)
      else .error ⟨.missing s, t⟩
    | _, _ => .ok (t, false)
  | none => .ok (t, false)

/-- Redirect the unflagged states among `ids`, in order, each seeing the rewrites before it;
the flag says whether any state changed. -/
def redirectAll (flagged : Array Bool) :
    List Nat → Table × Bool → Except Error (Table × Bool)
  | [], acc => .ok acc
  | id :: ids, (t, changed) =>
    match flagged[id]?, t.get? id with
    | some false, some s =>
      match redirect t flagged id s with
      | .error .loop => .error ⟨.cycle id, t⟩
      | .error (.missing i) => .error ⟨.missing i, t⟩
      | .ok (a, b) =>
        if s.next1 = a ∧ s.next2 = b then redirectAll flagged ids (t, changed)
        else redirectAll flagged ids (⟨t.states.set! id { s with next1 := a, next2 := b }⟩, true)
    | _, _ => redirectAll flagged ids (t, changed)

/-- One round: recentre, flag, redirect. Gives the table, its flags, and whether it changed. -/
def round (t : Table) : Except Error (Table × Array Bool × Bool) := do
  let (t, moved) ← recenter t
  let flagged := flags t
  let (t, changed) ← redirectAll flagged (List.range t.size) (t, moved)
  pure (t, flagged, changed)

/-- Rounds until one changes nothing, at most `fuel` of them. -/
def rounds : Nat → Table → Except Error (Table × Array Bool)
  | 0, t => .error ⟨.diverged, t⟩
  | fuel + 1, t => do
    let (t', flagged, changed) ← round t
    if changed then rounds fuel t' else pure (t', flagged)

/-- A marking in progress: marks by index, and the stack of states still to visit, the last
pushed first. -/
abbrev Marking := Marks × List Nat

/-- Twice the unmarked states plus the stack: a visit pops one state, and each state it pushes
is marked at the same time, so every visit lowers the weight. -/
def weight (m : Marking) : Nat := 2 * m.1.unmarked + m.2.length

/-- Mark `next` as reached from `id`, pushing it when it is new; a flagged `next` is a fault. -/
def reach (t : Table) (flagged : Array Bool) (id : Nat) (m : Marking) (next : Nat) :
    Except Error Marking :=
  match flagged[next]? with
  | none => .error ⟨.missing next, t⟩
  | some true => .error ⟨.stranded id next, t⟩
  | some false =>
    if h : next < m.1.size then
      if m.1[next] then .ok m else .ok (m.1.set next true h, next :: m.2)
    else .error ⟨.missing next, t⟩

theorem weight_reach {t : Table} {flagged : Array Bool} {id next : Nat} {m m' : Marking}
    (h : reach t flagged id m next = .ok m') : weight m' ≤ weight m := by
  unfold reach at h
  split at h
  · cases h
  · cases h
  · split at h
    · rename_i hn
      split at h
      · cases h; exact Nat.le_refl _
      · rename_i hf
        cases h
        have := Marks.unmarked_set hn (by simpa using hf)
        simp only [weight, List.length_cons]
        omega
    · cases h

/-- Mark each of `nexts` as reached from `id`, in order. -/
def reachAll (t : Table) (flagged : Array Bool) (id : Nat) :
    List Nat → Marking → Except Error Marking
  | [], m => .ok m
  | next :: rest, m =>
    match reach t flagged id m next with
    | .error e => .error e
    | .ok m' => reachAll t flagged id rest m'

theorem weight_reachAll {t : Table} {flagged : Array Bool} {id : Nat} :
    ∀ {nexts : List Nat} {m m' : Marking}, reachAll t flagged id nexts m = .ok m' →
      weight m' ≤ weight m
  | [], _, _, h => by cases h; exact Nat.le_refl _
  | next :: rest, m, m', h => by
    unfold reachAll at h
    split at h
    · cases h
    · rename_i m'' hr
      exact Nat.le_trans (weight_reachAll h) (weight_reach hr)

/-- The indices of the states that state `id` leads to, `next1` first. -/
def nextIndices (t : Table) (id : Nat) : List Nat :=
  ((t.get? id).map fun s => s.successors.filterMap Target.index?).getD []

/-- Depth-first marking from the stack, the last pushed state first. -/
def markFrom (t : Table) (flagged : Array Bool) (seen : Marks) :
    List Nat → Except Error Marks
  | [] => .ok seen
  | id :: stack =>
    match _ : reachAll t flagged id (nextIndices t id) (seen, stack) with
    | .error e => .error e
    | .ok (seen', stack') => markFrom t flagged seen' stack'
termination_by stack => weight (seen, stack)
decreasing_by
  have hw := weight_reachAll ‹reachAll t flagged id (nextIndices t id) (seen, stack) = _›
  simp only [weight, List.length_cons] at hw ⊢
  omega

/-- The states reachable from state 0, as marks by index. -/
def reachable (t : Table) (flagged : Array Bool) : Except Error Marks :=
  markFrom t flagged ((Marks.none t.size).set! 0 true) [0]

/-- The new index of state `i` when only the marked states are kept: the number of marked
states before it, or none when it is not kept. -/
def newIndex (seen : Marks) (i : Nat) : Option Nat :=
  if seen[i]? = some true then some ((seen.toList.take i).count true) else none

/-- Keep the marked states in their order and renumber their transitions; a transition to a
state not kept becomes unresolved. -/
def keep (t : Table) (seen : Marks) : Table :=
  let kept := (t.states.toList.zip seen.toList).filterMap fun (s, k) => if k then some s else none
  let move : Nat → Target := fun i => ((newIndex seen i).map .state).getD .unresolved
  ⟨(kept.map (·.relabel move)).toArray⟩

/-- Keep what is reachable from state 0, renumbered, and check the result. -/
def renumber (t : Table) (flagged : Array Bool) : Except Error Table := do
  let seen ← reachable t flagged
  let t' := keep t seen
  match t'.defect? with
  | some d => .error ⟨.defect d, t'⟩
  | none => pure t'

end Compaction

open Compaction in
/-- Compact a table: route transitions around pass-through states, move the start to index 0
and keep the reachable states. -/
def Table.compact (t : Table) : Except Compaction.Error Table :=
  if t.size = 0 then .error ⟨.empty, t⟩
  else do
    let (t', flagged) ← rounds (t.size + 1) t
    renumber t' flagged

end TableGrep
