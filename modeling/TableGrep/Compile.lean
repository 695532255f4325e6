import TableGrep.Pattern.Parser
import TableGrep.Pattern.Build
import TableGrep.Table.Compact
import TableGrep.Table.Reader

/-!
# Compiling patterns into tables

`compile` checks the parentheses, reads the pattern, builds its table, checks the table and,
when asked, compacts it. The parenthesis check comes first, so an unbalanced pattern is refused
before its grammar is looked at.
-/
namespace TableGrep

/-- Why a pattern could not be turned into a table. -/
inductive CompileError where
  | grammar (e : SyntaxError)
  | unbalancedParens
  | internal (e : Compaction.Error)
  deriving DecidableEq, Repr

/-- The text of a compile error; an internal error ends with the table it stopped at. -/
def CompileError.message : CompileError → String
  | .grammar e => e.message
  | .unbalancedParens => "invalid regex: mismatched parentheses"
  | .internal e => "internal error: " ++ e.fault.detail ++ "\n" ++ e.table.render

/-- Options of compilation. -/
structure Config where
  /-- Compact the built table. -/
  compact : Bool := true
  deriving DecidableEq, Repr

/-- Compile a pattern into a table. A built table that still has an unresolved transition before
its last state, or that is not well formed once closed, is an internal error. -/
def compile (p : String) (config : Config) : Except CompileError Table := do
  let cs := p.toList
  if !Pattern.balanced cs then throw .unbalancedParens
  let r ← (Pattern.parse cs).mapError .grammar
  let body := r.body
  if let some i := body.firstOpen? (body.size - 1) then
    throw (.internal ⟨.unresolvedTransition i, body⟩)
  let t := body.close
  if let some d := t.defect? then throw (.internal ⟨.defect d, t⟩)
  if config.compact then t.compact.mapError .internal else pure t

end TableGrep
