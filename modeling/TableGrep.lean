import TableGrep.Table.Basic
import TableGrep.Table.Defect
import TableGrep.Table.Compact
import TableGrep.Table.Find
import TableGrep.Text.Fields
import TableGrep.Text.Quoted
import TableGrep.Text.Utf8
import TableGrep.Table.Reader
import TableGrep.Pattern.Regex
import TableGrep.Pattern.Error
import TableGrep.Pattern.Parser
import TableGrep.Pattern.Build
import TableGrep.Pattern.Grammar
import TableGrep.Compile
import TableGrep.Search
import TableGrep.Tool.Outcome
import TableGrep.Tool.Recompile
import TableGrep.Tool.Research
import TableGrep.Main
import TableGrep.Proofs.Run
import TableGrep.Proofs.Find
import TableGrep.Proofs.Fragment
import TableGrep.Proofs.Shape
import TableGrep.Proofs.Layout
import TableGrep.Proofs.Parse
import TableGrep.Proofs.Relabel
import TableGrep.Proofs.Compaction
import TableGrep.Proofs.Contraction
import TableGrep.Proofs.Worklist
import TableGrep.Proofs.Rounds
import TableGrep.Proofs.Compile
import TableGrep.Proofs.CompactFind
import TableGrep.Proofs.SyntaxErrors
import TableGrep.Proofs.LineGrammar
import TableGrep.Proofs.TextForm
import TableGrep.Proofs.Idempotence
import TableGrep.Proofs.Expansion
import TableGrep.Proofs.SearchLines
import TableGrep.Proofs.StateCount
import TableGrep.Proofs.CompactOutcome
import TableGrep.Proofs.Chains
import TableGrep.Proofs.Convergence
