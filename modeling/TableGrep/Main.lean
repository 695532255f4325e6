import TableGrep.Tool.Recompile
import TableGrep.Tool.Research

/-!
# Command line

`recompile [OPTIONS] <REGEX>` and `research <FILE>`, named by the first argument. This layer
only moves bytes between the tools and the operating system.
-/
namespace TableGrep.Cli

open TableGrep.Tool

/-- Write a run's output and give its exit code. -/
def emit (o : Outcome) : IO UInt32 := do
  let out ← IO.getStdout
  out.write (ByteArray.mk o.stdout.toArray)
  out.flush
  let err ← IO.getStderr
  err.putStr o.stderr
  err.flush
  pure o.exit.toUInt32

/-- The operating system's words for why a file could not be read. -/
def reason : IO.Error → String
  | .noFileOrDirectory .. => "No such file or directory (os error 2)"
  | .permissionDenied .. => "Permission denied (os error 13)"
  | .inappropriateType .. => "Is a directory (os error 21)"
  | e => toString e

/-- Run `research` once its command line has named the file. -/
def research (file : String) : IO UInt32 := do
  let table ← (← IO.getStdin).readToEnd
  match Research.load table with
  | .error o => emit o
  | .ok t =>
    try
      let bytes ← IO.FS.readBinFile file
      emit (Research.search t bytes.toList)
    catch e =>
      emit (Research.unreadable file (reason e))

/-- Run the tool the first argument names. -/
def run (args : List String) : IO UInt32 :=
  match args with
  | "recompile" :: rest => emit (Recompile.run rest)
  | "research" :: rest =>
    match Research.start rest with
    | .error o => emit o
    | .ok file => research file
  | _ => emit ⟨2, [], "usage: recompile [OPTIONS] <REGEX> | research <FILE>\n"⟩

end TableGrep.Cli

def main (args : List String) : IO UInt32 := TableGrep.Cli.run args
