/-!
# What a run of a tool gives back

A tool run ends with an exit code and what it wrote to standard output and standard error: 0 on
success, 1 when its input could not be used, 2 when its command line was refused.

Command lines follow the usual conventions: `--name` and `-n` options, clusters of short flags
(`-ch`), `--` to end the options, and `-` alone as an ordinary argument.
-/
namespace TableGrep.Tool

/-- The exit code, standard output and standard error of a run. -/
structure Outcome where
  exit : Nat
  stdout : List UInt8
  stderr : String
  deriving DecidableEq, Repr

/-- Why a command line was refused. -/
inductive UsageError where
  /-- An argument that fits nowhere. -/
  | unexpected (arg : String)
  /-- A flag given more than once. -/
  | repeated (flag : String)
  /-- A value attached to a flag that takes none. -/
  | unneededValue (flag value : String)
  /-- A required argument that was not given. -/
  | missing (name : String)
  deriving DecidableEq, Repr

/-- The text of a usage error, for a command whose usage line is `usage`. -/
def UsageError.message (usage : String) : UsageError → String
  | .unexpected a => "error: unexpected argument '" ++ a ++ "' found\n\nUsage: " ++ usage ++
      "\n\nFor more information, try '--help'.\n"
  | .repeated f => "error: the argument '" ++ f ++ "' cannot be used multiple times\n\nUsage: " ++
      usage ++ "\n\nFor more information, try '--help'.\n"
  | .unneededValue f v => "error: unexpected value '" ++ v ++ "' for '" ++ f ++
      "' found; no more were expected\n\nUsage: " ++ usage ++
      "\n\nFor more information, try '--help'.\n"
  | .missing n => "error: the following required arguments were not provided:\n  " ++ n ++
      "\n\nUsage: " ++ usage ++ "\n\nFor more information, try '--help'.\n"

/-- A refused command line: exit code 2 and the error on standard error. -/
def Outcome.refused (usage : String) (e : UsageError) : Outcome := ⟨2, [], e.message usage⟩

/-- A run that only prints `text`, such as help or the version. -/
def Outcome.printed (text : String) : Outcome := ⟨0, text.toUTF8.toList, ""⟩

/-- The version line both tools print: the name and version of the package they belong to,
whichever tool prints it. -/
def versionLine : String := "regrep 0.1.0\n"

/-- A long option split at its first `=`: the name and the attached value, if any. -/
def splitLong (body : List Char) : String × Option String :=
  match body.span (· != '=') with
  | (name, []) => (String.ofList name, none)
  | (name, _ :: value) => (String.ofList name, some (String.ofList value))

end TableGrep.Tool
