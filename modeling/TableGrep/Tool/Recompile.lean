import TableGrep.Compile
import TableGrep.Tool.Outcome

/-!
# The `recompile` tool

`recompile [OPTIONS] <REGEX>` compiles a pattern and writes its table in the text form. The
pattern may itself start with `-`: while it is still missing, an argument that is not made only
of known flags is taken as the pattern. `-c` or `--no-compress` leaves the table uncompacted and
may be given once. Nothing is written to standard output unless the whole table was built; a
pattern that does not compile gives exit code 1 and the error on standard error.
-/
namespace TableGrep.Tool.Recompile

/-- What a read command line asks for. -/
inductive Request where
  | compile (pattern : String) (compact : Bool)
  | help (long : Bool)
  | version
  deriving DecidableEq, Repr

/-- A command line read so far. -/
structure Reading where
  pattern : Option String := none
  noCompress : Bool := false
  /-- After `--`, every argument is taken as it is. -/
  plainOnly : Bool := false
  deriving DecidableEq, Repr

/-- Reading one argument either goes on or settles the request. -/
inductive Step where
  | next (r : Reading)
  | done (q : Request)

def usage : String := "recompile [OPTIONS] <REGEX>"

/-- The short flags the tool knows. -/
def isShortFlag (c : Char) : Bool := c == 'c' || c == 'h' || c == 'V'

/-- Set the no-compress flag, which may be given once. -/
def setNoCompress (r : Reading) : Except UsageError Reading :=
  if r.noCompress then .error (.repeated "--no-compress") else .ok { r with noCompress := true }

/-- Take `a` as the pattern, if the pattern is still missing. -/
def takePattern (r : Reading) (a : String) : Except UsageError Reading :=
  if r.pattern.isNone then .ok { r with pattern := some a } else .error (.unexpected a)

/-- Read a cluster of short flags. -/
def readShort (r : Reading) : List Char → Except UsageError Step
  | [] => .ok (.next r)
  | c :: cs =>
    if c = 'c' then do readShort (← setNoCompress r) cs
    else if c = 'h' then .ok (.done (.help false))
    else if c = 'V' then .ok (.done .version)
    else .error (.unexpected ("-" ++ String.singleton c))

/-- Read a long option `--name` or `--name=value`. -/
def readLong (r : Reading) (a : String) (body : List Char) : Except UsageError Step :=
  match splitLong body with
  | ("no-compress", none) => return .next (← setNoCompress r)
  | ("help", none) => .ok (.done (.help true))
  | ("version", none) => .ok (.done .version)
  | (name, some v) =>
    if name = "no-compress" ∨ name = "help" ∨ name = "version" then
      .error (.unneededValue ("--" ++ name) v)
    else if r.pattern.isNone then .ok (.next { r with pattern := some a })
    else .error (.unexpected ("--" ++ name))
  | (name, none) =>
    if r.pattern.isNone then .ok (.next { r with pattern := some a })
    else .error (.unexpected ("--" ++ name))

/-- Read one argument. -/
def readArg (r : Reading) (a : String) : Except UsageError Step :=
  if r.plainOnly then .next <$> takePattern r a
  else
    match a.toList with
    | ['-', '-'] => .ok (.next { r with plainOnly := true })
    | '-' :: '-' :: body => readLong r a body
    | '-' :: c :: cs =>
      if r.pattern.isNone && (c :: cs).any (!isShortFlag ·) then .next <$> takePattern r a
      else readShort r (c :: cs)
    | _ => .next <$> takePattern r a

/-- Read a command line. -/
def readArgs (r : Reading) : List String → Except UsageError Request
  | [] =>
    match r.pattern with
    | some p => .ok (.compile p !r.noCompress)
    | none => .error (.missing "<REGEX>")
  | a :: rest => do
    match ← readArg r a with
    | .next r => readArgs r rest
    | .done q => pure q

def shortHelp : String :=
  "Compiles a regular expression into an FSM table\n\nUsage: recompile [OPTIONS] <REGEX>\n\n" ++
  "Arguments:\n  <REGEX>  The regular expression to compile\n\nOptions:\n" ++
  "  -c, --no-compress  Disable FSM compression\n" ++
  "  -h, --help         Print help (see more with '--help')\n" ++
  "  -V, --version      Print version\n"

/-- The long description, which ends in a line break of its own; the help text still puts a
blank line after it, so two line breaks stand between it and the usage line. -/
def description : String :=
  "Compiles a regular expression into an FSM table\n\n" ++
  "The table is written to standard output, one state per line, in the form\n" ++
  "`index,type,next1,next2`. Pipe it into `research` to search a file.\n"

def longHelp : String :=
  description ++ "\n\n" ++
  "Usage: recompile [OPTIONS] <REGEX>\n\nArguments:\n  <REGEX>\n" ++
  "          The regular expression to compile\n\nOptions:\n  -c, --no-compress\n" ++
  "          Disable FSM compression\n\n  -h, --help\n" ++
  "          Print help (see a summary with '-h')\n\n  -V, --version\n" ++
  "          Print version\n"

/-- Run the tool on its arguments. -/
def run (args : List String) : Outcome :=
  match readArgs {} args with
  | .error e => Outcome.refused usage e
  | .ok (.help long) => Outcome.printed (if long then longHelp else shortHelp)
  | .ok .version => Outcome.printed versionLine
  | .ok (.compile p compact) =>
    match compile p { compact := compact } with
    | .ok t => ⟨0, t.render.toUTF8.toList, ""⟩
    | .error e => ⟨1, [], "error: could not compile `" ++ p ++ "`: " ++ e.message ++ "\n"⟩

end TableGrep.Tool.Recompile
