import TableGrep.Table.Reader
import TableGrep.Search
import TableGrep.Tool.Outcome

/-!
# The `research` tool

`research <FILE>` reads a table in the text form from standard input and writes the lines of
`FILE` that it matches. The table is read before the file: a table that cannot be read gives exit
code 1 and its error on standard error. When some line matched before any character of it was
read, a note says so on standard error.
-/
namespace TableGrep.Tool.Research

/-- What a read command line asks for. -/
inductive Request where
  | search (file : String)
  | help (long : Bool)
  | version
  deriving DecidableEq, Repr

def usage : String := "research <FILE>"

/-- Read a command line; `plainOnly` is set after `--`. -/
def readArgs (file : Option String) (plainOnly : Bool) : List String → Except UsageError Request
  | [] =>
    match file with
    | some f => .ok (.search f)
    | none => .error (.missing "<FILE>")
  | a :: rest =>
    let take : Except UsageError Request :=
      if file.isNone then readArgs (some a) plainOnly rest else .error (.unexpected a)
    if plainOnly then take
    else
      match a.toList with
      | ['-', '-'] => readArgs file true rest
      | '-' :: '-' :: body =>
        match splitLong body with
        | ("help", none) => .ok (.help true)
        | ("version", none) => .ok (.version)
        | (name, some v) =>
          if name = "help" ∨ name = "version" then .error (.unneededValue ("--" ++ name) v)
          else .error (.unexpected ("--" ++ name))
        | (name, none) => .error (.unexpected ("--" ++ name))
      | '-' :: c :: _ =>
        if c = 'h' then .ok (.help false)
        else if c = 'V' then .ok .version
        else .error (.unexpected ("-" ++ String.singleton c))
      | _ => take

def shortHelp : String :=
  "Prints the lines of a file matched by an FSM table\n\nUsage: research <FILE>\n\n" ++
  "Arguments:\n  <FILE>  Path to the text file to search\n\nOptions:\n" ++
  "  -h, --help     Print help (see more with '--help')\n  -V, --version  Print version\n"

/-- The long description, which ends in a line break of its own; the help text still puts a
blank line after it, so two line breaks stand between it and the usage line. -/
def description : String :=
  "Prints the lines of a file matched by an FSM table\n\n" ++
  "The table is read from standard input, as written by `recompile`:\n\n" ++
  "    recompile 'ab*c' | research notes.txt\n"

def longHelp : String :=
  description ++ "\n\nUsage: research <FILE>\n\nArguments:\n" ++
  "  <FILE>\n          Path to the text file to search\n\nOptions:\n  -h, --help\n" ++
  "          Print help (see a summary with '-h')\n\n  -V, --version\n          Print version\n"

/-- What a command line leads to: the file to search, or a run that is already over. -/
def start (args : List String) : Except Outcome String :=
  match readArgs none false args with
  | .error e => .error (Outcome.refused usage e)
  | .ok (.help long) => .error (Outcome.printed (if long then longHelp else shortHelp))
  | .ok .version => .error (Outcome.printed versionLine)
  | .ok (.search file) => .ok file

/-- Read the table from the text given on standard input. -/
def load (table : String) : Except Outcome Table :=
  match Table.read table with
  | .error e => .error ⟨1, [], "error: " ++ e.message ++ "\n"⟩
  | .ok t => .ok t

/-- The file to search could not be read, for the given reason. -/
def unreadable (file reason : String) : Outcome :=
  ⟨1, [], "error: could not read file `" ++ file ++ "`: " ++ reason ++ "\n"⟩

/-- Search `haystack` with a table that has been read. -/
def search (t : Table) (haystack : List UInt8) : Outcome :=
  let (out, summary) := t.search haystack
  ⟨0, out, if summary.matchedWithoutChar then "regex matched without a character match\n" else ""⟩

/-- Search `haystack` with the table read from `table`. -/
def run (table : String) (haystack : List UInt8) : Outcome :=
  match load table with
  | .error o => o
  | .ok t => search t haystack

end TableGrep.Tool.Research
