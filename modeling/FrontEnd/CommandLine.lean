import FrontEnd.Build
import FrontEnd.Diagnostic.Excerpt

namespace FrontEnd.CommandLine

structure Invocation where
  file : Path
  config : Config
  deriving DecidableEq, Repr

inductive UsageError where
  | missingValue (option : String)
  | invalidLimit (value : String)
  | unexpectedArgument (arg : String)
  | noInputFile
  deriving DecidableEq, Repr

def UsageError.message : UsageError → String
  | .missingValue option => option ++ " needs a value"
  | .invalidLimit value => "invalid error limit `" ++ value ++ "`"
  | .unexpectedArgument arg => "unexpected argument `" ++ arg ++ "`"
  | .noInputFile => "no input file"

def usage : String :=
  "usage: candice <file> [--max-errors N] [--max-semantic-errors N]"

/-- A limit: decimal digits that write a 64-bit number, perhaps with a plus sign before them. -/
def limit? (s : String) : Option Nat :=
  let ds := match s.toList with
    | '+' :: cs => cs
    | cs => cs
  if ds.isEmpty || !ds.all Char.isDigit then none
  else some (Escape.numeral 10 ds) |>.filter (· < Word.limit)

def parseFrom (file? : Option Path) (config : Config) :
    List String → Except UsageError Invocation
  | [] =>
    match file? with
    | some file => .ok ⟨file, config⟩
    | none => .error .noInputFile
  | ["--max-errors"] => .error (.missingValue "--max-errors")
  | ["--max-semantic-errors"] => .error (.missingValue "--max-semantic-errors")
  | "--max-errors" :: value :: args =>
    match limit? value with
    | some n => parseFrom file? (config.withMaxParseErrors n) args
    | none => .error (.invalidLimit value)
  | "--max-semantic-errors" :: value :: args =>
    match limit? value with
    | some n => parseFrom file? (config.withMaxCheckErrors (some n)) args
    | none => .error (.invalidLimit value)
  | arg :: args =>
    if file?.isNone && !"--".toList.isPrefixOf arg.toList then parseFrom (some ⟨arg⟩) config args
    else .error (.unexpectedArgument arg)

def parse (args : List String) : Except UsageError Invocation :=
  parseFrom none .default args

structure Outcome where
  code : Nat
  out : String
  err : String
  deriving DecidableEq, Repr

def report (loader : Loader) (ds : List Diagnostic) : Except String String := do
  let texts ← Diagnostic.renderAll
    (ds.map fun d => (d, (loader.read ⟨d.position.file⟩).toOption.getD ""))
  return texts ++ toString ds.length ++ " error(s)\n"

/-- Checks a file: 0 without errors, 1 with errors or if it cannot be read, and 101 if the errors
cannot be printed to the end. -/
def check (loader : Loader) (i : Invocation) : Except Fault Outcome := do
  match loader.read i.file with
  | .error _ => return ⟨1, "", ""⟩
  | .ok source =>
    match (← Build.file source i.file (.start i.config loader)).1 with
    | .ok _ => return ⟨0, "", ""⟩
    | .error ds =>
      match report loader ds with
      | .ok out => return ⟨1, out, ""⟩
      | .error out => return ⟨101, out, ""⟩

def run (loader : Loader) (args : List String) : Except Fault Outcome :=
  match parse args with
  | .ok i => check loader i
  | .error e => .ok ⟨2, "", e.message ++ "\n" ++ usage ++ "\n"⟩

/-- The paths that a text mentions in import statements, and perhaps others: the first string
after each `import`. -/
def mentionedFrom (inImport : Bool) : List Token → List String
  | [] => []
  | t :: ts =>
    if t.kind = .kwImport then mentionedFrom true ts
    else if inImport ∧ t.kind = .string then t.value :: mentionedFrom false ts
    else mentionedFrom inImport ts

def mentioned (source : String) (path : Path) : List Path :=
  (mentionedFrom false (Cursor.ofSource source path.text).tokens).map fun p =>
    ((path.parent?.getD ⟨""⟩).join ⟨p⟩).normalize

end FrontEnd.CommandLine
