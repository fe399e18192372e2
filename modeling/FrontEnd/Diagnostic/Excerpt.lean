import FrontEnd.Diagnostic.Basic
import FrontEnd.Text.Blank
import FrontEnd.Text.Lines

namespace FrontEnd.Diagnostic

def isIndent (c : Char) : Bool :=
  c == ' ' || c == '\t'

/-- The width of the mark: the column, less the indentation that is not shown. -/
def markWidth (column : Nat) (line : List Char) : Nat :=
  max 1 (column - (line.takeWhile isIndent).length)

def mark (width : Nat) : String :=
  String.ofList (List.replicate (width - 1) '-' ++ ['^'])

def maxMarkWidth : Nat :=
  65535

def ruler (position : Position) : String :=
  String.ofList (List.replicate ((toString position.line).length + 1) ' ' ++ ['|'])

def excerpt (position : Position) (line : List Char) : String :=
  let shown := Text.dropLastWhile Text.isBlank (line.dropWhile isIndent)
  ruler position ++ "\n" ++ toString position.line ++ " | " ++ String.ofList shown ++ "\n"

def heading (d : Diagnostic) : String :=
  "Error: " ++ d.cause.name ++ ": " ++ d.text ++
    (match d.cause.tip? with | some tip => " (" ++ tip ++ ")" | none => "") ++ "\n" ++
    "-> " ++ d.position.file ++ "\n"

/-- What is printed for a diagnostic about that source. A mark that is too wide ends the printing:
the error is what was printed before it. -/
def render (d : Diagnostic) (source : String) : Except String String :=
  match Text.line? source d.position.line with
  | none => .ok d.heading
  | some line =>
    let above := d.heading ++ excerpt d.position line.toList
    let width := markWidth d.position.column line.toList
    if width ≤ maxMarkWidth then .ok (above ++ ruler d.position ++ " " ++ mark width ++ "\n")
    else .error above

def renderAll : List (Diagnostic × String) → Except String String
  | [] => .ok ""
  | (d, source) :: ds =>
    match d.render source with
    | .error printed => .error printed
    | .ok text =>
      match renderAll ds with
      | .ok texts => .ok (text ++ texts)
      | .error printed => .error (text ++ printed)

end FrontEnd.Diagnostic
