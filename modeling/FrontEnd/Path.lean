import FrontEnd.Text.Lines

namespace FrontEnd

structure Path where
  text : String
  deriving DecidableEq, Repr

namespace Path

inductive Component where
  | root
  | current
  | parent
  | name (s : String)
  deriving DecidableEq, Repr

def isAbsolute (p : Path) : Bool :=
  p.text.toList.head? == some '/'

/-- The component that a piece between slashes stands for, other than at the start of a path. -/
def component? (piece : List Char) : Option Component :=
  if piece = [] ∨ piece = ['.'] then none
  else if piece = ['.', '.'] then some .parent
  else some (.name (String.ofList piece))

def components (p : Path) : List Component :=
  match p.text.toList with
  | '/' :: cs => .root :: (Text.split '/' cs).filterMap component?
  | cs =>
    match Text.split '/' cs with
    | ['.'] :: pieces => .current :: pieces.filterMap component?
    | pieces => pieces.filterMap component?

def same (p q : Path) : Bool :=
  p.components == q.components

def Component.text : Component → String
  | .root => ""
  | .current => "."
  | .parent => ".."
  | .name s => s

def ofComponents : List Component → Path
  | [.root] => ⟨"/"⟩
  | cs => ⟨"/".intercalate (cs.map Component.text)⟩

/-- Takes one more component onto a normal path, given with its last component first: a name
followed by the parent directory is nothing, and the root is its own parent. -/
def normalStep (stack : List Component) : Component → List Component
  | .current => stack
  | .parent =>
    match stack with
    | .name _ :: rest => rest
    | _ => if .root ∈ stack then stack else .parent :: stack
  | c => c :: stack

/-- The path without current directories and without parents that follow a name. This is a
matter of text alone: no directory is looked at. -/
def normalize (p : Path) : Path :=
  ofComponents (p.components.foldl normalStep []).reverse

def join (dir p : Path) : Path :=
  if p.isAbsolute then p
  else
    match dir.text.toList.getLast? with
    | none => p
    | some '/' => ⟨dir.text ++ p.text⟩
    | some _ => ⟨dir.text ++ "/" ++ p.text⟩

def dropEmptyEnd (pieces : List (List Char)) : List (List Char) :=
  (pieces.reverse.dropWhile fun piece => (component? piece).isNone).reverse

def joinPieces (pieces : List (List Char)) : String :=
  "/".intercalate (pieces.map String.ofList)

/-- The path up to its last component, as it is written. The empty path and the root have none. -/
def parent? (p : Path) : Option Path :=
  match p.text.toList with
  | '/' :: cs =>
    match dropEmptyEnd (Text.split '/' cs) with
    | [] => none
    | pieces => some ⟨"/" ++ joinPieces (dropEmptyEnd pieces.dropLast)⟩
  | cs =>
    match Text.split '/' cs with
    | ['.'] :: pieces =>
      match dropEmptyEnd pieces with
      | [] => some ⟨""⟩
      | pieces => some ⟨joinPieces (['.'] :: dropEmptyEnd pieces.dropLast)⟩
    | pieces =>
      match dropEmptyEnd pieces with
      | [] => none
      | pieces => some ⟨joinPieces (dropEmptyEnd pieces.dropLast)⟩

end Path

end FrontEnd
