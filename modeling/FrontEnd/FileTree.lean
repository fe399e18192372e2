import FrontEnd.Path
import FrontEnd.Session

namespace FrontEnd

structure FileTree where
  /-- The files by the names of the directories around them and their own. -/
  files : List (List String × String)

namespace FileTree

inductive ReadError where
  | notFound
  | notDirectory
  | isDirectory
  | nameTooLong
  | zeroByte
  deriving DecidableEq, Repr

def ReadError.message : ReadError → String
  | .notFound => "No such file or directory (os error 2)"
  | .notDirectory => "Not a directory (os error 20)"
  | .isDirectory => "Is a directory (os error 21)"
  | .nameTooLong => "File name too long (os error 36)"
  | .zeroByte => "file name contained an unexpected NUL byte"

def ReadError.ofCode? : Nat → Option ReadError
  | 2 => some .notFound
  | 20 => some .notDirectory
  | 21 => some .isDirectory
  | 36 => some .nameTooLong
  | _ => none

inductive Node where
  | directory (names : List String)
  | file (source : String)
  /-- A directory above the tree. Nothing is known to be in it. -/
  | outside
  deriving DecidableEq, Repr

/-- The tree with these files under relative paths; directories are there as files need them, and
of two files under the same path the later one counts. -/
def ofFiles (files : List (String × String)) : FileTree :=
  ⟨files.reverse.map fun f =>
    ((Path.normalize ⟨f.1⟩).components.filterMap
      (fun | .name s => some s | _ => none), f.2)⟩

def node? (t : FileTree) (names : List String) : Option Node :=
  match t.files.lookup names with
  | some source => some (.file source)
  | none =>
    if names = [] ∨ t.files.any (fun f => names.isPrefixOf f.1) then some (.directory names)
    else none

def nameLimit : Nat :=
  255

def pathLimit : Nat :=
  4095

def Node.parent : Node → Node
  | .directory [] => .outside
  | .directory names => .directory names.dropLast
  | _ => .outside

def child? (t : FileTree) : Node → String → Option Node
  | .directory names, name => t.node? (names ++ [name])
  | _, _ => none

/-- Goes on from a node by the next piece of a path. A name that is too long is not looked for. -/
def walk (t : FileTree) : Node → List Char → Except ReadError Node
  | .file _, _ => .error .notDirectory
  | node, piece =>
    match Path.component? piece with
    | none => .ok node
    | some .parent => .ok node.parent
    | some c =>
      if nameLimit < c.text.utf8ByteSize then .error .nameTooLong
      else
        match t.child? node c.text with
        | some n => .ok n
        | none => .error .notFound

def read (t : FileTree) (p : Path) : Except ReadError String :=
  if p.text.toList.contains '\x00' then .error .zeroByte
  else if p.text.isEmpty then .error .notFound
  else if pathLimit < p.text.utf8ByteSize then .error .nameTooLong
  else
    let start := if p.isAbsolute then .outside else .directory []
    match (Text.split '/' p.text.toList).foldlM t.walk start with
    | .ok (.file source) => .ok source
    | .ok _ => .error .isDirectory
    | .error e => .error e

def loader (t : FileTree) : Loader where
  read p :=
    match t.read p with
    | .ok source => .ok source
    | .error e => .error e.message
  size := t.files.length

end FileTree

end FrontEnd
