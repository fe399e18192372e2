import FrontEnd.Path
import FrontEnd.Table
import FrontEnd.Ty.Basic

namespace FrontEnd

structure Config where
  /-- How many errors are recorded in a unit before reading it is given up. -/
  maxParseErrors : Nat
  /-- How many errors are recorded when a unit is checked; `none` is all of them. -/
  maxCheckErrors : Option Nat
  deriving DecidableEq, Repr

namespace Config

def default : Config :=
  ⟨10, none⟩

def withMaxParseErrors (c : Config) (n : Nat) : Config :=
  { c with maxParseErrors := max 1 n }

def withMaxCheckErrors (c : Config) (n : Option Nat) : Config :=
  { c with maxCheckErrors := n }

def accepts (c : Config) (recorded : Nat) : Bool :=
  match c.maxCheckErrors with
  | some n => recorded < n
  | none => true

end Config

/-- Where the texts of imported units come from: reading a path gives a text or the reason why
there is none. No more than `size` paths have texts. -/
structure Loader where
  read : Path → Except String String
  size : Nat

namespace Loader

/-- The texts by their normalized paths; of two texts for the same path the later one counts. -/
def table (files : List (String × String)) : List (String × String) :=
  files.foldl (fun t f => Table.insert t (Path.normalize ⟨f.1⟩).text f.2) []

/-- Texts kept in memory. A path is normalized before it is looked up. -/
def ofFiles (files : List (String × String)) : Loader :=
  let table := table files
  { read := fun p =>
      match table.lookup p.normalize.text with
      | some source => .ok source
      | none => .error "no such file"
    size := table.length }

end Loader

structure Session where
  config : Config
  loader : Loader
  nextId : Nat
  /-- The files that are being checked, the innermost import first. -/
  importing : List Path
  /-- The types declared at the top of the units, by qualified name. -/
  registry : List (String × Ty)

namespace Session

def start (config : Config) (loader : Loader) : Session :=
  ⟨config, loader, 0, [], []⟩

def freshId (s : Session) : Nat × Session :=
  (s.nextId, { s with nextId := s.nextId + 1 })

def chain (s : Session) : List Path :=
  s.importing.reverse

def begin? (s : Session) (p : Path) : Option Session :=
  if s.importing.any p.same then none else some { s with importing := p :: s.importing }

def finish (s : Session) (p : Path) : Session :=
  { s with importing := s.importing.eraseP p.same }

def register (s : Session) (name : String) (ty : Ty) : Session :=
  { s with registry := Table.insert s.registry name ty }

def registered? (s : Session) (name : String) : Option Ty :=
  s.registry.lookup name

end Session

end FrontEnd
