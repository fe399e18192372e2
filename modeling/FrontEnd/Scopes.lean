namespace FrontEnd

inductive Scopes.Entry (α : Type) where
  | frame
  | binding (name : String) (value : α)
  deriving DecidableEq, Repr

structure Scopes (α : Type) where
  /-- The entries, the latest first. -/
  entries : List (Scopes.Entry α)
  deriving DecidableEq, Repr

namespace Scopes

variable {α : Type}

def empty : Scopes α :=
  ⟨[]⟩

def frames : List (Entry α) → Nat
  | [] => 0
  | .frame :: es => frames es + 1
  | .binding _ _ :: es => frames es

def depth (s : Scopes α) : Nat :=
  frames s.entries

def find? (name : String) : List (Entry α) → Option (α × Nat)
  | [] => none
  | .frame :: es => find? name es
  | .binding n v :: es => if n = name then some (v, frames es) else find? name es

def get? (s : Scopes α) (name : String) : Option α :=
  (find? name s.entries).map (·.1)

def depthOf? (s : Scopes α) (name : String) : Option Nat :=
  (find? name s.entries).map (·.2)

def values (s : Scopes α) : List α :=
  s.entries.filterMap fun
    | .frame => none
    | .binding _ v => some v

def contains (s : Scopes α) (name : String) : Bool :=
  (s.get? name).isSome

def add (s : Scopes α) (name : String) (value : α) : Scopes α :=
  ⟨.binding name value :: s.entries⟩

def enter (s : Scopes α) : Scopes α :=
  ⟨.frame :: s.entries⟩

/-- What is below the topmost mark. -/
def belowFrame? : List (Entry α) → Option (List (Entry α))
  | [] => none
  | .frame :: es => some es
  | .binding _ _ :: es => belowFrame? es

/-- Leaves the innermost scope. In the outermost scope that is an error, and no binding is left. -/
def leave (s : Scopes α) : Except (Scopes α) (Scopes α) :=
  match belowFrame? s.entries with
  | some es => .ok ⟨es⟩
  | none => .error empty

end Scopes

end FrontEnd
