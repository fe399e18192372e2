import FrontEnd.Checking.State

namespace FrontEnd

mutual

/-- Whether a value of the type stores a value of the type called `owner`. Records are gone into
once each, `seen` being the names of those gone into before; `follow` says what a reference
stores. -/
def Ty.storesWith (owner : String) (follow : TypeRef → List String → Bool × List String) :
    Ty → List String → Bool × List String
  | .array t _, seen => t.storesWith owner follow seen
  | .named ref, seen => follow ref seen
  | .record ⟨_, name, fields, _⟩, seen =>
    if name = owner then (true, seen)
    else if seen.contains name then (false, seen)
    else Ty.fieldsStoreWith owner follow fields (name :: seen)
  | _, seen => (false, seen)

def Ty.fieldsStoreWith (owner : String)
    (follow : TypeRef → List String → Bool × List String) :
    List Field → List String → Bool × List String
  | [], seen => (false, seen)
  | ⟨_, t⟩ :: fields, seen =>
    match t.storesWith owner follow seen with
    | (true, seen) => (true, seen)
    | (false, seen) => Ty.fieldsStoreWith owner follow fields seen

end

/-- Whether a value of the type stores a value of the type called `owner`, with at most `n`
references followed inside each other. -/
def Ty.storesWithin (lookup : TypeRef → Option Ty) (owner : String) :
    Nat → Ty → List String → Bool × List String
  | 0, _, seen => (false, seen)
  | n + 1, t, seen =>
    t.storesWith owner
      (fun ref seen =>
        if ref.modules = [] ∧ ref.name = owner then (true, seen)
        else
          match lookup ref with
          | some u => Ty.storesWithin lookup owner n u seen
          | none => (false, seen))
      seen

/-- Whether a value of the type stores a value of the record called `owner`. No more references are
followed inside each other than there are types that they can stand for. -/
def CheckState.stores (s : CheckState) (owner : String) (t : Ty) : Bool :=
  (t.storesWithin s.resolver.lookup owner (s.declared.length + 2) []).1

namespace Check

def recursiveType (owner : String) (token : Token) : Check Unit :=
  error (.recursiveType (Name.bare owner)) token

def checkContainment (owner : String) (t : Ty) (token : Token) : Check (Option Ty) := do
  if (← get).stores owner t then
    recursiveType owner token
    return none
  else return some t

/-- The type of a field, with what is stored in the field itself resolved. There is none if the
field stores a value of its owner. -/
def resolveField (owner : String) (token : Token) : Ty → Check (Option Ty)
  | .array t n => do return (← resolveField owner token t).map (.array · n)
  | .named ref => do
    if ref.modules = [] ∧ ref.name = owner then
      recursiveType owner token
      return none
    match ← resolve (.named ref) with
    | .named _ =>
      error (.unknownType (Ty.named ref).text) token
      return some .todo
    | t => checkContainment owner t token
  | .record decl => checkContainment owner (.record decl) token
  | t => return some t

def resolveFields (owner : String) (token : Token) (seen : List String) :
    List Field → Check (Option (List Field))
  | [] => return some []
  | f :: fields => do
    if seen.contains f.name then error (.duplicateField f.name) token
    match ← resolveField owner token f.ty with
    | none => return none
    | some ty =>
      return (← resolveFields owner token (f.name :: seen) fields).map (⟨f.name, ty⟩ :: ·)

/-- Declares a record. It is known by its name while its fields are resolved, and stays as it is
written if it would store a value of itself. -/
def recordDecl (token : Token) (decl : Record) : Check Record := do
  defineType decl.name (.record decl)
  match ← resolveFields decl.name token [] decl.fields with
  | none => return decl
  | some fields =>
    let decl := { decl with fields := fields }
    defineType decl.name (.record decl)
    return decl

end Check

end FrontEnd
