import FrontEnd.Name
import FrontEnd.Scopes
import FrontEnd.Session
import FrontEnd.Syntax.Basic

namespace FrontEnd

structure FunctionDecl where
  token : Token
  sig : Signature
  body : List Stmt

def FunctionDecl.toStmt (f : FunctionDecl) : Stmt :=
  .function f.token f.sig f.body

mutual

structure Environment where
  /-- The id that qualifies the names of the unit. -/
  id : String
  /-- Where the paths of imports start. -/
  directory : Path
  vars : Scopes Ty
  types : Scopes Ty
  functions : List (String × FunctionDecl)
  modules : List (String × Module)

structure Module where
  name : String
  path : Path
  unit : CheckedUnit

structure CheckedUnit where
  program : Program
  env : Environment

end

mutual

def Environment.declared : Environment → List Ty
  | ⟨_, _, _, types, _, modules⟩ => types.values ++ Module.declaredIn modules

def Module.declaredIn : List (String × Module) → List Ty
  | [] => []
  | (_, ⟨_, _, ⟨_, env⟩⟩) :: modules => env.declared ++ Module.declaredIn modules

end

namespace Environment

theorem declared_eq (e : Environment) :
    e.declared = e.types.values ++ Module.declaredIn e.modules := by
  cases e
  rfl

def start (id : String) (directory : Path) : Environment :=
  ⟨id, directory, .empty, .empty, [], []⟩

def module? (e : Environment) (name : String) : Option Module :=
  e.modules.lookup name

def function? (e : Environment) (name : String) : Option FunctionDecl :=
  e.functions.lookup name

/-- A type by its qualified name: one that is declared in this unit, or else at the top of any
unit. -/
def type? (e : Environment) (registry : List (String × Ty)) (name : String) : Option Ty :=
  (e.types.get? name).or (registry.lookup name)

def typeThrough? (registry : List (String × Ty)) (name : String) :
    List String → Environment → Option Ty
  | [], e => e.type? registry (Name.requalify name e.id)
  | module :: modules, e =>
    match e.module? (Name.requalify module e.id) with
    | some m => typeThrough? registry name modules m.unit.env
    | none => none

def lookup (e : Environment) (registry : List (String × Ty)) (ref : TypeRef) : Option Ty :=
  match ref.modules with
  | [] => e.type? registry ref.name
  | module :: modules =>
    match e.module? module with
    | some m => typeThrough? registry ref.name modules m.unit.env
    | none => none

end Environment

end FrontEnd
