import FrontEnd.Name

namespace FrontEnd

/-- A type named in the text: its qualified name, looked up through the modules with these
qualified names, the outermost first. -/
structure TypeRef where
  name : String
  modules : List String
  deriving DecidableEq, Repr

inductive RecordKind where
  | struct
  | union
  deriving DecidableEq, Repr

mutual

inductive Ty where
  | void
  | int (bits : Nat)
  | uint (bits : Nat)
  | float (bits : Nat)
  | pointer (target : Ty)
  | array (element : Ty) (length : Nat)
  | record (decl : Record)
  | func (sig : Signature)
  | named (ref : TypeRef)
  | module (name : String)
  | todo

structure Field where
  name : String
  ty : Ty

/-- A struct or union. Two records are the same type exactly if they have the same id. -/
structure Record where
  kind : RecordKind
  name : String
  fields : List Field
  id : Nat

structure Signature where
  name : String
  params : List Ty
  names : List String
  result : Ty

end

instance : Inhabited Ty :=
  ⟨.todo⟩

namespace Ty

def primitives : List (String × Ty) :=
  [("void", .void), ("bool", .int 1), ("i1", .int 1), ("i8", .int 8), ("i16", .int 16),
   ("i32", .int 32), ("i64", .int 64), ("u8", .uint 8), ("u16", .uint 16), ("u32", .uint 32),
   ("u64", .uint 64), ("f32", .float 32), ("f64", .float 64)]

def primitive? (name : String) : Option Ty :=
  primitives.lookup name

def bool : Ty :=
  .int 1

def isNumeric : Ty → Bool
  | .int _ | .uint _ | .float _ => true
  | _ => false

def isInteger : Ty → Bool
  | .int _ | .uint _ => true
  | _ => false

def isPointer : Ty → Bool
  | .pointer _ => true
  | _ => false

def isArray : Ty → Bool
  | .array _ _ => true
  | _ => false

def isTodo : Ty → Bool
  | .todo => true
  | _ => false

def isVoid : Ty → Bool
  | .void => true
  | _ => false

def ref? : Ty → Option TypeRef
  | .named ref => some ref
  | _ => none

end Ty

namespace Record

def field? (r : Record) (name : String) : Option Field :=
  r.fields.find? fun f => f.name == name

end Record

mutual

def Ty.same : Ty → Ty → Bool
  | .void, .void => true
  | .int a, .int b => a == b
  | .uint a, .uint b => a == b
  | .float a, .float b => a == b
  | .pointer a, .pointer b => a.same b
  | .array a m, .array b n => m == n && a.same b
  | .record ⟨k, n, fs, i⟩, .record ⟨l, m, gs, j⟩ => k == l && n == m && i == j && sameFields fs gs
  | .func ⟨n, ps, xs, r⟩, .func ⟨m, qs, ys, s⟩ =>
    n == m && xs == ys && sameTypes ps qs && r.same s
  | .named a, .named b => a == b
  | .module a, .module b => a == b
  | .todo, .todo => true
  | _, _ => false

def Ty.sameTypes : List Ty → List Ty → Bool
  | [], [] => true
  | a :: as, b :: bs => a.same b && sameTypes as bs
  | _, _ => false

def Ty.sameFields : List Field → List Field → Bool
  | [], [] => true
  | ⟨m, a⟩ :: fs, ⟨n, b⟩ :: gs => m == n && a.same b && sameFields fs gs
  | _, _ => false

end

end FrontEnd
