import FrontEnd.Ty.Basic

namespace FrontEnd

mutual

def Ty.bind (f : TypeRef → Ty) : Ty → Ty
  | .pointer t => .pointer (t.bind f)
  | .array t n => .array (t.bind f) n
  | .func ⟨name, params, names, result⟩ => .func ⟨name, Ty.bindAll f params, names, result.bind f⟩
  | .named ref => f ref
  | t => t

def Ty.bindAll (f : TypeRef → Ty) : List Ty → List Ty
  | [] => []
  | t :: ts => t.bind f :: Ty.bindAll f ts

end

/-- What references stand for. A reference may stand for another one, and `hops` bounds how many
more are followed after the first. -/
structure Resolver where
  lookup : TypeRef → Option Ty
  hops : Nat

namespace Resolver

def none : Resolver :=
  ⟨fun _ => Option.none, 0⟩

/-- What a reference stands for: the type that it is known by, unless that is the reference
itself. -/
def meaning? (r : Resolver) (ref : TypeRef) : Option Ty :=
  (r.lookup ref).filter fun t => t.ref? ≠ some ref

def unwrapWithin (r : Resolver) : Nat → Ty → Ty
  | n + 1, .named ref =>
    match r.meaning? ref with
    | some t => unwrapWithin r n t
    | Option.none => .named ref
  | _, t => t

def unwrap (r : Resolver) (t : Ty) : Ty :=
  r.unwrapWithin (r.hops + 1) t

def resolveWithin (r : Resolver) : Nat → Ty → Ty
  | 0, t => t
  | n + 1, t =>
    t.bind fun ref =>
      match r.meaning? ref with
      | some u => resolveWithin r n u
      | Option.none => .named ref

def resolve (r : Resolver) (t : Ty) : Ty :=
  r.resolveWithin (r.hops + 1) t

def resolveSignature (r : Resolver) (s : Signature) : Signature :=
  ⟨s.name, s.params.map r.resolve, s.names, r.resolve s.result⟩

end Resolver

mutual

/-- Whether two resolved types are equal: by their form, records by kind and id, and `todo` equal
to all, so that one failure is reported once. -/
def Ty.agrees : Ty → Ty → Bool
  | .todo, _ => true
  | _, .todo => true
  | .void, .void => true
  | .int a, .int b => a == b
  | .uint a, .uint b => a == b
  | .float a, .float b => a == b
  | .pointer a, .pointer b => a.agrees b
  | .array a m, .array b n => m == n && a.agrees b
  | .record ⟨k, _, _, i⟩, .record ⟨l, _, _, j⟩ => k == l && i == j
  | .func ⟨_, ps, _, r⟩, .func ⟨_, qs, _, s⟩ => Ty.agreeAll ps qs && r.agrees s
  | .named a, .named b => a == b
  | .module a, .module b => a == b
  | _, _ => false

def Ty.agreeAll : List Ty → List Ty → Bool
  | [], [] => true
  | a :: as, b :: bs => a.agrees b && Ty.agreeAll as bs
  | _, _ => false

end

def Ty.equals (r : Resolver) (a b : Ty) : Bool :=
  (r.resolve a).agrees (r.resolve b)

mutual

def Ty.firstRef? : Ty → Option TypeRef
  | .named ref => some ref
  | .pointer t => t.firstRef?
  | .array t _ => t.firstRef?
  | .func ⟨_, params, _, result⟩ => (Ty.firstRefOf? params).or result.firstRef?
  | _ => none

def Ty.firstRefOf? : List Ty → Option TypeRef
  | [] => none
  | t :: ts => t.firstRef?.or (Ty.firstRefOf? ts)

end

def Ty.element : Ty → Ty
  | .array t _ => t.element
  | t => t

end FrontEnd
