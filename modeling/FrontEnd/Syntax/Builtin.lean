namespace FrontEnd

inductive Builtin where
  | alloc | cast | sizeof | free | realloc | print | println | unreachable | asm
  deriving DecidableEq, Repr

namespace Builtin

def table : List (String × Builtin) :=
  [("alloc", .alloc), ("cast", .cast), ("sizeof", .sizeof), ("free", .free),
   ("realloc", .realloc), ("print", .print), ("println", .println),
   ("unreachable", .unreachable), ("asm", .asm)]

def ofName? (name : String) : Option Builtin :=
  table.lookup name

def typeArgs : Builtin → Nat
  | .alloc | .cast | .sizeof | .asm => 1
  | _ => 0

def params : Builtin → Option Nat
  | .alloc | .cast | .free => some 1
  | .realloc => some 2
  | .sizeof | .unreachable => some 0
  | .print | .println | .asm => none

end Builtin

end FrontEnd
