import FrontEnd.Number.Word
import FrontEnd.Ty.Printer

namespace FrontEnd

inductive LayoutError where
  | unresolvedSize (ty : Ty)
  | unresolvedAlignment (ty : Ty)
  | sumOverflow
  | productOverflow

def LayoutError.message : LayoutError → String
  | .unresolvedSize ty => "size of unresolved type " ++ ty.text
  | .unresolvedAlignment ty => "alignment of unresolved type " ++ ty.text
  | .sumOverflow => "attempt to add with overflow"
  | .productOverflow => "attempt to multiply with overflow"

structure Layout where
  size : Nat
  alignment : Nat
  offsets : List Nat
  deriving DecidableEq, Repr

namespace Layout

def sum (a b : Nat) : Except LayoutError Nat :=
  if a + b < Word.limit then .ok (a + b) else .error .sumOverflow

def product (a b : Nat) : Except LayoutError Nat :=
  if a * b < Word.limit then .ok (a * b) else .error .productOverflow

/-- The distance from `cursor` to the next multiple of an alignment; zero aligns nothing. -/
def padding (cursor alignment : Nat) : Nat :=
  if alignment = 0 then 0 else (alignment - cursor % alignment) % alignment

def empty : Layout :=
  ⟨0, 0, []⟩

def place (l : Layout) (size alignment : Nat) : Except LayoutError Layout := do
  let offset ← sum l.size (padding l.size alignment)
  let stop ← sum offset size
  return ⟨stop, max l.alignment alignment, l.offsets ++ [offset]⟩

def close (l : Layout) : Except LayoutError Layout := do
  return { l with size := ← sum l.size (padding l.size l.alignment) }

def ofFields (fields : List (Nat × Nat)) : Except LayoutError Layout := do
  (← fields.foldlM (fun l f => l.place f.1 f.2) empty).close

def overlay (n alignment size : Nat) : Except LayoutError Layout :=
  close ⟨size, alignment, List.replicate n 0⟩

def bytes (bits : Nat) : Nat :=
  max 1 ((bits + 7) / 8)

def pointerSize : Nat :=
  8

end Layout

mutual

def Ty.size : Ty → Except LayoutError Nat
  | .void => .ok 0
  | .int bits => .ok (Layout.bytes bits)
  | .uint bits => .ok (Layout.bytes bits)
  | .float bits => .ok (Layout.bytes bits)
  | .pointer _ => .ok Layout.pointerSize
  | .func _ => .ok Layout.pointerSize
  | .array t n => do Layout.product (← t.size) n
  | .record ⟨.struct, _, fields, _⟩ => do
    return (← (← Layout.placeFields .empty fields).close).size
  | .record ⟨.union, _, fields, _⟩ => do
    let alignment ← Layout.largestAlignment 0 fields
    let size ← Layout.largestSize 0 fields
    return (← Layout.overlay fields.length alignment size).size
  | .named ref => .error (.unresolvedSize (.named ref))
  | .module name => .error (.unresolvedSize (.module name))
  | .todo => .error (.unresolvedSize .todo)

def Ty.alignment : Ty → Except LayoutError Nat
  | .void => .ok 0
  | .int bits => .ok (Layout.bytes bits)
  | .uint bits => .ok (Layout.bytes bits)
  | .float bits => .ok (Layout.bytes bits)
  | .pointer _ => .ok Layout.pointerSize
  | .func _ => .ok Layout.pointerSize
  | .array t _ => t.alignment
  | .record ⟨.struct, _, fields, _⟩ => do
    return (← (← Layout.placeFields .empty fields).close).alignment
  | .record ⟨.union, _, fields, _⟩ => do
    let alignment ← Layout.largestAlignment 0 fields
    let size ← Layout.largestSize 0 fields
    return (← Layout.overlay fields.length alignment size).alignment
  | .named ref => .error (.unresolvedAlignment (.named ref))
  | .module name => .error (.unresolvedAlignment (.module name))
  | .todo => .error (.unresolvedAlignment .todo)

def Layout.placeFields (l : Layout) : List Field → Except LayoutError Layout
  | [] => .ok l
  | ⟨_, t⟩ :: fields => do
    let size ← t.size
    let alignment ← t.alignment
    Layout.placeFields (← l.place size alignment) fields

def Layout.largestAlignment (n : Nat) : List Field → Except LayoutError Nat
  | [] => .ok n
  | ⟨_, t⟩ :: fields => do Layout.largestAlignment (max n (← t.alignment)) fields

def Layout.largestSize (n : Nat) : List Field → Except LayoutError Nat
  | [] => .ok n
  | ⟨_, t⟩ :: fields => do Layout.largestSize (max n (← t.size)) fields

end

def Record.layout (r : Record) : Except LayoutError Layout :=
  match r.kind with
  | .struct => do (← Layout.placeFields .empty r.fields).close
  | .union => do
    let alignment ← Layout.largestAlignment 0 r.fields
    let size ← Layout.largestSize 0 r.fields
    Layout.overlay r.fields.length alignment size

end FrontEnd
