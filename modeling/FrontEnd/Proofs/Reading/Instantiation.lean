import FrontEnd.Proofs.Reading.Natural
import FrontEnd.Proofs.Renaming.Shift

namespace FrontEnd

mutual

/-- Puts types in the places of modules, in records and signatures too. -/
def Ty.substitute (σ : String → Option Ty) : Ty → Ty
  | .pointer t => .pointer (t.substitute σ)
  | .array t n => .array (t.substitute σ) n
  | .record ⟨kind, name, fields, id⟩ => .record ⟨kind, name, Ty.substituteFields σ fields, id⟩
  | .func ⟨name, params, names, result⟩ =>
    .func ⟨name, Ty.substituteAll σ params, names, result.substitute σ⟩
  | .module name => (σ name).getD (.module name)
  | t => t

def Ty.substituteAll (σ : String → Option Ty) : List Ty → List Ty
  | [] => []
  | t :: ts => t.substitute σ :: Ty.substituteAll σ ts

def Ty.substituteFields (σ : String → Option Ty) : List Field → List Field
  | [] => []
  | ⟨name, t⟩ :: fs => ⟨name, t.substitute σ⟩ :: Ty.substituteFields σ fs

end

theorem Ty.substituteAll_eq_map (σ : String → Option Ty) (ts : List Ty) :
    Ty.substituteAll σ ts = ts.map (Ty.substitute σ) := by
  induction ts with
  | nil => rfl
  | cons t ts ih => rw [Ty.substituteAll, ih, List.map_cons]

/-- Puts types in the places of modules, everywhere in a unit; names and ids stay, of units with any
id. -/
def Translation.substitution (σ : String → Option Ty) : Translation :=
  { identity with
    type := Ty.substitute σ
    void := rfl
    int := fun _ => rfl
    uint := fun _ => rfl
    float := fun _ => rfl
    todo := rfl
    pointer := fun _ => rfl
    array := fun _ _ => rfl
    func := by
      rintro ⟨name, params, names, result⟩
      simp [Ty.substitute, Ty.substituteAll_eq_map, identity]
    named := by
      rintro ⟨name, modules⟩
      simp [Ty.substitute, identity] }

def Program.substitute (σ : String → Option Ty) (p : Program) : Program :=
  ⟨p.id, (Translation.substitution σ).tree.stmts p.statements⟩

def ReadResult.substitute (σ : String → Option Ty) (r : ReadResult) : ReadResult :=
  { r with program := r.program.substitute σ }

theorem Program.read_substitute (σ : String → Option Ty) (c : Cursor) (o : ReadOptions) :
    Program.read c { o with typeArgs := o.typeArgs.map (Ty.substitute σ) } =
      (Program.read c o).substitute σ := by
  have still : (Translation.substitution σ).Still := {}
  exact still.read_options c trivial

namespace Ty

/-- The name that stands for the type argument of an index. -/
def placeholder (i : Nat) : String :=
  "$" ++ toString (i + 1)

theorem placeholder_injective : Function.Injective placeholder := by
  intro i j same
  have digits : toString (i + 1) = toString (j + 1) := by
    apply String.toList_injective
    simpa [placeholder] using congrArg String.toList same
  exact Nat.succ.inj (Name.toString_injective digits)

def placeholders (n : Nat) : List Ty :=
  (List.range n).map fun i => .module (placeholder i)

def instantiation (args : List Ty) (name : String) : Option Ty :=
  (args.zipIdx.find? fun p => placeholder p.2 = name).map Prod.fst

theorem instantiation_placeholder {args : List Ty} {i : Nat} (h : i < args.length) :
    instantiation args (placeholder i) = some args[i] := by
  have listed : (args[i], i) ∈ args.zipIdx := List.mk_mem_zipIdx_iff_getElem?.mpr (by simp [h])
  have sole : ∀ p ∈ args.zipIdx, placeholder p.2 = placeholder i → p = (args[i], i) := by
    rintro ⟨t, j⟩ mem same
    obtain rfl : j = i := placeholder_injective same
    have there := List.mk_mem_zipIdx_iff_getElem?.mp mem
    simp_all
  unfold instantiation
  cases found : args.zipIdx.find? fun p => placeholder p.2 = placeholder i with
  | none => exact absurd (List.find?_eq_none.mp found _ listed) (by simp)
  | some p =>
    have same := List.find?_some found
    rw [sole p (List.mem_of_find?_eq_some found) (by simpa using same)]
    rfl

theorem substitute_placeholders (args : List Ty) :
    (placeholders args.length).map (substitute (instantiation args)) = args := by
  refine List.ext_getElem (by simp [placeholders]) fun i h h' => ?_
  simp [placeholders, substitute, instantiation_placeholder h']

end Ty

/-- A unit that is read with type arguments is the unit that is read with placeholders, with the
arguments in their places; the errors are the same, and the ids that are handed out. A unit that is
read with no type arguments has no places for them. -/
theorem Program.read_instantiates (c : Cursor) (unit : String) (args : List Ty)
    (nextId maxErrors : Nat) :
    Program.read c ⟨unit, args, nextId, maxErrors⟩ =
        (Program.read c ⟨unit, Ty.placeholders args.length, nextId, maxErrors⟩).substitute
          (Ty.instantiation args) ∧
      ∀ σ, (Program.read c ⟨unit, [], nextId, maxErrors⟩).substitute σ =
        Program.read c ⟨unit, [], nextId, maxErrors⟩ := by
  constructor
  · rw [← Program.read_substitute, Ty.substitute_placeholders]
  · intro σ
    exact (Program.read_substitute σ c ⟨unit, [], nextId, maxErrors⟩).symm

end FrontEnd
