import FrontEnd.Ty.Reference
import Mathlib.Data.List.Basic

namespace FrontEnd

mutual

def Ty.records : Ty → List Record
  | .pointer t => t.records
  | .array t _ => t.records
  | .record ⟨kind, name, fields, id⟩ => ⟨kind, name, fields, id⟩ :: Ty.recordsOfFields fields
  | .func ⟨_, params, _, result⟩ => Ty.recordsOf params ++ result.records
  | _ => []

def Ty.recordsOf : List Ty → List Record
  | [] => []
  | t :: ts => t.records ++ Ty.recordsOf ts

def Ty.recordsOfFields : List Field → List Record
  | [] => []
  | ⟨_, t⟩ :: fs => t.records ++ Ty.recordsOfFields fs

end

namespace Ty

variable {D : Record → Prop} {t : Ty}

theorem mem_recordsOf {r : Record} {ts : List Ty} : r ∈ recordsOf ts ↔ ∃ t ∈ ts, r ∈ t.records := by
  induction ts with
  | nil => simp [recordsOf]
  | cons t ts ih => simp [recordsOf, ih]

theorem mem_recordsOfFields {r : Record} {fs : List Field} :
    r ∈ recordsOfFields fs ↔ ∃ f ∈ fs, r ∈ f.ty.records := by
  induction fs with
  | nil => simp [recordsOfFields]
  | cons f fs ih =>
    obtain ⟨name, t⟩ := f
    simp [recordsOfFields, ih]

def Of (D : Record → Prop) (t : Ty) : Prop :=
  ∀ r ∈ t.records, D r

theorem Of.mono {D' : Record → Prop} (h : t.Of D) (weaker : ∀ r, D r → D' r) : t.Of D' :=
  fun r hr => weaker r (h r hr)

@[simp]
theorem of_pointer : (Ty.pointer t).Of D ↔ t.Of D :=
  Iff.rfl

@[simp]
theorem of_array {n : Nat} : (Ty.array t n).Of D ↔ t.Of D :=
  Iff.rfl

@[simp]
theorem of_record {decl : Record} :
    (Ty.record decl).Of D ↔ D decl ∧ ∀ f ∈ decl.fields, f.ty.Of D := by
  obtain ⟨kind, name, fields, id⟩ := decl
  simp only [Of, records, List.forall_mem_cons, mem_recordsOfFields]
  constructor
  · rintro ⟨own, inner⟩
    exact ⟨own, fun f hf r hr => inner r ⟨f, hf, hr⟩⟩
  · rintro ⟨own, inner⟩
    exact ⟨own, fun r ⟨f, hf, hr⟩ => inner f hf r hr⟩

@[simp]
theorem of_func {sig : Signature} :
    (Ty.func sig).Of D ↔ (∀ t ∈ sig.params, t.Of D) ∧ sig.result.Of D := by
  obtain ⟨name, params, names, result⟩ := sig
  simp only [Of, records, List.forall_mem_append, mem_recordsOf]
  constructor
  · rintro ⟨inner, last⟩
    exact ⟨fun t ht r hr => inner r ⟨t, ht, hr⟩, last⟩
  · rintro ⟨inner, last⟩
    exact ⟨fun r ⟨t, ht, hr⟩ => inner t ht r hr, last⟩

@[simp]
theorem of_void : Ty.void.Of D :=
  nofun

@[simp]
theorem of_int {bits : Nat} : (Ty.int bits).Of D :=
  nofun

@[simp]
theorem of_todo : Ty.todo.Of D :=
  nofun

@[simp]
theorem of_named {ref : TypeRef} : (Ty.named ref).Of D :=
  nofun

@[simp]
theorem of_module {name : String} : (Ty.module name).Of D :=
  nofun

theorem of_bool : Ty.bool.Of D :=
  nofun

mutual

theorem of_bind {f : TypeRef → Ty} (hf : ∀ ref, (f ref).Of D) : ∀ t : Ty, t.Of D → (t.bind f).Of D
  | .pointer t, h => of_bind hf t h
  | .array t _, h => of_bind hf t h
  | .func ⟨_, params, _, result⟩, h => by
    rw [of_func] at h
    rw [bind, of_func]
    exact ⟨of_bindAll hf params h.1, of_bind hf result h.2⟩
  | .named ref, _ => hf ref
  | .record ⟨_, _, _, _⟩, h => h
  | .void, h | .int _, h | .uint _, h | .float _, h | .module _, h | .todo, h => h

theorem of_bindAll {f : TypeRef → Ty} (hf : ∀ ref, (f ref).Of D) :
    ∀ ts : List Ty, (∀ t ∈ ts, t.Of D) → ∀ t ∈ bindAll f ts, t.Of D
  | [], _ => nofun
  | t :: ts, h => by
    rw [List.forall_mem_cons] at h
    rw [bindAll, List.forall_mem_cons]
    exact ⟨of_bind hf t h.1, of_bindAll hf ts h.2⟩

end

end Ty

def Resolver.Of (D : Record → Prop) (r : Resolver) : Prop :=
  ∀ ref t, r.lookup ref = some t → t.Of D

namespace Resolver.Of

variable {D : Record → Prop} {r : Resolver}

theorem resolve (h : r.Of D) {t : Ty} (ht : t.Of D) : (r.resolve t).Of D := by
  have within (n : Nat) (t : Ty) (ht : t.Of D) : (r.resolveWithin n t).Of D := by
    induction n generalizing t with
    | zero => exact ht
    | succ n ih =>
      refine Ty.of_bind (fun ref => ?_) t ht
      split
      case h_1 u known => exact ih u (h ref u (Option.filter_eq_some_iff.mp known).1)
      case h_2 => exact Ty.of_named
  exact within _ t ht

theorem resolveSignature (h : r.Of D) {sig : Signature} (hs : (Ty.func sig).Of D) :
    (Ty.func (r.resolveSignature sig)).Of D := by
  rw [Ty.of_func] at hs ⊢
  refine ⟨fun t ht => ?_, h.resolve hs.2⟩
  obtain ⟨u, hu, rfl⟩ := List.mem_map.mp ht
  exact h.resolve (hs.1 u hu)

end Resolver.Of

end FrontEnd
