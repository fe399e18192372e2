import FrontEnd.Proofs.Ty.Extent
import FrontEnd.Proofs.Typing.Clean

namespace FrontEnd

mutual

/-- Whether no part of a type is left open, and what is stored in its records is known. -/
def Ty.firm : Ty → Bool
  | .pointer t => t.firm
  | .array t _ => t.firm
  | .record ⟨_, _, fields, _⟩ => Ty.firmFields fields
  | .func ⟨_, params, _, result⟩ => Ty.firmAll params && result.firm
  | .todo => false
  | .module _ => false
  | _ => true

def Ty.firmAll : List Ty → Bool
  | [] => true
  | t :: ts => t.firm && Ty.firmAll ts

def Ty.firmFields : List Field → Bool
  | [] => true
  | ⟨_, t⟩ :: fs => t.firm && t.element.ref?.isNone && Ty.firmFields fs

end

/-- References are left behind pointers and in signatures only. -/
def Ty.Complete (t : Ty) : Prop :=
  t.firm = true ∧ t.Known

namespace Ty

variable {t : Ty}

theorem known_iff : t.Known ↔ t.element.ref?.isNone = true := by
  unfold Known
  cases t.element <;> simp [ref?]

theorem firmAll_iff {ts : List Ty} : firmAll ts = true ↔ ∀ t ∈ ts, t.firm = true := by
  induction ts with
  | nil => simp [firmAll]
  | cons t ts ih => simp [firmAll, ih]

theorem firmFields_iff {fs : List Field} : firmFields fs = true ↔ ∀ f ∈ fs, f.ty.Complete := by
  induction fs with
  | nil => simp [firmFields]
  | cons f fs ih =>
    obtain ⟨name, t⟩ := f
    simp [firmFields, Complete, known_iff, ih]

theorem firm_record {decl : Record} :
    (Ty.record decl).firm = true ↔ ∀ f ∈ decl.fields, f.ty.Complete := by
  obtain ⟨kind, name, fields, id⟩ := decl
  rw [firm, firmFields_iff]

theorem firm_func {sig : Signature} :
    (Ty.func sig).firm = true ↔ (∀ t ∈ sig.params, t.firm = true) ∧ sig.result.firm = true := by
  obtain ⟨name, params, names, result⟩ := sig
  simp [firm, firmAll_iff]

mutual

theorem settled_of_firm : ∀ t : Ty, t.firm = true → t.settled = true
  | .pointer t, h => settled_of_firm t h
  | .array t _, h => settled_of_firm t h
  | .record ⟨_, _, fields, _⟩, h => settledFields_of_firm fields h
  | .func ⟨_, params, _, result⟩, h => by
    simp only [firm, Bool.and_eq_true] at h
    simp only [settled, Bool.and_eq_true]
    exact ⟨settledAll_of_firm params h.1, settled_of_firm result h.2⟩
  | .void, _ | .int _, _ | .uint _, _ | .float _, _ | .named _, _ => rfl

theorem settledAll_of_firm : ∀ ts : List Ty, firmAll ts = true → settledAll ts = true
  | [], _ => rfl
  | t :: ts, h => by
    simp only [firmAll, Bool.and_eq_true] at h
    simp only [settledAll, Bool.and_eq_true]
    exact ⟨settled_of_firm t h.1, settledAll_of_firm ts h.2⟩

theorem settledFields_of_firm : ∀ fs : List Field, firmFields fs = true → settledFields fs = true
  | [], _ => rfl
  | ⟨_, t⟩ :: fs, h => by
    simp only [firmFields, Bool.and_eq_true] at h
    simp only [settledFields, Bool.and_eq_true]
    exact ⟨settled_of_firm t h.1.1, settledFields_of_firm fs h.2⟩

end

mutual

theorem firm_bind {f : TypeRef → Ty} (hf : ∀ ref, (f ref).firm = true) :
    ∀ t : Ty, t.firm = true → (t.bind f).firm = true
  | .pointer t, h => firm_bind hf t h
  | .array t _, h => firm_bind hf t h
  | .func ⟨_, params, _, result⟩, h => by
    simp only [firm, Bool.and_eq_true] at h
    simp only [bind, firm, Bool.and_eq_true]
    exact ⟨firmAll_bindAll hf params h.1, firm_bind hf result h.2⟩
  | .named ref, _ => hf ref
  | .void, _ | .int _, _ | .uint _, _ | .float _, _ => rfl
  | .record _, h => h

theorem firmAll_bindAll {f : TypeRef → Ty} (hf : ∀ ref, (f ref).firm = true) :
    ∀ ts : List Ty, firmAll ts = true → firmAll (bindAll f ts) = true
  | [], _ => rfl
  | t :: ts, h => by
    simp only [firmAll, Bool.and_eq_true] at h
    simp only [bindAll, firmAll, Bool.and_eq_true]
    exact ⟨firm_bind hf t h.1, firmAll_bindAll hf ts h.2⟩

end

theorem known_bind {f : TypeRef → Ty} (h : t.Known) : (t.bind f).Known := by
  induction t using nested with
  | array t n ih => exact ih h
  | named ref => exact absurd rfl (h ref)
  | func sig =>
    obtain ⟨_, _, _, _⟩ := sig
    exact known_of_ref? rfl
  | _ => exact known_of_ref? rfl

theorem known_of_firstRef? (h : t.firstRef? = none) : t.Known := by
  induction t using nested with
  | array t n ih => exact ih h
  | named ref => simp [firstRef?] at h
  | _ => exact known_of_ref? rfl

theorem complete_of_numeric (h : t.isNumeric = true) : t.Complete := by
  cases t with
  | int _ | uint _ | float _ => exact ⟨rfl, nofun⟩
  | _ => simp [isNumeric] at h

theorem known_of_isPointer (h : t.isPointer = true) : t.Known := by
  cases t with
  | pointer _ => exact nofun
  | _ => simp [isPointer] at h

theorem complete_pointer (h : t.firm = true) : (Ty.pointer t).Complete :=
  ⟨h, nofun⟩

theorem complete_func {sig : Signature} (h : (Ty.func sig).firm = true) : (Ty.func sig).Complete :=
  ⟨h, nofun⟩

end Ty

/-- A resolver whose names stand for records of which nothing is left open. -/
structure Resolver.Firm (r : Resolver) : Prop where
  hops : r.hops = 0
  lookup : ∀ {ref t}, r.lookup ref = some t → t.firm = true ∧ ∃ decl, t = .record decl

namespace Resolver.Firm

variable {r : Resolver} {t : Ty}

theorem clean (h : r.Firm) : r.Clean where
  hops := h.hops
  lookup found := by
    obtain ⟨firm, record⟩ := h.lookup found
    exact ⟨Ty.settled_of_firm _ firm, record⟩

theorem firm_meaning (h : r.Firm) (ref : TypeRef) : (r.meaning ref).firm = true := by
  unfold meaning
  cases known : r.meaning? ref with
  | none => rfl
  | some t => exact (h.lookup (Option.filter_eq_some_iff.mp known).1).1

theorem firm_resolve (h : r.Firm) (ht : t.firm = true) : (r.resolve t).firm = true := by
  rw [h.clean.resolve_eq]
  exact Ty.firm_bind h.firm_meaning t ht

theorem complete_resolve (h : r.Firm) (ht : t.Complete) : (r.resolve t).Complete := by
  refine ⟨h.firm_resolve ht.1, ?_⟩
  rw [h.clean.resolve_eq]
  exact Ty.known_bind ht.2

theorem firm_resolveSignature (h : r.Firm) {sig : Signature} (hs : (Ty.func sig).firm = true) :
    (Ty.func (r.resolveSignature sig)).firm = true :=
  r.resolve_func sig ▸ h.firm_resolve hs

end Resolver.Firm

theorem Ty.Complete.closed {t : Ty} (h : t.Complete) : ∀ u ∈ t.stored, u.isOpen = false := by
  induction t using Ty.storage_induction with
  | leaf t leaf =>
    refine (Ty.forall_stored_leaf leaf).mpr ?_
    obtain ⟨firm, known⟩ := h
    cases t with
    | named ref => exact absurd rfl (known ref)
    | module | todo => cases firm
    | _ => rfl
  | array t n ih => exact Ty.forall_stored_array.mpr ⟨rfl, ih h⟩
  | record decl ih =>
    exact Ty.forall_stored_record.mpr ⟨rfl, fun f mem => ih f mem (Ty.firm_record.mp h.1 f mem)⟩

def Record.HasLayout (decl : Record) : Prop :=
  (Ty.record decl).HasLayout ∧ Layout.Resolved decl.layout

theorem Ty.Complete.hasLayout {t : Ty} (h : t.Complete) : t.HasLayout :=
  Ty.hasLayout h.closed

theorem Record.hasLayout {decl : Record} (h : (Ty.record decl).firm = true) : decl.HasLayout := by
  have complete : (Ty.record decl).Complete := ⟨h, nofun⟩
  exact ⟨complete.hasLayout,
    Layout.resolved_layout fun f mem => (Ty.firm_record.mp h f mem).hasLayout⟩

end FrontEnd
