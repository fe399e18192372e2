import FrontEnd.Proofs.Name
import FrontEnd.Proofs.Syntax.Translation
import FrontEnd.Proofs.Ty.Following
import FrontEnd.Ty.Printer

namespace FrontEnd

structure Renaming where
  /-- The ids of units. -/
  unit : String → String
  /-- The ids of records. -/
  id : Nat → Nat
  /-- The names that a unit qualifies. -/
  name : String → String
  unit_injective : Function.Injective unit
  id_injective : Function.Injective id
  plain : ∀ {v : String}, '-' ∉ v.toList → name v = v
  dashed : ∀ v u : String, name (v ++ "-" ++ u) = name v ++ "-" ++ unit u
  /-- Units and records are numbered together. -/
  numeral : ∀ n, unit (toString n) = toString (id n)
  next : ∀ n, id (n + 1) = id n + 1

namespace Renaming

variable (ρ : Renaming)

theorem bare_name (q : String) : Name.bare (ρ.name q) = Name.bare q := by
  by_cases h : '-' ∈ q.toList
  · obtain ⟨v, u, plain, rfl⟩ := Name.cut h
    rw [ρ.dashed, ρ.plain plain, Name.bare_dashed plain, Name.bare_dashed plain]
  · rw [ρ.plain h]

theorem name_injective : Function.Injective ρ.name := by
  have dash (q : String) : '-' ∈ (ρ.name q).toList ↔ '-' ∈ q.toList := by
    by_cases h : '-' ∈ q.toList
    · obtain ⟨v, u, _, rfl⟩ := Name.cut h
      simp [ρ.dashed]
    · rw [ρ.plain h]
  intro q q' same
  by_cases h : '-' ∈ q.toList
  · have h' : '-' ∈ q'.toList := by rwa [← dash, ← same, dash]
    have bare : Name.bare q = Name.bare q' := by rw [← ρ.bare_name, same, ρ.bare_name]
    obtain ⟨v, u, plain, rfl⟩ := Name.cut h
    obtain ⟨v', u', plain', rfl⟩ := Name.cut h'
    rw [Name.bare_dashed plain, Name.bare_dashed plain'] at bare
    subst bare
    rw [ρ.dashed, ρ.dashed] at same
    have units : ρ.unit u = ρ.unit u' := by
      apply String.toList_injective
      simpa using congrArg String.toList same
    rw [ρ.unit_injective units]
  · have h' : '-' ∉ q'.toList := by rwa [← dash, ← same, dash]
    rwa [ρ.plain h, ρ.plain h'] at same

theorem name_qualify (v u : String) :
    ρ.name (Name.qualify v u) = Name.qualify (ρ.name v) (ρ.unit u) := by
  have main : ρ.name "main" = "main" := ρ.plain (by decide)
  by_cases h : v = "main"
  · rw [h, main]
    exact main
  · have other : ρ.name v ≠ "main" := fun same => h (ρ.name_injective (same.trans main.symm))
    rw [Name.qualify, if_neg h, ρ.dashed, Name.qualify, if_neg other]

theorem name_requalify (q u : String) :
    ρ.name (Name.requalify q u) = Name.requalify (ρ.name q) (ρ.unit u) := by
  rw [Name.requalify, Name.requalify, ρ.name_qualify, ρ.bare_name, ρ.plain (Name.plain_bare q)]

def ref (r : TypeRef) : TypeRef :=
  ⟨ρ.name r.name, r.modules.map ρ.name⟩

theorem ref_injective : Function.Injective ρ.ref := by
  rintro ⟨n, ms⟩ ⟨n', ms'⟩ same
  obtain ⟨names, modules⟩ := TypeRef.mk.inj same
  obtain rfl : n = n' := ρ.name_injective names
  obtain rfl : ms = ms' := ρ.name_injective.list_map modules
  rfl

mutual

def type (ρ : Renaming) : Ty → Ty
  | .pointer t => .pointer (ρ.type t)
  | .array t n => .array (ρ.type t) n
  | .record ⟨kind, name, fields, id⟩ => .record ⟨kind, ρ.name name, ρ.fields fields, ρ.id id⟩
  | .func ⟨name, params, names, result⟩ =>
    .func ⟨ρ.name name, ρ.types params, names.map ρ.name, ρ.type result⟩
  | .named r => .named (ρ.ref r)
  | .module name => .module (ρ.name name)
  | t => t

def types (ρ : Renaming) : List Ty → List Ty
  | [] => []
  | t :: ts => ρ.type t :: ρ.types ts

def fields (ρ : Renaming) : List Field → List Field
  | [] => []
  | ⟨name, t⟩ :: fs => ⟨name, ρ.type t⟩ :: ρ.fields fs

end

theorem types_eq_map (ts : List Ty) : ρ.types ts = ts.map ρ.type := by
  induction ts with
  | nil => rfl
  | cons t ts ih => rw [types, ih, List.map_cons]

theorem fields_eq_map (fs : List Field) : ρ.fields fs = fs.map fun f => ⟨f.name, ρ.type f.ty⟩ := by
  induction fs with
  | nil => rfl
  | cons f fs ih =>
    obtain ⟨name, t⟩ := f
    rw [fields, ih, List.map_cons]

@[reducible]
def map : Translation where
  name := ρ.name
  unit := ρ.unit
  id := ρ.id
  type := ρ.type
  plain := ρ.plain
  qualify := fun _ v => ρ.name_qualify v _
  next := ρ.next
  func := by
    rintro ⟨name, params, names, result⟩
    simp [type, types_eq_map]
  named := fun _ => rfl
  start_span := Translation.identity.start_span
  line := Translation.identity.line
  offset := Translation.identity.offset

@[simp]
theorem type_record (decl : Record) : ρ.type (.record decl) = .record (ρ.map.record decl) := by
  obtain ⟨kind, name, fields, id⟩ := decl
  rw [type, fields_eq_map]
  rfl

@[simp]
theorem type_func (sig : Signature) : ρ.type (.func sig) = .func (ρ.map.signature sig) := by
  obtain ⟨name, params, names, result⟩ := sig
  rw [type, types_eq_map]
  rfl

section Forms

variable (t : Ty)

@[simp]
theorem isTodo_type : (ρ.type t).isTodo = t.isTodo := by
  cases t <;> simp [type, Ty.isTodo]

@[simp]
theorem isVoid_type : (ρ.type t).isVoid = t.isVoid := by
  cases t <;> simp [type, Ty.isVoid]

@[simp]
theorem isNumeric_type : (ρ.type t).isNumeric = t.isNumeric := by
  cases t <;> simp [type, Ty.isNumeric]

@[simp]
theorem isInteger_type : (ρ.type t).isInteger = t.isInteger := by
  cases t <;> simp [type, Ty.isInteger]

@[simp]
theorem isPointer_type : (ρ.type t).isPointer = t.isPointer := by
  cases t <;> simp [type, Ty.isPointer]

@[simp]
theorem isArray_type : (ρ.type t).isArray = t.isArray := by
  cases t <;> simp [type, Ty.isArray]

theorem ref?_type : (ρ.type t).ref? = t.ref?.map ρ.ref := by
  cases t <;> simp [type, Ty.ref?]

theorem element_type : ∀ t : Ty, (ρ.type t).element = ρ.type t.element
  | .array t _ => element_type t
  | .record decl => by simp [Ty.element]
  | .func sig => by simp [Ty.element]
  | .void | .int _ | .uint _ | .float _ | .pointer _ | .named _ | .module _ | .todo => rfl

end Forms

mutual

theorem text_type : ∀ t : Ty, (ρ.type t).text = t.text
  | .pointer t => by rw [type, Ty.text, Ty.text, text_type t]
  | .array t n => by rw [type, Ty.text, Ty.text, text_type t]
  | .record ⟨_, name, _, _⟩ => by rw [type, Ty.text, Ty.text, ρ.bare_name]
  | .func ⟨_, params, _, result⟩ => by
    rw [type, Ty.text, Ty.text, texts_types params, text_type result, isVoid_type]
  | .named ⟨name, modules⟩ => by
    simp only [type, ref, Ty.text, List.map_map, Function.comp_def, ρ.bare_name]
  | .module name => by rw [type, Ty.text, Ty.text, ρ.bare_name]
  | .void | .int _ | .uint _ | .float _ | .todo => rfl

theorem texts_types : ∀ ts : List Ty, Ty.texts (ρ.types ts) = Ty.texts ts
  | [] => rfl
  | t :: ts => by rw [types, Ty.texts, Ty.texts, text_type t, texts_types ts]

end

mutual

theorem firstRef?_type : ∀ t : Ty, (ρ.type t).firstRef? = t.firstRef?.map ρ.ref
  | .pointer t => firstRef?_type t
  | .array t _ => firstRef?_type t
  | .func ⟨_, params, _, result⟩ => by
    rw [type, Ty.firstRef?, Ty.firstRef?, firstRefOf?_types params, firstRef?_type result,
      Option.map_or]
  | .record ⟨_, _, _, _⟩ | .named _ | .void | .int _ | .uint _ | .float _ | .module _ | .todo => rfl

theorem firstRefOf?_types :
    ∀ ts : List Ty, Ty.firstRefOf? (ρ.types ts) = (Ty.firstRefOf? ts).map ρ.ref
  | [] => rfl
  | t :: ts => by
    rw [types, Ty.firstRefOf?, Ty.firstRefOf?, firstRef?_type t, firstRefOf?_types ts,
      Option.map_or]

end

theorem field?_record (decl : Record) (name : String) :
    (ρ.map.record decl).field? name = (decl.field? name).map ρ.map.field := by
  rw [Record.field?, Record.field?, Translation.record, List.find?_map]
  rfl

section Binding

variable {ρ} {f f' : TypeRef → Ty}

mutual

theorem bind_type (h : ∀ r, f' (ρ.ref r) = ρ.type (f r)) :
    ∀ t : Ty, (ρ.type t).bind f' = ρ.type (t.bind f)
  | .pointer t => congrArg Ty.pointer (bind_type h t)
  | .array t n => congrArg (Ty.array · n) (bind_type h t)
  | .func ⟨_, params, _, result⟩ => by
    rw [type, Ty.bind, Ty.bind, type, bindAll_types h params, bind_type h result]
  | .named r => h r
  | .record ⟨_, _, _, _⟩ | .void | .int _ | .uint _ | .float _ | .module _ | .todo => rfl

theorem bindAll_types (h : ∀ r, f' (ρ.ref r) = ρ.type (f r)) :
    ∀ ts : List Ty, Ty.bindAll f' (ρ.types ts) = ρ.types (Ty.bindAll f ts)
  | [] => rfl
  | t :: ts => by rw [types, Ty.bindAll, Ty.bindAll, types, bind_type h t, bindAll_types h ts]

end

end Binding

/-- What the renamed references stand for is what the references stand for, renamed. -/
structure Resolvers (r r' : Resolver) : Prop where
  hops : r'.hops = r.hops
  lookup : ∀ ref, r'.lookup (ρ.ref ref) = (r.lookup ref).map ρ.type

namespace Resolvers

variable {ρ} {r r' : Resolver} (h : ρ.Resolvers r r')
include h

theorem meaning? (ref : TypeRef) : r'.meaning? (ρ.ref ref) = (r.meaning? ref).map ρ.type := by
  rw [Resolver.meaning?, Resolver.meaning?, h.lookup]
  cases r.lookup ref with
  | none => rfl
  | some t =>
    have same : (ρ.type t).ref? = some (ρ.ref ref) ↔ t.ref? = some ref := by
      rw [ρ.ref?_type]
      cases t.ref? with
      | none => simp
      | some other => simp [ρ.ref_injective.eq_iff]
    by_cases own : t.ref? = some ref
    · simp [Option.filter, own, same.mpr own]
    · simp [Option.filter, own, mt same.mp own]

theorem resolveWithin (n : Nat) (t : Ty) :
    r'.resolveWithin n (ρ.type t) = ρ.type (r.resolveWithin n t) := by
  induction n generalizing t with
  | zero => rfl
  | succ n ih =>
    rw [Resolver.resolveWithin, Resolver.resolveWithin]
    refine bind_type (fun ref => ?_) t
    rw [h.meaning?]
    cases r.meaning? ref with
    | none => rfl
    | some u => exact ih u

theorem resolve (t : Ty) : r'.resolve (ρ.type t) = ρ.type (r.resolve t) := by
  rw [Resolver.resolve, Resolver.resolve, h.hops, h.resolveWithin]

theorem resolveSignature (sig : Signature) :
    r'.resolveSignature (ρ.map.signature sig) = ρ.map.signature (r.resolveSignature sig) := by
  simp [Resolver.resolveSignature, Translation.signature, Function.comp_def, h.resolve]

end Resolvers

mutual

theorem agrees_type : ∀ a b : Ty, (ρ.type a).agrees (ρ.type b) = a.agrees b
  | .pointer a, b => by cases b with
    | pointer b => exact agrees_type a b
    | _ => simp [type, Ty.agrees]
  | .array a m, b => by cases b with
    | array b n => rw [type, type, Ty.agrees, Ty.agrees, agrees_type a b]
    | _ => simp [type, Ty.agrees]
  | .func ⟨_, ps, _, r⟩, b => by cases b with
    | func sig =>
      obtain ⟨_, qs, _, s⟩ := sig
      rw [type, type, Ty.agrees, Ty.agrees, agreeAll_types ps qs, agrees_type r s]
    | _ => simp [type, Ty.agrees]
  | .record ⟨_, _, _, i⟩, b => by cases b with
    | record decl =>
      obtain ⟨_, _, _, j⟩ := decl
      have same : (ρ.id i == ρ.id j) = (i == j) := by
        rw [Bool.eq_iff_iff, beq_iff_eq, beq_iff_eq, ρ.id_injective.eq_iff]
      rw [type, type, Ty.agrees, Ty.agrees, same]
    | _ => simp [type, Ty.agrees]
  | .named x, b => by cases b with
    | named y =>
      rw [type, type, Ty.agrees, Ty.agrees, Bool.eq_iff_iff, beq_iff_eq, beq_iff_eq,
        ρ.ref_injective.eq_iff]
    | _ => simp [type, Ty.agrees]
  | .module x, b => by cases b with
    | module y =>
      rw [type, type, Ty.agrees, Ty.agrees, Bool.eq_iff_iff, beq_iff_eq, beq_iff_eq,
        ρ.name_injective.eq_iff]
    | _ => simp [type, Ty.agrees]
  | .void, b | .int _, b | .uint _, b | .float _, b | .todo, b => by
    cases b <;> simp [type, Ty.agrees]

theorem agreeAll_types :
    ∀ as bs : List Ty, Ty.agreeAll (ρ.types as) (ρ.types bs) = Ty.agreeAll as bs
  | [], [] => rfl
  | [], _ :: _ => rfl
  | _ :: _, [] => rfl
  | a :: as, b :: bs => by
    rw [types, types, Ty.agreeAll, Ty.agreeAll, agrees_type a b, agreeAll_types as bs]

end

theorem Resolvers.equals {ρ : Renaming} {r r' : Resolver} (h : ρ.Resolvers r r') (a b : Ty) :
    (ρ.type a).equals r' (ρ.type b) = a.equals r b := by
  rw [Ty.equals, Ty.equals, h.resolve, h.resolve, ρ.agrees_type]

def search (v : Bool × List String) : Bool × List String :=
  (v.1, v.2.map ρ.name)

section Storing

variable {ρ} {owner : String} {follow follow' : TypeRef → List String → Bool × List String}

mutual

theorem storesWith_type
    (h : ∀ ref seen, follow' (ρ.ref ref) (seen.map ρ.name) = ρ.search (follow ref seen)) :
    ∀ (t : Ty) (seen : List String),
      (ρ.type t).storesWith (ρ.name owner) follow' (seen.map ρ.name) =
        ρ.search (t.storesWith owner follow seen)
  | .array t _, seen => storesWith_type h t seen
  | .named ref, seen => h ref seen
  | .record ⟨_, name, fields, _⟩, seen => by
    have fresh : (seen.map ρ.name).contains (ρ.name name) = seen.contains name := by
      rw [Bool.eq_iff_iff, List.contains_iff_mem, List.contains_iff_mem,
        List.mem_map_of_injective ρ.name_injective]
    rw [type, Ty.storesWith, Ty.storesWith, if_congr ρ.name_injective.eq_iff rfl rfl, fresh]
    split
    · rfl
    · split
      · rfl
      · exact fieldsStoreWith_fields h fields (name :: seen)
  | .void, _ | .int _, _ | .uint _, _ | .float _, _ | .pointer _, _ | .func ⟨_, _, _, _⟩, _
  | .module _, _ | .todo, _ => rfl

theorem fieldsStoreWith_fields
    (h : ∀ ref seen, follow' (ρ.ref ref) (seen.map ρ.name) = ρ.search (follow ref seen)) :
    ∀ (fs : List Field) (seen : List String),
      Ty.fieldsStoreWith (ρ.name owner) follow' (ρ.fields fs) (seen.map ρ.name) =
        ρ.search (Ty.fieldsStoreWith owner follow fs seen)
  | [], _ => rfl
  | ⟨_, t⟩ :: fs, seen => by
    rw [fields, Ty.fieldsStoreWith, Ty.fieldsStoreWith, storesWith_type h t seen]
    cases t.storesWith owner follow seen with
    | mk found seen' =>
      cases found with
      | true => rfl
      | false => exact fieldsStoreWith_fields h fs seen'

end

end Storing

theorem Resolvers.storesWithin {ρ : Renaming} {r r' : Resolver} (h : ρ.Resolvers r r')
    (owner : String) (n : Nat) (t : Ty) (seen : List String) :
    (ρ.type t).storesWithin r'.lookup (ρ.name owner) n (seen.map ρ.name) =
      ρ.search (t.storesWithin r.lookup owner n seen) := by
  induction n generalizing t seen with
  | zero => rfl
  | succ n ih =>
    rw [Resolver.storesWithin_succ, Resolver.storesWithin_succ]
    refine storesWith_type (fun ref seen => ?_) t seen
    have own : (ρ.ref ref).modules = [] ∧ (ρ.ref ref).name = ρ.name owner ↔
        ref.modules = [] ∧ ref.name = owner := by
      simp [Renaming.ref, ρ.name_injective.eq_iff]
    rw [Resolver.followWithin, Resolver.followWithin, if_congr own rfl rfl, h.lookup]
    split
    · rfl
    · cases r.lookup ref with
      | none => rfl
      | some u => exact ih u seen

end Renaming

end FrontEnd
