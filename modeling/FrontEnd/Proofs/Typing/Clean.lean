import FrontEnd.Proofs.Typing.Rules

namespace FrontEnd

/-- What a declaration makes of a name: a record of which nothing is left open. -/
def Ty.Declared (t : Ty) : Prop :=
  t.settled = true ∧ ∃ decl, t = .record decl

mutual

theorem Ty.settled_bind {f : TypeRef → Ty} (hf : ∀ ref, (f ref).settled = true) :
    ∀ t : Ty, t.settled = true → (t.bind f).settled = true
  | .pointer t, h => Ty.settled_bind hf t h
  | .array t _, h => Ty.settled_bind hf t h
  | .func ⟨_, params, _, result⟩, h => by
    simp only [Ty.settled, Bool.and_eq_true] at h
    simp only [Ty.bind, Ty.settled, Bool.and_eq_true]
    exact ⟨Ty.settledAll_bindAll hf params h.1, Ty.settled_bind hf result h.2⟩
  | .named ref, _ => hf ref
  | .void, _ | .int _, _ | .uint _, _ | .float _, _ | .module _, _ => rfl
  | .record _, h | .todo, h => h

theorem Ty.settledAll_bindAll {f : TypeRef → Ty} (hf : ∀ ref, (f ref).settled = true) :
    ∀ ts : List Ty, Ty.settledAll ts = true → Ty.settledAll (Ty.bindAll f ts) = true
  | [], _ => rfl
  | t :: ts, h => by
    simp only [Ty.settledAll, Bool.and_eq_true] at h
    simp only [Ty.bindAll, Ty.settledAll, Bool.and_eq_true]
    exact ⟨Ty.settled_bind hf t h.1, Ty.settledAll_bindAll hf ts h.2⟩

end

mutual

theorem Ty.bind_bind {f : TypeRef → Ty} (hf : ∀ ref, (f ref).bind f = f ref) :
    ∀ t : Ty, (t.bind f).bind f = t.bind f
  | .pointer t => congrArg Ty.pointer (Ty.bind_bind hf t)
  | .array t n => congrArg (Ty.array · n) (Ty.bind_bind hf t)
  | .func ⟨name, params, names, result⟩ => by
    simp only [Ty.bind, Ty.bindAll_bindAll hf params, Ty.bind_bind hf result]
  | .named ref => hf ref
  | .void | .int _ | .uint _ | .float _ | .module _ | .record _ | .todo => rfl

theorem Ty.bindAll_bindAll {f : TypeRef → Ty} (hf : ∀ ref, (f ref).bind f = f ref) :
    ∀ ts : List Ty, Ty.bindAll f (Ty.bindAll f ts) = Ty.bindAll f ts
  | [] => rfl
  | t :: ts => by simp only [Ty.bindAll, Ty.bind_bind hf t, Ty.bindAll_bindAll hf ts]

end

theorem Ty.bindAll_eq_map (f : TypeRef → Ty) (ts : List Ty) :
    Ty.bindAll f ts = ts.map (·.bind f) := by
  induction ts with
  | nil => rfl
  | cons t ts ih => simp [Ty.bindAll, ih]

theorem Ty.settledAll_iff {ts : List Ty} :
    Ty.settledAll ts = true ↔ ∀ t ∈ ts, t.settled = true := by
  induction ts with
  | nil => simp [Ty.settledAll]
  | cons t ts ih => simp [Ty.settledAll, ih]

theorem Ty.settledFields_iff {fs : List Field} :
    Ty.settledFields fs = true ↔ ∀ f ∈ fs, f.ty.settled = true := by
  induction fs with
  | nil => simp [Ty.settledFields]
  | cons f fs ih =>
    obtain ⟨name, t⟩ := f
    simp [Ty.settledFields, ih]

theorem Ty.settled_func {sig : Signature} :
    (Ty.func sig).settled = true ↔
      (∀ t ∈ sig.params, t.settled = true) ∧ sig.result.settled = true := by
  obtain ⟨name, params, names, result⟩ := sig
  simp [Ty.settled, Ty.settledAll_iff]

theorem Ty.settled_record {decl : Record} :
    (Ty.record decl).settled = true ↔ ∀ f ∈ decl.fields, f.ty.settled = true := by
  obtain ⟨kind, name, fields, id⟩ := decl
  simp [Ty.settled, Ty.settledFields_iff]

theorem Ty.isTodo_of_settled {t : Ty} (h : t.settled = true) : t.isTodo = false := by
  cases t <;> first | rfl | exact absurd h (by simp [Ty.settled])

theorem Ty.eq_of_agrees {t u : Ty} (ht : t.isNumeric = true) (hu : u.settled = true)
    (h : t.agrees u = true) : u = t := by
  cases t <;> cases u <;> simp_all [Ty.isNumeric, Ty.agrees, Ty.settled]

structure Resolver.Clean (r : Resolver) : Prop where
  hops : r.hops = 0
  lookup : ∀ {ref t}, r.lookup ref = some t → t.Declared

namespace Resolver

/-- What a reference is resolved to: the reference itself if it is unknown. -/
def meaning (r : Resolver) (ref : TypeRef) : Ty :=
  match r.meaning? ref with
  | some t => t
  | Option.none => .named ref

variable {r : Resolver} {t : Ty}

theorem Clean.resolve_eq (h : r.Clean) (t : Ty) : r.resolve t = t.bind r.meaning := by
  simp only [resolve, h.hops, resolveWithin]
  rfl

theorem Clean.meaning_cases (h : r.Clean) (ref : TypeRef) :
    (∃ decl, r.meaning ref = .record decl ∧ (Ty.record decl).settled = true) ∨
      r.meaning ref = .named ref := by
  unfold meaning
  cases known : r.meaning? ref with
  | none => exact .inr rfl
  | some t =>
    obtain ⟨settled, decl, rfl⟩ := h.lookup (Option.filter_eq_some_iff.mp known).1
    exact .inl ⟨decl, rfl, settled⟩

theorem Clean.settled_resolve (h : r.Clean) (ht : t.settled = true) :
    (r.resolve t).settled = true := by
  rw [h.resolve_eq]
  refine Ty.settled_bind (fun ref => ?_) t ht
  obtain ⟨decl, hm, settled⟩ | hm := h.meaning_cases ref
  · rw [hm]
    exact settled
  · rw [hm]
    rfl

theorem Clean.resolve_resolve (h : r.Clean) (t : Ty) : r.resolve (r.resolve t) = r.resolve t := by
  rw [h.resolve_eq, h.resolve_eq]
  refine Ty.bind_bind (fun ref => ?_) t
  obtain ⟨decl, hm, _⟩ | hm := h.meaning_cases ref
  · rw [hm]
    rfl
  · rw [hm]
    exact hm

theorem Clean.equals_resolve (h : r.Clean) (t u : Ty) :
    (r.resolve t).equals r u = t.equals r u := by
  simp only [Ty.equals, h.resolve_resolve]

@[simp]
theorem resolve_pointer (r : Resolver) (t : Ty) : r.resolve (.pointer t) = .pointer (r.resolve t) :=
  rfl

@[simp]
theorem resolve_array (r : Resolver) (t : Ty) (n : Nat) :
    r.resolve (.array t n) = .array (r.resolve t) n :=
  rfl

@[simp]
theorem resolve_func (r : Resolver) (sig : Signature) :
    r.resolve (.func sig) = .func (r.resolveSignature sig) := by
  obtain ⟨name, params, names, result⟩ := sig
  simp only [resolve, resolveSignature, resolveWithin, Ty.bind, Ty.bindAll_eq_map]
  rfl

theorem Clean.resolve_named (h : r.Clean) (ref : TypeRef) :
    (∃ decl, r.resolve (.named ref) = .record decl) ∨ r.resolve (.named ref) = .named ref := by
  rw [h.resolve_eq]
  obtain ⟨decl, hm, _⟩ | hm := h.meaning_cases ref
  · exact .inl ⟨decl, hm⟩
  · exact .inr hm

theorem Clean.resolve_eq_pointer (h : r.Clean) {u : Ty} (ht : r.resolve t = .pointer u) :
    ∃ target, t = .pointer target ∧ u = r.resolve target := by
  cases t with
  | pointer target => exact ⟨target, rfl, (Ty.pointer.inj ht).symm⟩
  | named ref => obtain ⟨decl, hm⟩ | hm := h.resolve_named ref <;> simp [hm] at ht
  | array _ _ | func _ => simp at ht
  | _ => exact absurd ht nofun

theorem Clean.resolve_eq_array (h : r.Clean) {u : Ty} {n : Nat} (ht : r.resolve t = .array u n) :
    ∃ element, t = .array element n ∧ u = r.resolve element := by
  cases t with
  | array element m =>
    obtain ⟨rfl, rfl⟩ := Ty.array.inj ht
    exact ⟨element, rfl, rfl⟩
  | named ref => obtain ⟨decl, hm⟩ | hm := h.resolve_named ref <;> simp [hm] at ht
  | pointer _ | func _ => simp at ht
  | _ => exact absurd ht nofun

theorem Clean.resolve_eq_func (h : r.Clean) {sig : Signature} (ht : r.resolve t = .func sig) :
    ∃ written, t = .func written ∧ sig = r.resolveSignature written := by
  cases t with
  | func written => exact ⟨written, rfl, by simpa using ht.symm⟩
  | named ref => obtain ⟨decl, hm⟩ | hm := h.resolve_named ref <;> simp [hm] at ht
  | pointer _ | array _ _ => simp at ht
  | _ => exact absurd ht nofun

theorem Clean.resolve_numeric (h : r.Clean) (ht : (r.resolve t).isNumeric = true) :
    r.resolve t = t := by
  cases t with
  | named ref =>
    obtain ⟨decl, hm⟩ | hm := h.resolve_named ref <;> simp [hm, Ty.isNumeric] at ht
  | pointer _ | array _ _ | func _ => simp [Ty.isNumeric] at ht
  | _ => rfl

theorem Clean.isPointer_resolve (h : r.Clean) (t : Ty) : (r.resolve t).isPointer = t.isPointer := by
  cases t with
  | named ref => obtain ⟨decl, hm⟩ | hm := h.resolve_named ref <;> simp [hm, Ty.isPointer]
  | func sig => simp [Ty.isPointer]
  | _ => rfl

theorem Clean.isCastable_resolve (h : r.Clean) (t : Ty) :
    Check.isCastable (r.resolve t) = Check.isCastable t := by
  cases t with
  | named ref =>
    obtain ⟨decl, hm⟩ | hm := h.resolve_named ref <;>
      simp [hm, Check.isCastable, Ty.isNumeric, Ty.isPointer, Ty.isArray]
  | func sig => simp [Check.isCastable, Ty.isNumeric, Ty.isPointer, Ty.isArray]
  | _ => rfl

theorem Clean.isTodo_resolve (h : r.Clean) (ht : t.settled = true) : (r.resolve t).isTodo = false :=
  Ty.isTodo_of_settled (h.settled_resolve ht)

theorem Clean.isNumeric_of_resolve (h : r.Clean) (ht : t.settled = true)
    (ok : ((r.resolve t).isTodo || (r.resolve t).isNumeric) = true) :
    t.isNumeric = true ∧ r.resolve t = t := by
  rw [h.isTodo_resolve ht, Bool.false_or] at ok
  have same := h.resolve_numeric ok
  exact ⟨same ▸ ok, same⟩

theorem Clean.isInteger_of_resolve (h : r.Clean) (ht : t.settled = true)
    (ok : ((r.resolve t).isTodo || (r.resolve t).isInteger) = true) : t.isInteger = true := by
  rw [h.isTodo_resolve ht, Bool.false_or] at ok
  have numeric : (r.resolve t).isNumeric = true := by
    cases hr : r.resolve t <;> simp_all [Ty.isInteger, Ty.isNumeric]
  exact h.resolve_numeric numeric ▸ ok

theorem Clean.isPointer_of_resolve (h : r.Clean) (ht : t.settled = true)
    (ok : ((r.resolve t).isTodo || (r.resolve t).isPointer) = true) : t.isPointer = true := by
  rw [h.isTodo_resolve ht, Bool.false_or] at ok
  exact h.isPointer_resolve t ▸ ok

theorem Clean.resolveSignature_resolveSignature (h : r.Clean) (sig : Signature) :
    r.resolveSignature (r.resolveSignature sig) = r.resolveSignature sig := by
  simp [resolveSignature, h.resolve_resolve, Function.comp_def]

theorem Clean.settled_resolveSignature (h : r.Clean) {sig : Signature}
    (hs : (Ty.func sig).settled = true) : (Ty.func (r.resolveSignature sig)).settled = true := by
  obtain ⟨params, result⟩ := Ty.settled_func.mp hs
  refine Ty.settled_func.mpr ⟨fun t ht => ?_, h.settled_resolve result⟩
  obtain ⟨u, hu, rfl⟩ := List.mem_map.mp ht
  exact h.settled_resolve (params u hu)

end Resolver

namespace Scopes

variable {α : Type} {p : α → Prop} {s : Scopes α}

def All (p : α → Prop) (s : Scopes α) : Prop :=
  ∀ name value, Entry.binding name value ∈ s.entries → p value

theorem all_empty : (empty : Scopes α).All p :=
  nofun

theorem All.add (h : s.All p) {name : String} {value : α} (hv : p value) :
    (s.add name value).All p := by
  intro n v mem
  obtain ⟨rfl, rfl⟩ | mem := (List.mem_cons.mp mem).imp_left Entry.binding.inj
  · exact hv
  · exact h n v mem

theorem All.enter (h : s.All p) : s.enter.All p := by
  intro n v mem
  exact h n v ((List.mem_cons.mp mem).resolve_left nofun)

theorem All.leave (h : s.All p) {t : Scopes α} (left : s.leave = .ok t) : t.All p := by
  have below : ∀ es es' : List (Entry α), belowFrame? es = some es' → es' ⊆ es := by
    intro es es' found
    fun_induction belowFrame? es with
    | case1 => cases found
    | case2 es =>
      cases found
      exact List.subset_cons_self _ _
    | case3 _ _ es ih => exact List.Subset.trans (ih found) (List.subset_cons_self _ _)
  unfold Scopes.leave at left
  split at left
  case h_1 es found =>
    cases left
    exact fun name value mem => h name value (below _ _ found mem)
  case h_2 => cases left

theorem All.get? (h : s.All p) {name : String} {value : α} (hv : s.get? name = some value) :
    p value := by
  obtain ⟨⟨_, depth⟩, found, rfl⟩ := Option.map_eq_some_iff.mp hv
  have bound : ∀ es : List (Entry α), ∀ v d, find? name es = some (v, d) →
      Entry.binding name v ∈ es := by
    intro es v d hf
    fun_induction find? name es with
    | case1 => simp at hf
    | case2 es ih => exact List.mem_cons_of_mem _ (ih hf)
    | case3 es w =>
      simp only [Option.some.injEq, Prod.mk.injEq] at hf
      exact hf.1 ▸ List.mem_cons_self
    | case4 n w es _ ih => exact List.mem_cons_of_mem _ (ih hf)
  exact h name _ (bound _ _ _ found)

end Scopes

theorem Table.mem_of_lookup {α : Type} {t : List (String × α)} {key : String} {value : α}
    (h : t.lookup key = some value) : (key, value) ∈ t := by
  obtain ⟨l₁, l₂, rfl, _⟩ := List.lookup_eq_some_iff.mp h
  simp

theorem Table.forall_insert {α : Type} {t : List (String × α)} {key : String} {value : α}
    {P : String × α → Prop} (h : ∀ p ∈ t, P p) (new : P (key, value)) :
    ∀ p ∈ Table.insert t key value, P p :=
  List.forall_mem_cons.mpr ⟨new, fun p mem => h p (List.mem_filter.mp mem).1⟩

/-- What holds of the types that names stand for, in a unit and in its modules. -/
inductive Environment.Holds (D : Ty → Prop) : Environment → Prop
  | intro {e : Environment} (types : ∀ name t, e.types.get? name = some t → D t)
      (modules : ∀ p ∈ e.modules, Environment.Holds D p.2.unit.env) : Environment.Holds D e

namespace Environment.Holds

variable {D D' : Ty → Prop} {e : Environment} {registry : List (String × Ty)} {t : Ty}

theorem imp (imp : ∀ t, D t → D' t) (h : e.Holds D) : e.Holds D' := by
  induction h with
  | intro types _ ih => exact .intro (fun name t found => imp t (types name t found)) ih

theorem type? (h : e.Holds D) (hr : ∀ p ∈ registry, D p.2) {name : String}
    (found : e.type? registry name = some t) : D t := by
  obtain ⟨types, _⟩ := h
  obtain own | ⟨_, shared⟩ := Option.or_eq_some_iff.mp found
  · exact types name t own
  · exact hr _ (Table.mem_of_lookup shared)

theorem module? (h : e.Holds D) {name : String} {m : Module} (found : e.module? name = some m) :
    m.unit.env.Holds D := by
  obtain ⟨_, modules⟩ := h
  exact modules _ (Table.mem_of_lookup found)

theorem typeThrough? (h : e.Holds D) (hr : ∀ p ∈ registry, D p.2) {name : String}
    {modules : List String} (found : Environment.typeThrough? registry name modules e = some t) :
    D t := by
  induction modules generalizing e with
  | nil => exact h.type? hr found
  | cons module modules ih =>
    simp only [Environment.typeThrough?] at found
    split at found
    case h_1 m isModule => exact ih (h.module? isModule) found
    case h_2 => simp at found

theorem lookup (h : e.Holds D) (hr : ∀ p ∈ registry, D p.2) {ref : TypeRef}
    (found : e.lookup registry ref = some t) : D t := by
  unfold Environment.lookup at found
  split at found
  case h_1 => exact h.type? hr found
  case h_2 =>
    split at found
    case h_1 m isModule => exact (h.module? isModule).typeThrough? hr found
    case h_2 => simp at found

end Environment.Holds

inductive Environment.Clean : Environment → Prop
  | intro {e : Environment} (vars : e.vars.All fun t => t.settled = true)
      (types : e.types.All Ty.Declared)
      (modules : ∀ p ∈ e.modules, Environment.Clean p.2.unit.env) : Environment.Clean e

namespace Environment

variable {e : Environment} {name : String}

theorem Clean.vars (h : e.Clean) : e.vars.All fun t => t.settled = true := by
  cases h
  assumption

theorem Clean.types (h : e.Clean) : e.types.All Ty.Declared := by
  cases h
  assumption

theorem Clean.module? (h : e.Clean) {m : Module} (hm : e.module? name = some m) :
    m.unit.env.Clean := by
  cases h with
  | intro _ _ modules => exact modules _ (Table.mem_of_lookup hm)

theorem Clean.holds (h : e.Clean) : e.Holds Ty.Declared := by
  induction h with
  | intro _ types _ ih => exact .intro (fun _ _ found => types.get? found) ih

end Environment

structure Context.Clean (Γ : Context) : Prop where
  env : Γ.env.Clean
  registry : ∀ p ∈ Γ.registry, p.2.Declared
  expected : ∀ t, Γ.expected = some t → t.settled = true

namespace Context

variable {Γ : Context} {t : Ty}

theorem clean_start (id : String) (directory : Path) {registry : List (String × Ty)}
    (h : ∀ p ∈ registry, p.2.Declared) : (start id directory registry).Clean :=
  ⟨.intro Scopes.all_empty Scopes.all_empty nofun, h, nofun⟩

theorem Clean.resolver (h : Γ.Clean) : Γ.resolver.Clean :=
  ⟨rfl, fun ht => h.env.holds.lookup h.registry ht⟩

theorem Clean.settled_resolve (h : Γ.Clean) (ht : t.settled = true) :
    (Γ.resolve t).settled = true :=
  h.resolver.settled_resolve ht

theorem Clean.settled_fieldType (h : Γ.Clean) (ht : t.settled = true) :
    (Γ.fieldType t).settled = true := by
  induction t using Ty.nested with
  | array t n ih => exact ih ht
  | named ref => exact h.settled_resolve ht
  | _ => exact ht

theorem Clean.declare (h : Γ.Clean) (name : String) (ht : t.settled = true) :
    (Γ.declare name t).Clean := by
  obtain ⟨⟨vars, types, modules⟩, registry, expected⟩ := h
  exact ⟨⟨vars.add ht, types, modules⟩, registry, expected⟩

theorem Clean.declareEach (h : Γ.Clean) (names : List String) {types : List Ty}
    (ht : ∀ t ∈ types, t.settled = true) : (Γ.declareEach names types).Clean := by
  induction names generalizing Γ types with
  | nil => exact h
  | cons name names ih =>
    cases types with
    | nil => exact h
    | cons t types =>
      obtain ⟨first, rest⟩ := List.forall_mem_cons.mp ht
      exact ih (h.declare name first) rest

theorem Clean.define (h : Γ.Clean) (name : String) {decl : Record}
    (hd : (Ty.record decl).settled = true) : (Γ.define name (.record decl)).Clean := by
  have declared : (Ty.record decl).Declared := ⟨hd, decl, rfl⟩
  obtain ⟨⟨vars, types, modules⟩, registry, expected⟩ := h
  refine ⟨⟨vars, types.add declared, modules⟩, ?_, expected⟩
  unfold Context.define
  split
  · exact Table.forall_insert registry declared
  · exact registry

theorem Clean.enter (h : Γ.Clean) : Γ.enter.Clean := by
  obtain ⟨⟨vars, types, modules⟩, registry, expected⟩ := h
  exact ⟨⟨vars.enter, types.enter, modules⟩, registry, expected⟩

theorem Clean.enterFunction (h : Γ.Clean) {sig : Signature} (hs : (Ty.func sig).settled = true) :
    (Γ.enterFunction sig).Clean := by
  obtain ⟨params, result⟩ := Ty.settled_func.mp hs
  have inner := h.enter.declareEach sig.names params
  exact ⟨inner.env, inner.registry, fun t ht => Option.some.inj ht ▸ result⟩

theorem Clean.leave (h : Γ.Clean) {around : Context} (ha : around.Clean) :
    (Γ.leave around).Clean := by
  obtain ⟨⟨_, _, modules⟩, registry, expected⟩ := h
  exact ⟨⟨ha.env.vars, ha.env.types, modules⟩, registry, expected⟩

theorem Clean.recordFunction (h : Γ.Clean) (f : FunctionDecl) : (Γ.recordFunction f).Clean := by
  obtain ⟨⟨vars, types, modules⟩, registry, expected⟩ := h
  exact ⟨⟨vars, types, modules⟩, registry, expected⟩

theorem Clean.addModule (h : Γ.Clean) {m : Module} {registry : List (String × Ty)}
    (hm : m.unit.env.Clean) (hr : ∀ p ∈ registry, p.2.Declared) :
    (Γ.addModule m registry).Clean := by
  obtain ⟨⟨vars, types, modules⟩, _, expected⟩ := h
  exact ⟨⟨vars, types, Table.forall_insert modules hm⟩, hr, expected⟩

end Context

end FrontEnd
