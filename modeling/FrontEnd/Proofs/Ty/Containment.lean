import FrontEnd.Proofs.Ty.Following
import FrontEnd.Proofs.Ty.Records
import FrontEnd.Proofs.Typing.Clean

/-!
Which records are stored in the values of a type. What is stored behind references is looked up; in
a type in which nothing is left to look up, it stands in the type itself. The search through a type
goes by names, so it finds a record of the name that it is for, which need not be the one that was
meant.
-/

namespace FrontEnd

/-- A value of the type stores a value of the record: it is one, or one is stored in it. -/
inductive Ty.Contains (lookup : TypeRef → Option Ty) : Ty → Record → Prop
  | here {decl : Record} : Contains lookup (.record decl) decl
  | field {decl inner : Record} {f : Field} (mem : f ∈ decl.fields)
      (inside : Contains lookup f.ty inner) : Contains lookup (.record decl) inner
  | array {t : Ty} {n : Nat} {decl : Record} (inside : Contains lookup t decl) :
      Contains lookup (.array t n) decl
  | named {ref : TypeRef} {t : Ty} {decl : Record} (known : lookup ref = some t)
      (inside : Contains lookup t decl) : Contains lookup (.named ref) decl

namespace Ty

variable {lookup : TypeRef → Option Ty} {t : Ty} {decl : Record}

theorem contains_of_element (h : t.element.Contains lookup decl) : t.Contains lookup decl := by
  induction t using element.induct with
  | case1 t n ih => exact .array (ih h)
  | case2 t notArray =>
    rw [element] at h
    · exact h
    · exact notArray

theorem Contains.mem_records (h : t.Contains lookup decl) (known : t.Known)
    (fields : t.Of fun r => ∀ f ∈ r.fields, f.ty.Known) : decl ∈ t.records := by
  induction h with
  | @here decl =>
    obtain ⟨kind, name, fs, id⟩ := decl
    exact List.mem_cons_self
  | @field outer inner f mem _ ih =>
    obtain ⟨own, rest⟩ := of_record.mp fields
    have inside := ih (own f mem) (rest f mem)
    obtain ⟨kind, name, fs, id⟩ := outer
    exact List.mem_cons_of_mem _ (mem_recordsOfFields.mpr ⟨f, mem, inside⟩)
  | array _ ih => exact ih known fields
  | named _ _ _ => exact absurd rfl (known _)

end Ty

namespace Resolver

variable {r : Resolver} {owner : String}

theorem Recorded.resolve_of_lookup (h : r.Recorded) {ref : TypeRef} {t : Ty}
    (found : r.lookup ref = some t) : r.resolve (.named ref) = t := by
  rw [h.resolve_named, h.meaning?, found]
  rfl

theorem Recorded.lookup_of_resolve (h : r.Recorded) {ref : TypeRef}
    (notNamed : (r.resolve (.named ref)).ref? = .none) :
    r.lookup ref = some (r.resolve (.named ref)) := by
  rw [h.resolve_named, h.meaning?] at *
  cases found : r.lookup ref with
  | none => simp [found, Ty.ref?] at notNamed
  | some t => rfl

theorem Recorded.lookup_of_resolves (h : r.Recorded) {ref : TypeRef} {t : Ty}
    (resolved : r.Resolves (.named ref) t) (notNamed : t.ref? = .none) : r.lookup ref = some t := by
  cases resolved with
  | known meaning rest =>
    rw [h.meaning?] at meaning
    obtain ⟨decl, rfl⟩ := h.lookup meaning
    cases rest with
    | flat _ _ => exact meaning
  | unknown _ => simp [Ty.ref?] at notNamed
  | flat _ notRef => simp [Ty.ref?] at notRef

mutual

/-- What the search finds is stored. The name that it is for has to stand for a record of that
name. -/
theorem Recorded.contains_of_stores (h : r.Recorded)
    (own : ∀ ref : TypeRef, ref.modules = [] → ref.name = owner →
      ∃ decl, r.lookup ref = some (.record decl) ∧ decl.name = owner) :
    ∀ {t : Ty} {seen : List String} {v : Bool × List String}, r.Stores owner t seen v →
      v.1 = true → ∃ decl, t.Contains r.lookup decl ∧ decl.name = owner
  | _, _, _, .array element, found => by
    obtain ⟨decl, inside, same⟩ := h.contains_of_stores own element found
    exact ⟨decl, .array inside, same⟩
  | _, _, _, .own ⟨plain, name⟩, _ => by
    obtain ⟨decl, known, same⟩ := own _ plain name
    exact ⟨decl, .named known .here, same⟩
  | _, _, _, .known _ resolved notNamed behind, found => by
    obtain ⟨decl, inside, same⟩ := h.contains_of_stores own behind found
    exact ⟨decl, .named (h.lookup_of_resolves resolved notNamed) inside, same⟩
  | _, _, _, .owner same, _ => ⟨_, .here, same⟩
  | _, _, _, .fields _ _ stored, found => by
    obtain ⟨f, mem, decl, inside, same⟩ := h.contains_of_fieldsStore own stored found
    exact ⟨decl, .field mem inside, same⟩

theorem Recorded.contains_of_fieldsStore (h : r.Recorded)
    (own : ∀ ref : TypeRef, ref.modules = [] → ref.name = owner →
      ∃ decl, r.lookup ref = some (.record decl) ∧ decl.name = owner) :
    ∀ {fs : List Field} {seen : List String} {v : Bool × List String},
      r.FieldsStore owner fs seen v → v.1 = true →
        ∃ f ∈ fs, ∃ decl, f.ty.Contains r.lookup decl ∧ decl.name = owner
  | _, _, _, .found first, _ => ⟨_, List.mem_cons_self, h.contains_of_stores own first rfl⟩
  | _, _, _, .missed _ rest, found => by
    obtain ⟨f, mem, stored⟩ := h.contains_of_fieldsStore own rest found
    exact ⟨f, List.mem_cons_of_mem _ mem, stored⟩

end

end Resolver

end FrontEnd
