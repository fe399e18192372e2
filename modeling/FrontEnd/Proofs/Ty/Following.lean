import FrontEnd.Checking.Records

/-!
Following references with no bound on how many are followed. Each relation here is one of the
recursions through the names of types as it would be written down without a bound; a derivation is a
recursion that comes to an end. Where names stand for records, each of them ends, and with the value
that the bounded functions compute.
-/

namespace FrontEnd

namespace Ty

/-- A type that holds no other types, or holds them as fields. -/
def isFlat : Ty → Bool
  | .pointer _ | .array _ _ | .func _ => false
  | _ => true

def areAlike : Ty → Ty → Bool
  | .pointer _, .pointer _ | .array _ _, .array _ _ | .func _, .func _ => true
  | _, _ => false

section

attribute [local simp] isFlat areAlike agrees isTodo

variable {t u : Ty}

theorem agrees_of_flat_left (ht : t.isFlat = true) (hu : u.isFlat = false) :
    t.agrees u = t.isTodo := by
  cases t <;> cases u <;> simp_all

theorem agrees_of_flat_right (ht : t.isFlat = false) (hu : u.isFlat = true) :
    t.agrees u = u.isTodo := by
  cases t <;> cases u <;> simp_all

theorem agrees_of_not_alike (ht : t.isFlat = false) (hu : u.isFlat = false)
    (h : t.areAlike u = false) : t.agrees u = false := by
  cases t <;> cases u <;> simp_all

theorem areAlike_of_flat_left (ht : t.isFlat = true) : t.areAlike u = false := by
  cases t <;> simp_all

theorem areAlike_of_flat_right (hu : u.isFlat = true) : t.areAlike u = false := by
  cases t <;> cases u <;> simp_all

end

end Ty

/-- Where following references from a type ends. -/
inductive Resolver.Unwraps (r : Resolver) : Ty → Ty → Prop
  | known {ref t u} (meaning : r.meaning? ref = some t) (rest : Unwraps r t u) :
      Unwraps r (.named ref) u
  | unknown {ref} (meaning : r.meaning? ref = .none) : Unwraps r (.named ref) (.named ref)
  | other {t} (notNamed : t.ref? = .none) : Unwraps r t t

mutual

inductive Resolver.Resolves (r : Resolver) : Ty → Ty → Prop
  | known {ref t u} (meaning : r.meaning? ref = some t) (rest : Resolves r t u) :
      Resolves r (.named ref) u
  | unknown {ref} (meaning : r.meaning? ref = .none) : Resolves r (.named ref) (.named ref)
  | pointer {t u} (target : Resolves r t u) : Resolves r (.pointer t) (.pointer u)
  | array {t u n} (element : Resolves r t u) : Resolves r (.array t n) (.array u n)
  | func {name ts us names t u} (params : ResolvesAll r ts us) (result : Resolves r t u) :
      Resolves r (.func ⟨name, ts, names, t⟩) (.func ⟨name, us, names, u⟩)
  | flat {t} (flat : t.isFlat = true) (notNamed : t.ref? = .none) : Resolves r t t

inductive Resolver.ResolvesAll (r : Resolver) : List Ty → List Ty → Prop
  | nil : ResolvesAll r [] []
  | cons {t u ts us} (first : Resolves r t u) (rest : ResolvesAll r ts us) :
      ResolvesAll r (t :: ts) (u :: us)

end

mutual

/-- What comparing two types ends with: references are followed on both sides before the forms
are compared. -/
inductive Resolver.Compares (r : Resolver) : Ty → Ty → Bool → Prop
  | pointer {a b t u v} (left : Unwraps r a (.pointer t)) (right : Unwraps r b (.pointer u))
      (targets : Compares r t u v) : Compares r a b v
  | array {a b t m u n v} (left : Unwraps r a (.array t m)) (right : Unwraps r b (.array u n))
      (elements : Compares r t u v) : Compares r a b (m == n && v)
  | func {a b name ts names t name' us names' u v w}
      (left : Unwraps r a (.func ⟨name, ts, names, t⟩))
      (right : Unwraps r b (.func ⟨name', us, names', u⟩)) (params : ComparesAll r ts us v)
      (results : Compares r t u w) : Compares r a b (v && w)
  | forms {a b t u} (left : Unwraps r a t) (right : Unwraps r b u)
      (notAlike : t.areAlike u = false) : Compares r a b (t.agrees u)

inductive Resolver.ComparesAll (r : Resolver) : List Ty → List Ty → Bool → Prop
  | nil : ComparesAll r [] [] true
  | cons {a as b bs v w} (first : Compares r a b v) (rest : ComparesAll r as bs w) :
      ComparesAll r (a :: as) (b :: bs) (v && w)
  | longer {a as} : ComparesAll r (a :: as) [] false
  | shorter {b bs} : ComparesAll r [] (b :: bs) false

end

mutual

/-- What the search for a value of `owner` in a type ends with: whether there is one, and the
records that were gone into, `seen` being those gone into before. -/
inductive Resolver.Stores (r : Resolver) (owner : String) :
    Ty → List String → Bool × List String → Prop
  | array {t n seen v} (element : Stores r owner t seen v) : Stores r owner (.array t n) seen v
  | own {ref seen} (own : ref.modules = [] ∧ ref.name = owner) :
      Stores r owner (.named ref) seen (true, seen)
  | unknown {ref ref' seen} (other : ¬ (ref.modules = [] ∧ ref.name = owner))
      (resolved : Resolves r (.named ref) (.named ref')) :
      Stores r owner (.named ref) seen (false, seen)
  | known {ref t seen v} (other : ¬ (ref.modules = [] ∧ ref.name = owner))
      (resolved : Resolves r (.named ref) t) (notNamed : t.ref? = .none)
      (inside : Stores r owner t seen v) : Stores r owner (.named ref) seen v
  | owner {decl seen} (same : decl.name = owner) : Stores r owner (.record decl) seen (true, seen)
  | again {decl seen} (other : decl.name ≠ owner) (old : decl.name ∈ seen) :
      Stores r owner (.record decl) seen (false, seen)
  | fields {decl seen v} (other : decl.name ≠ owner) (new : decl.name ∉ seen)
      (inside : FieldsStore r owner decl.fields (decl.name :: seen) v) :
      Stores r owner (.record decl) seen v
  | other {t seen} (notArray : t.isArray = false) (notNamed : t.ref? = .none)
      (notRecord : ∀ decl, t ≠ .record decl) : Stores r owner t seen (false, seen)

inductive Resolver.FieldsStore (r : Resolver) (owner : String) :
    List Field → List String → Bool × List String → Prop
  | nil {seen} : FieldsStore r owner [] seen (false, seen)
  | found {f fs seen seen'} (first : Stores r owner f.ty seen (true, seen')) :
      FieldsStore r owner (f :: fs) seen (true, seen')
  | missed {f fs seen seen' v} (first : Stores r owner f.ty seen (false, seen'))
      (rest : FieldsStore r owner fs seen' v) : FieldsStore r owner (f :: fs) seen v

end

namespace Resolver

variable {r : Resolver}

theorem Unwraps.unique {t u v : Ty} (h : r.Unwraps t u) (h' : r.Unwraps t v) : u = v := by
  induction h with
  | known meaning _ ih =>
    cases h' with
    | known meaning' rest' =>
      cases meaning.symm.trans meaning'
      exact ih rest'
    | unknown unknown => cases meaning.symm.trans unknown
    | other notNamed => cases notNamed
  | unknown unknown =>
    cases h' with
    | known meaning' _ => cases unknown.symm.trans meaning'
    | _ => rfl
  | other notNamed =>
    cases h' with
    | known | unknown => cases notNamed
    | other => rfl

mutual

theorem Resolves.unique : ∀ {t u v : Ty}, r.Resolves t u → r.Resolves t v → u = v
  | _, _, _, .known meaning rest, h' => by
    cases h' with
    | known meaning' rest' =>
      cases meaning'.symm.trans meaning
      exact rest.unique rest'
    | unknown unknown => cases meaning.symm.trans unknown
    | flat _ notNamed => cases notNamed
  | _, _, _, .unknown unknown, h' => by
    cases h' with
    | known meaning' _ => cases unknown.symm.trans meaning'
    | _ => rfl
  | _, _, _, .pointer target, h' => by
    cases h' with
    | pointer target' => rw [target.unique target']
    | flat flat => cases flat
  | _, _, _, .array element, h' => by
    cases h' with
    | array element' => rw [element.unique element']
    | flat flat => cases flat
  | _, _, _, .func params result, h' => by
    cases h' with
    | func params' result' => rw [params.unique params', result.unique result']
    | flat flat => cases flat
  | _, _, _, .flat flat notNamed, h' => by
    cases h' with
    | known | unknown => cases notNamed
    | pointer | array | func => cases flat
    | flat => rfl

theorem ResolvesAll.unique : ∀ {ts us vs : List Ty}, r.ResolvesAll ts us → r.ResolvesAll ts vs →
    us = vs
  | _, _, _, .nil, h' => by
    cases h'
    rfl
  | _, _, _, .cons first rest, h' => by
    cases h' with
    | cons first' rest' => rw [first.unique first', rest.unique rest']

end

theorem Compares.eq_agrees {a b t u : Ty} {v : Bool} (h : r.Compares a b v) (left : r.Unwraps a t)
    (right : r.Unwraps b u) (notAlike : t.areAlike u = false) : v = t.agrees u := by
  cases h with
  | pointer left' right' | array left' right' | func left' right' =>
    cases left.unique left'
    cases right.unique right'
    cases notAlike
  | forms left' right' => rw [left.unique left', right.unique right']

mutual

theorem Compares.unique : ∀ {a b : Ty} {v w : Bool}, r.Compares a b v → r.Compares a b w → v = w
  | _, _, _, _, .pointer left right targets, h' => by
    cases h' with
    | pointer left' right' targets' =>
      cases left'.unique left
      cases right'.unique right
      exact targets.unique targets'
    | array left' | func left' => cases left.unique left'
    | forms left' right' notAlike =>
      exact (Compares.pointer left right targets).eq_agrees left' right' notAlike
  | _, _, _, _, .array left right elements, h' => by
    cases h' with
    | array left' right' elements' =>
      cases left'.unique left
      cases right'.unique right
      rw [elements.unique elements']
    | pointer left' | func left' => cases left.unique left'
    | forms left' right' notAlike =>
      exact (Compares.array left right elements).eq_agrees left' right' notAlike
  | _, _, _, _, .func left right params results, h' => by
    cases h' with
    | func left' right' params' results' =>
      cases left'.unique left
      cases right'.unique right
      rw [params.unique params', results.unique results']
    | pointer left' | array left' => cases left.unique left'
    | forms left' right' notAlike =>
      exact (Compares.func left right params results).eq_agrees left' right' notAlike
  | _, _, _, _, .forms left right notAlike, h' => (h'.eq_agrees left right notAlike).symm

theorem ComparesAll.unique : ∀ {as bs : List Ty} {v w : Bool}, r.ComparesAll as bs v →
    r.ComparesAll as bs w → v = w
  | _, _, _, _, .nil, h' | _, _, _, _, .longer, h' | _, _, _, _, .shorter, h' => by
    cases h'
    rfl
  | _, _, _, _, .cons first rest, h' => by
    cases h' with
    | cons first' rest' => rw [first.unique first', rest.unique rest']

end

mutual

theorem Stores.unique {owner : String} : ∀ {t : Ty} {seen : List String} {v w : Bool × List String},
    r.Stores owner t seen v → r.Stores owner t seen w → v = w
  | _, _, _, _, .array element, h' => by
    cases h' with
    | array element' => exact element.unique element'
    | other notArray => cases notArray
  | _, _, _, _, .own own, h' => by
    cases h' with
    | own => rfl
    | unknown other | known other => exact absurd own other
    | other _ notNamed => cases notNamed
  | _, _, _, _, .unknown other resolved, h' => by
    cases h' with
    | own own => exact absurd own other
    | unknown => rfl
    | known _ resolved' notNamed =>
      cases resolved.unique resolved'
      cases notNamed
    | other _ notNamed => cases notNamed
  | _, _, _, _, .known other resolved notNamed inside, h' => by
    cases h' with
    | own own => exact absurd own other
    | unknown _ resolved' =>
      cases resolved.unique resolved'
      cases notNamed
    | known _ resolved' _ inside' =>
      cases resolved'.unique resolved
      exact inside.unique inside'
    | other _ named => cases named
  | _, _, _, _, .owner same, h' => by
    cases h' with
    | owner => rfl
    | again other | fields other => exact absurd same other
    | other _ _ notRecord => exact absurd rfl (notRecord _)
  | _, _, _, _, .again other old, h' => by
    cases h' with
    | owner same => exact absurd same other
    | again => rfl
    | fields _ new => exact absurd old new
    | other _ _ notRecord => exact absurd rfl (notRecord _)
  | _, _, _, _, .fields other new inside, h' => by
    cases h' with
    | owner same => exact absurd same other
    | again _ old => exact absurd old new
    | fields _ _ inside' => exact inside.unique inside'
    | other _ _ notRecord => exact absurd rfl (notRecord _)
  | _, _, _, _, .other notArray notNamed notRecord, h' => by
    cases h' with
    | array => cases notArray
    | own | unknown | known => cases notNamed
    | owner | again | fields => exact absurd rfl (notRecord _)
    | other => rfl

theorem FieldsStore.unique {owner : String} :
    ∀ {fs : List Field} {seen : List String} {v w : Bool × List String},
      r.FieldsStore owner fs seen v → r.FieldsStore owner fs seen w → v = w
  | _, _, _, _, .nil, h' => by
    cases h'
    rfl
  | _, _, _, _, .found first, h' => by
    cases h' with
    | found first' => exact first.unique first'
    | missed first' => cases first.unique first'
  | _, _, _, _, .missed first rest, h' => by
    cases h' with
    | found first' => cases first.unique first'
    | missed first' rest' =>
      cases (first.unique first').symm
      exact rest.unique rest'

end

end Resolver

/-- A resolver whose names stand for records, which leave nothing to follow. -/
structure Resolver.Recorded (r : Resolver) : Prop where
  hops : r.hops = 0
  lookup : ∀ {ref t}, r.lookup ref = some t → ∃ decl, t = .record decl

namespace Resolver

variable {r : Resolver}

theorem Recorded.meaning? (h : r.Recorded) (ref : TypeRef) : r.meaning? ref = r.lookup ref := by
  unfold Resolver.meaning?
  cases found : r.lookup ref with
  | none => rfl
  | some t =>
    obtain ⟨decl, rfl⟩ := h.lookup found
    rfl

theorem Recorded.meaning_cases (h : r.Recorded) (ref : TypeRef) :
    r.meaning? ref = .none ∨ ∃ decl, r.meaning? ref = some (.record decl) := by
  rw [h.meaning?]
  cases found : r.lookup ref with
  | none => exact .inl rfl
  | some t =>
    obtain ⟨decl, rfl⟩ := h.lookup found
    exact .inr ⟨decl, rfl⟩

theorem Recorded.resolve_named (h : r.Recorded) (ref : TypeRef) :
    r.resolve (.named ref) = (r.meaning? ref).getD (.named ref) := by
  obtain unknown | ⟨decl, known⟩ := h.meaning_cases ref
  · simp [resolve, resolveWithin, Ty.bind, unknown]
  · simp [resolve, h.hops, resolveWithin, Ty.bind, known]

theorem Recorded.resolves_named (h : r.Recorded) (ref : TypeRef) :
    r.Resolves (.named ref) (r.resolve (.named ref)) := by
  rw [h.resolve_named]
  obtain unknown | ⟨decl, known⟩ := h.meaning_cases ref
  · rw [unknown]
    exact .unknown unknown
  · rw [known]
    exact .known known (.flat rfl rfl)

mutual

theorem Recorded.resolves (h : r.Recorded) : (t : Ty) → r.Resolves t (r.resolve t)
  | .named ref => h.resolves_named ref
  | .pointer t => .pointer (h.resolves t)
  | .array t _ => .array (h.resolves t)
  | .func ⟨_, ts, _, t⟩ => .func (h.resolvesAll ts) (h.resolves t)
  | .void | .int _ | .uint _ | .float _ | .record _ | .module _ | .todo => .flat rfl rfl

theorem Recorded.resolvesAll (h : r.Recorded) : (ts : List Ty) →
    r.ResolvesAll ts (Ty.bindAll (fun ref => r.resolve (.named ref)) ts)
  | [] => .nil
  | t :: ts => .cons (h.resolves t) (h.resolvesAll ts)

end

theorem Recorded.unwrap_named (h : r.Recorded) (ref : TypeRef) :
    r.unwrap (.named ref) = (r.meaning? ref).getD (.named ref) := by
  obtain unknown | ⟨decl, known⟩ := h.meaning_cases ref
  · simp [unwrap, unwrapWithin, unknown]
  · simp [unwrap, h.hops, unwrapWithin, known]

theorem Recorded.unwraps (h : r.Recorded) (t : Ty) : r.Unwraps t (r.unwrap t) := by
  cases t with
  | named ref =>
    rw [h.unwrap_named]
    obtain unknown | ⟨decl, known⟩ := h.meaning_cases ref
    · rw [unknown]
      exact .unknown unknown
    · rw [known]
      exact .known known (.other rfl)
  | _ => exact .other rfl

theorem Recorded.unwrap_cases (h : r.Recorded) (t : Ty) :
    (r.resolve t = r.unwrap t ∧ (r.unwrap t).isFlat = true) ∨
      (r.unwrap t = t ∧ t.isFlat = false ∧ (r.resolve t).isFlat = false ∧
        ∀ u, (r.resolve t).areAlike u = t.areAlike u ∧
          u.areAlike (r.resolve t) = u.areAlike t) := by
  cases t with
  | named ref =>
    left
    simp only [h.resolve_named, h.unwrap_named, true_and]
    obtain unknown | ⟨decl, known⟩ := h.meaning_cases ref
    · rw [unknown]
      rfl
    · rw [known]
      rfl
  | pointer _ | array _ _ =>
    refine .inr ⟨rfl, rfl, rfl, fun u => ?_⟩
    cases u <;> exact ⟨rfl, rfl⟩
  | func sig =>
    cases sig
    refine .inr ⟨rfl, rfl, rfl, fun u => ?_⟩
    cases u <;> exact ⟨rfl, rfl⟩
  | _ => exact .inl ⟨rfl, rfl⟩

theorem Recorded.equals_of_not_alike (h : r.Recorded) {a b : Ty} (notAlike : a.areAlike b = false) :
    a.equals r b = (r.unwrap a).agrees (r.unwrap b) ∧
      (r.unwrap a).areAlike (r.unwrap b) = false := by
  unfold Ty.equals
  obtain ⟨eqa, flata⟩ | ⟨heada, flata, flata', likea⟩ := h.unwrap_cases a
  · rw [eqa]
    refine ⟨?_, Ty.areAlike_of_flat_left flata⟩
    obtain ⟨eqb, flatb⟩ | ⟨headb, flatb, flatb', -⟩ := h.unwrap_cases b
    · rw [eqb]
    · rw [headb, Ty.agrees_of_flat_left flata flatb, Ty.agrees_of_flat_left flata flatb']
  · rw [heada]
    obtain ⟨eqb, flatb⟩ | ⟨headb, flatb, flatb', likeb⟩ := h.unwrap_cases b
    · rw [eqb, Ty.agrees_of_flat_right flata flatb, Ty.agrees_of_flat_right flata' flatb]
      exact ⟨rfl, Ty.areAlike_of_flat_right flatb⟩
    · have unlike : (r.resolve a).areAlike (r.resolve b) = false := by
        rw [(likeb _).2, (likea _).1, notAlike]
      rw [headb, Ty.agrees_of_not_alike flata flatb notAlike,
        Ty.agrees_of_not_alike flata' flatb' unlike]
      exact ⟨rfl, notAlike⟩

mutual

theorem Recorded.compares (h : r.Recorded) (a b : Ty) : r.Compares a b (a.equals r b) := by
  by_cases alike : a.areAlike b = true
  · cases a with
    | pointer t =>
      cases b with
      | pointer u => exact .pointer (.other rfl) (.other rfl) (h.compares t u)
      | _ => exact absurd alike (by simp [Ty.areAlike])
    | array t m =>
      cases b with
      | array u n => exact .array (.other rfl) (.other rfl) (h.compares t u)
      | _ => exact absurd alike (by simp [Ty.areAlike])
    | func sig =>
      obtain ⟨name, ts, names, t⟩ := sig
      cases b with
      | func sig =>
        obtain ⟨name', us, names', u⟩ := sig
        exact .func (.other rfl) (.other rfl) (h.comparesAll ts us) (h.compares t u)
      | _ => exact absurd alike (by simp [Ty.areAlike])
    | _ => exact absurd alike (by simp [Ty.areAlike])
  · obtain ⟨eq, notAlike⟩ := h.equals_of_not_alike (by simpa using alike)
    rw [eq]
    exact .forms (h.unwraps a) (h.unwraps b) notAlike

theorem Recorded.comparesAll (h : r.Recorded) (as bs : List Ty) :
    r.ComparesAll as bs (Ty.agreeAll (Ty.bindAll (fun ref => r.resolve (.named ref)) as)
      (Ty.bindAll (fun ref => r.resolve (.named ref)) bs)) := by
  cases as with
  | nil =>
    cases bs with
    | nil => exact .nil
    | cons b bs => exact .shorter
  | cons a as =>
    cases bs with
    | nil => exact .longer
    | cons b bs => exact .cons (h.compares a b) (h.comparesAll as bs)

end

theorem Recorded.unwraps_iff (h : r.Recorded) {t u : Ty} : r.Unwraps t u ↔ u = r.unwrap t := by
  constructor
  · intro ends
    exact ends.unique (h.unwraps t)
  · rintro rfl
    exact h.unwraps t

theorem Recorded.resolves_iff (h : r.Recorded) {t u : Ty} : r.Resolves t u ↔ u = r.resolve t := by
  constructor
  · intro ends
    exact ends.unique (h.resolves t)
  · rintro rfl
    exact h.resolves t

theorem Recorded.compares_iff (h : r.Recorded) {a b : Ty} {v : Bool} :
    r.Compares a b v ↔ v = a.equals r b := by
  constructor
  · intro ends
    exact ends.unique (h.compares a b)
  · rintro rfl
    exact h.compares a b

/-- The records of a list that are still to be gone into. -/
def unseen (declared : List Ty) (seen : List String) : List Ty :=
  declared.filter fun
    | .record decl => !seen.contains decl.name
    | _ => false

theorem length_unseen_le {declared : List Ty} {seen seen' : List String} (h : seen ⊆ seen') :
    (unseen declared seen').length ≤ (unseen declared seen).length := by
  unfold unseen
  rw [← List.countP_eq_length_filter, ← List.countP_eq_length_filter]
  refine List.countP_mono_left fun t _ => ?_
  cases t with
  | record decl =>
    simp only [Bool.not_eq_true', List.contains_eq_mem, decide_eq_false_iff_not]
    exact fun new old => new (h old)
  | _ => simp

theorem length_unseen_lt {declared : List Ty} {decl : Record} {seen : List String}
    (declares : Ty.record decl ∈ declared) (new : decl.name ∉ seen) :
    (unseen declared (decl.name :: seen)).length < (unseen declared seen).length := by
  have fewer : unseen declared (decl.name :: seen) =
      (unseen declared seen).filter fun
        | .record d => d.name ≠ decl.name
        | _ => false := by
    unfold unseen
    rw [List.filter_filter]
    congr 1
    funext t
    cases t <;> simp
  rw [fewer]
  refine List.length_filter_lt_length_iff_exists.mpr ⟨.record decl, ?_, by simp⟩
  exact List.mem_filter.mpr ⟨declares, by simpa using new⟩

/-- What a reference stores, with at most `n` references followed inside each other. -/
def followWithin (r : Resolver) (owner : String) (n : Nat) (ref : TypeRef) (seen : List String) :
    Bool × List String :=
  if ref.modules = [] ∧ ref.name = owner then (true, seen)
  else
    match r.lookup ref with
    | some u => u.storesWithin r.lookup owner n seen
    | Option.none => (false, seen)

theorem storesWithin_succ (owner : String) (n : Nat) (t : Ty) (seen : List String) :
    t.storesWithin r.lookup owner (n + 1) seen = t.storesWith owner (r.followWithin owner n) seen :=
  rfl

section

variable {owner : String} {follow : TypeRef → List String → Bool × List String}
  {seen₀ : List String}

mutual

/-- The search through a type ends if it ends for the references in it. Records that were gone into
are not forgotten. -/
theorem stores_storesWith (hf : ∀ ref seen, seen₀ ⊆ seen →
      r.Stores owner (.named ref) seen (follow ref seen) ∧ seen ⊆ (follow ref seen).2)
    (t : Ty) (seen : List String) (h : seen₀ ⊆ seen) :
    r.Stores owner t seen (t.storesWith owner follow seen) ∧
      seen ⊆ (t.storesWith owner follow seen).2 := by
  cases t with
  | array t n =>
    obtain ⟨element, kept⟩ := stores_storesWith hf t seen h
    exact ⟨.array element, kept⟩
  | named ref => exact hf ref seen h
  | record decl =>
    obtain ⟨kind, name, fields, id⟩ := decl
    simp only [Ty.storesWith]
    split
    case isTrue same => exact ⟨.owner same, List.Subset.refl _⟩
    case isFalse other =>
      split
      case isTrue old => exact ⟨.again other (by simpa using old), List.Subset.refl _⟩
      case isFalse new =>
        have more : seen₀ ⊆ name :: seen := fun x hx => List.mem_cons_of_mem _ (h hx)
        obtain ⟨inside, kept⟩ := fieldsStore_fieldsStoreWith hf fields (name :: seen) more
        exact ⟨.fields other (by simpa using new) inside,
          fun x hx => kept (List.mem_cons_of_mem _ hx)⟩
  | _ => exact ⟨.other rfl rfl (by simp), List.Subset.refl _⟩

theorem fieldsStore_fieldsStoreWith (hf : ∀ ref seen, seen₀ ⊆ seen →
      r.Stores owner (.named ref) seen (follow ref seen) ∧ seen ⊆ (follow ref seen).2)
    (fs : List Field) (seen : List String) (h : seen₀ ⊆ seen) :
    r.FieldsStore owner fs seen (Ty.fieldsStoreWith owner follow fs seen) ∧
      seen ⊆ (Ty.fieldsStoreWith owner follow fs seen).2 := by
  cases fs with
  | nil => exact ⟨.nil, List.Subset.refl _⟩
  | cons f fs =>
    obtain ⟨name, t⟩ := f
    obtain ⟨first, kept⟩ := stores_storesWith hf t seen h
    simp only [Ty.fieldsStoreWith]
    split
    case h_1 seen' eq =>
      rw [eq] at first kept
      exact ⟨.found first, kept⟩
    case h_2 seen' eq =>
      rw [eq] at first kept
      obtain ⟨rest, kept'⟩ := fieldsStore_fieldsStoreWith hf fs seen' (List.Subset.trans h kept)
      exact ⟨.missed first rest, List.Subset.trans kept kept'⟩

end

end

/-- The search behind a reference ends if more references may be followed than there are records
left to go into. -/
theorem Recorded.stores_followWithin (h : r.Recorded) {owner : String} {declared : List Ty}
    (declares : ∀ {ref t}, r.lookup ref = some t → t ∈ declared) {n : Nat} {seen : List String}
    (enough : (unseen declared seen).length < n) (ref : TypeRef) :
    r.Stores owner (.named ref) seen (r.followWithin owner n ref seen) ∧
      seen ⊆ (r.followWithin owner n ref seen).2 := by
  induction n generalizing seen ref with
  | zero => omega
  | succ n ih =>
    unfold followWithin
    split
    case isTrue own => exact ⟨.own own, List.Subset.refl _⟩
    case isFalse other =>
      have resolved := h.resolves_named ref
      rw [h.resolve_named, h.meaning?] at resolved
      split
      case h_2 unknown =>
        rw [unknown] at resolved
        exact ⟨.unknown other resolved, List.Subset.refl _⟩
      case h_1 t known =>
        rw [known] at resolved
        obtain ⟨decl, rfl⟩ := h.lookup known
        suffices found : r.Stores owner (.record decl) seen _ ∧ seen ⊆ _ from
          ⟨.known other resolved rfl found.1, found.2⟩
        rw [storesWithin_succ]
        obtain ⟨kind, name, fields, id⟩ := decl
        simp only [Ty.storesWith]
        split
        case isTrue same => exact ⟨.owner same, List.Subset.refl _⟩
        case isFalse notOwner =>
          split
          case isTrue old => exact ⟨.again notOwner (by simpa using old), List.Subset.refl _⟩
          case isFalse new =>
            have new : name ∉ seen := by simpa using new
            have fewer : (unseen declared (name :: seen)).length < _ :=
              length_unseen_lt (declares known) new
            obtain ⟨inside, kept⟩ := fieldsStore_fieldsStoreWith
              (fun ref seen' more => ih (Nat.lt_of_le_of_lt (length_unseen_le more) (by omega)) ref)
              fields (name :: seen) (List.Subset.refl _)
            exact ⟨.fields notOwner new inside, fun x hx => kept (List.mem_cons_of_mem _ hx)⟩

theorem Recorded.stores (h : r.Recorded) (owner : String) {declared : List Ty}
    (declares : ∀ {ref t}, r.lookup ref = some t → t ∈ declared) (t : Ty) :
    r.Stores owner t [] (t.storesWithin r.lookup owner (declared.length + 2) []) := by
  rw [storesWithin_succ]
  refine (stores_storesWith (fun ref seen more => h.stores_followWithin declares ?_ ref) t []
    (List.Subset.refl _)).1
  have all : (unseen declared seen).length ≤ declared.length := List.length_filter_le _ _
  omega

theorem Recorded.stores_iff (h : r.Recorded) (owner : String) {declared : List Ty}
    (declares : ∀ {ref t}, r.lookup ref = some t → t ∈ declared) {t : Ty}
    {v : Bool × List String} :
    r.Stores owner t [] v ↔ v = t.storesWithin r.lookup owner (declared.length + 2) [] := by
  constructor
  · intro ends
    exact ends.unique (h.stores owner declares t)
  · rintro rfl
    exact h.stores owner declares t

section

variable {owner : String} {follow follow' : TypeRef → List String → Bool × List String}
  {seen₀ : List String}

mutual

theorem storesWith_congr (hf : ∀ ref seen, seen₀ ⊆ seen →
      follow' ref seen = follow ref seen ∧ seen ⊆ (follow ref seen).2)
    (t : Ty) (seen : List String) (h : seen₀ ⊆ seen) :
    t.storesWith owner follow' seen = t.storesWith owner follow seen ∧
      seen ⊆ (t.storesWith owner follow seen).2 := by
  cases t with
  | array t n => exact storesWith_congr hf t seen h
  | named ref => exact hf ref seen h
  | record decl =>
    obtain ⟨kind, name, fields, id⟩ := decl
    simp only [Ty.storesWith]
    split
    case isTrue => exact ⟨rfl, List.Subset.refl _⟩
    case isFalse =>
      split
      case isTrue => exact ⟨rfl, List.Subset.refl _⟩
      case isFalse =>
        have more : seen₀ ⊆ name :: seen := fun x hx => List.mem_cons_of_mem _ (h hx)
        obtain ⟨same, kept⟩ := fieldsStoreWith_congr hf fields (name :: seen) more
        exact ⟨same, fun x hx => kept (List.mem_cons_of_mem _ hx)⟩
  | _ => exact ⟨rfl, List.Subset.refl _⟩

theorem fieldsStoreWith_congr (hf : ∀ ref seen, seen₀ ⊆ seen →
      follow' ref seen = follow ref seen ∧ seen ⊆ (follow ref seen).2)
    (fs : List Field) (seen : List String) (h : seen₀ ⊆ seen) :
    Ty.fieldsStoreWith owner follow' fs seen = Ty.fieldsStoreWith owner follow fs seen ∧
      seen ⊆ (Ty.fieldsStoreWith owner follow fs seen).2 := by
  cases fs with
  | nil => exact ⟨rfl, List.Subset.refl _⟩
  | cons f fs =>
    obtain ⟨name, t⟩ := f
    obtain ⟨same, kept⟩ := storesWith_congr hf t seen h
    simp only [Ty.fieldsStoreWith, same]
    split
    case h_1 seen' eq =>
      rw [eq] at kept
      exact ⟨rfl, kept⟩
    case h_2 seen' eq =>
      rw [eq] at kept
      obtain ⟨rest, kept'⟩ := fieldsStoreWith_congr hf fs seen' (List.Subset.trans h kept)
      exact ⟨rest, List.Subset.trans kept kept'⟩

end

end

/-- Once enough references may be followed, more of them change nothing. -/
theorem Recorded.followWithin_eq (h : r.Recorded) {owner : String} {declared : List Ty}
    (declares : ∀ {ref t}, r.lookup ref = some t → t ∈ declared) {n m : Nat} {seen : List String}
    (hn : (unseen declared seen).length < n) (hm : (unseen declared seen).length < m)
    (ref : TypeRef) : r.followWithin owner m ref seen = r.followWithin owner n ref seen := by
  induction n generalizing m seen ref with
  | zero => omega
  | succ n ih =>
    cases m with
    | zero => omega
    | succ m =>
      unfold followWithin
      split
      case isTrue => rfl
      case isFalse =>
        split
        case h_2 => rfl
        case h_1 t known =>
          obtain ⟨⟨kind, name, fields, id⟩, rfl⟩ := h.lookup known
          rw [storesWithin_succ, storesWithin_succ]
          simp only [Ty.storesWith]
          split
          case isTrue => rfl
          case isFalse =>
            split
            case isTrue => rfl
            case isFalse new =>
              have fewer : (unseen declared (name :: seen)).length <
                  (unseen declared seen).length :=
                length_unseen_lt (declares known) (by simpa using new)
              refine (fieldsStoreWith_congr (fun ref seen' more => ?_) fields (name :: seen)
                (List.Subset.refl _)).1
              have left : (unseen declared seen').length ≤
                  (unseen declared (name :: seen)).length :=
                length_unseen_le more
              exact ⟨ih (by omega) (by omega) ref,
                (h.stores_followWithin declares (by omega) ref).2⟩

theorem Recorded.storesWithin_eq (h : r.Recorded) (owner : String) {declared : List Ty}
    (declares : ∀ {ref t}, r.lookup ref = some t → t ∈ declared) (n : Nat) (t : Ty) :
    t.storesWithin r.lookup owner (declared.length + n + 2) [] =
      t.storesWithin r.lookup owner (declared.length + 2) [] := by
  rw [storesWithin_succ, storesWithin_succ]
  refine (storesWith_congr (fun ref seen _ => ?_) t [] (List.Subset.refl _)).1
  have all : (unseen declared seen).length ≤ declared.length := List.length_filter_le _ _
  exact ⟨h.followWithin_eq declares (by omega) (by omega) ref,
    (h.stores_followWithin declares (by omega) ref).2⟩

end Resolver

end FrontEnd
