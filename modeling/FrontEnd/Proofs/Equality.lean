import FrontEnd.Proofs.Meanings
import FrontEnd.Proofs.Mistakes.Below
import FrontEnd.Proofs.Paths

namespace FrontEnd

mutual

def Ty.isFirm : Ty → Bool
  | .pointer t => t.isFirm
  | .array t _ => t.isFirm
  | .func ⟨_, params, _, result⟩ => Ty.areFirm params && result.isFirm
  | .todo => false
  | _ => true

def Ty.areFirm : List Ty → Bool
  | [] => true
  | t :: ts => t.isFirm && Ty.areFirm ts

end

namespace Ty

variable {a b c t : Ty} {f : TypeRef → Ty}

mutual

theorem agrees_refl (t : Ty) : t.agrees t = true := by
  match t with
  | .pointer t => exact agrees_refl t
  | .array t n => simp only [agrees, agrees_refl t, beq_self_eq_true, Bool.and_self]
  | .func ⟨_, params, _, result⟩ =>
    simp only [agrees, agreeAll_refl params, agrees_refl result, Bool.and_self]
  | .record ⟨_, _, _, _⟩ => simp [agrees]
  | .int _ | .uint _ | .float _ | .named _ | .module _ => simp [agrees]
  | .void | .todo => rfl

theorem agreeAll_refl (ts : List Ty) : agreeAll ts ts = true := by
  match ts with
  | [] => rfl
  | t :: ts => simp only [agreeAll, agrees_refl t, agreeAll_refl ts, Bool.and_self]

end

theorem agrees_comm_of_not_alike (h : a.areAlike b = false) : a.agrees b = b.agrees a := by
  cases a with
  | record decl =>
    cases b with
    | record decl' =>
      cases decl
      cases decl'
      simp only [agrees, BEq.comm]
    | _ => rfl
  | pointer | array | func => cases b <;> first | rfl | cases h
  | _ => cases b <;> first | rfl | simp only [agrees, BEq.comm]

mutual

theorem agrees_comm (a b : Ty) : a.agrees b = b.agrees a := by
  by_cases alike : a.areAlike b = true
  · match a, b with
    | .pointer a, .pointer b => exact agrees_comm a b
    | .array a m, .array b n => simp only [agrees, agrees_comm a b, BEq.comm]
    | .func ⟨_, ps, _, r⟩, .func ⟨_, qs, _, s⟩ =>
      simp only [agrees, agreeAll_comm ps qs, agrees_comm r s]
  · exact agrees_comm_of_not_alike (by simpa using alike)

theorem agreeAll_comm (as bs : List Ty) : agreeAll as bs = agreeAll bs as := by
  match as, bs with
  | [], [] | [], _ :: _ | _ :: _, [] => rfl
  | a :: as, b :: bs => simp only [agreeAll, agrees_comm a b, agreeAll_comm as bs]

end

theorem agrees_array {n : Nat} (h : a.agrees (.array b n) = true) :
    a = .todo ∨ ∃ a', a = .array a' n ∧ a'.agrees b = true := by
  cases a with
  | todo => exact .inl rfl
  | array a' m =>
    simp only [agrees, Bool.and_eq_true, beq_iff_eq] at h
    exact .inr ⟨a', by rw [h.1], h.2⟩
  | _ => exact absurd h (by simp [agrees])

theorem agrees_func {name : String} {ps : List Ty} {names : List String} {r : Ty}
    (h : a.agrees (.func ⟨name, ps, names, r⟩) = true) :
    a = .todo ∨ ∃ name' ps' names' r', a = .func ⟨name', ps', names', r'⟩ ∧
      agreeAll ps' ps = true ∧ r'.agrees r = true := by
  cases a with
  | todo => exact .inl rfl
  | func sig =>
    obtain ⟨name', ps', names', r'⟩ := sig
    simp only [agrees, Bool.and_eq_true] at h
    exact .inr ⟨name', ps', names', r', rfl, h⟩
  | _ => exact absurd h (by simp [agrees])

theorem agrees_flat (flat : b.isFlat = true) (firm : b.isFirm = true) (h : a.agrees b = true) :
    a = .todo ∨ ∀ c, a.agrees c = b.agrees c := by
  cases b with
  | record decl =>
    cases a with
    | record decl' =>
      cases decl
      cases decl'
      simp only [agrees, Bool.and_eq_true, beq_iff_eq] at h
      refine .inr fun c => ?_
      cases c with
      | record decl =>
        cases decl
        simp only [agrees, h]
      | _ => rfl
    | todo => exact .inl rfl
    | _ => cases h
  | pointer | array | func => cases flat
  | todo => cases firm
  | void =>
    cases a with
    | void => exact .inr fun _ => rfl
    | todo => exact .inl rfl
    | _ => cases h
  | _ =>
    cases a with
    | todo => exact .inl rfl
    | _ => first | cases h | exact .inr fun c => by rw [eq_of_beq h]

mutual

/-- The induction is on the type in the middle, which tells the forms of the two others. -/
theorem agrees_trans (b : Ty) (firm : b.isFirm = true) {a c : Ty} (first : a.agrees b = true)
    (second : b.agrees c = true) : a.agrees c = true := by
  have flat_case (flat : b.isFlat = true) : a.agrees c = true := by
    obtain rfl | same := agrees_flat flat firm first
    · rfl
    · rw [same, second]
  rw [agrees_comm] at second
  match b with
  | .pointer b =>
    obtain rfl | ⟨a', rfl, left⟩ := agrees_pointer first
    · rfl
    obtain rfl | ⟨c', rfl, right⟩ := agrees_pointer second
    · rfl
    · have targets := agrees_trans b firm left (agrees_comm b c' ▸ right)
      exact targets
  | .array b n =>
    obtain rfl | ⟨a', rfl, left⟩ := agrees_array first
    · rfl
    obtain rfl | ⟨c', rfl, right⟩ := agrees_array second
    · rfl
    · have elements := agrees_trans b firm left (agrees_comm b c' ▸ right)
      simp only [agrees, elements, beq_self_eq_true, Bool.and_self]
  | .func ⟨_, ps, _, r⟩ =>
    obtain ⟨firmAll, firmResult⟩ := Bool.and_eq_true_iff.mp firm
    obtain rfl | ⟨_, ps', _, r', rfl, leftAll, left⟩ := agrees_func first
    · rfl
    obtain rfl | ⟨_, qs, _, s, rfl, rightAll, right⟩ := agrees_func second
    · rfl
    · have params := agreeAll_trans ps firmAll leftAll (agreeAll_comm ps qs ▸ rightAll)
      have results := agrees_trans r firmResult left (agrees_comm r s ▸ right)
      simp only [agrees, params, results, Bool.and_self]
  | .void | .int _ | .uint _ | .float _ | .record _ | .named _ | .module _ | .todo =>
    exact flat_case rfl

theorem agreeAll_trans (bs : List Ty) (firm : areFirm bs = true) {as cs : List Ty}
    (first : agreeAll as bs = true) (second : agreeAll bs cs = true) : agreeAll as cs = true := by
  match as, bs, cs with
  | [], [], [] => rfl
  | a :: as, b :: bs, c :: cs =>
    simp only [areFirm, Bool.and_eq_true] at firm
    simp only [agreeAll, Bool.and_eq_true] at first second ⊢
    exact ⟨agrees_trans b firm.1 first.1 second.1, agreeAll_trans bs firm.2 first.2 second.2⟩

end

mutual

theorem isFirm_bind (hf : ∀ ref, (f ref).isFirm = true) (t : Ty) :
    (t.bind f).isFirm = t.isFirm := by
  match t with
  | .pointer t => exact isFirm_bind hf t
  | .array t _ => exact isFirm_bind hf t
  | .func ⟨_, params, _, result⟩ =>
    simp only [bind, isFirm, areFirm_bindAll hf params, isFirm_bind hf result]
  | .named ref => exact hf ref
  | .void | .int _ | .uint _ | .float _ | .record _ | .module _ | .todo => rfl

theorem areFirm_bindAll (hf : ∀ ref, (f ref).isFirm = true) (ts : List Ty) :
    areFirm (bindAll f ts) = areFirm ts := by
  match ts with
  | [] => rfl
  | t :: ts => simp only [bindAll, areFirm, isFirm_bind hf t, areFirm_bindAll hf ts]

end

mutual

theorem mem_refs_bind {ref : TypeRef} (t : Ty) (mem : ref ∈ (t.bind f).refs) :
    ∃ ref' ∈ t.refs, ref ∈ (f ref').refs := by
  match t with
  | .pointer t => exact mem_refs_bind t mem
  | .array t _ => exact mem_refs_bind t mem
  | .func ⟨_, params, _, result⟩ =>
    obtain mem | mem := List.mem_append.mp mem
    · obtain ⟨ref', inside, found⟩ := mem_refsOf_bindAll params mem
      exact ⟨ref', List.mem_append_left _ inside, found⟩
    · obtain ⟨ref', inside, found⟩ := mem_refs_bind result mem
      exact ⟨ref', List.mem_append_right _ inside, found⟩
  | .named ref' => exact ⟨ref', List.mem_cons_self, mem⟩

theorem mem_refsOf_bindAll {ref : TypeRef} (ts : List Ty) (mem : ref ∈ refsOf (bindAll f ts)) :
    ∃ ref' ∈ refsOf ts, ref ∈ (f ref').refs := by
  match ts with
  | t :: ts =>
    obtain mem | mem := List.mem_append.mp mem
    · obtain ⟨ref', inside, found⟩ := mem_refs_bind t mem
      exact ⟨ref', List.mem_append_left _ inside, found⟩
    · obtain ⟨ref', inside, found⟩ := mem_refsOf_bindAll ts mem
      exact ⟨ref', List.mem_append_right _ inside, found⟩

end

end Ty

namespace Resolver

variable {r : Resolver}

/-- Names stand for records. How many references may be followed is left open. -/
def NamesRecords (r : Resolver) : Prop :=
  ∀ ref t, r.lookup ref = some t → ∃ decl, t = .record decl

theorem resolveWithin_record (r : Resolver) (n : Nat) (decl : Record) :
    r.resolveWithin n (.record decl) = .record decl := by
  cases n <;> rfl

theorem Recorded.namesRecords (h : r.Recorded) : r.NamesRecords :=
  fun _ _ found => h.lookup found

/-- The resolver that follows a single reference. -/
def once (r : Resolver) : Resolver :=
  ⟨r.lookup, 0⟩

theorem NamesRecords.once (h : r.NamesRecords) : r.once.Recorded :=
  ⟨rfl, fun found => h _ _ found⟩

theorem NamesRecords.resolve_once (h : r.NamesRecords) (t : Ty) :
    r.once.resolve t = r.resolve t := by
  refine t.bind_congr fun ref _ => ?_
  obtain unknown | ⟨decl, known⟩ := h.once.meaning_cases ref
  · have unknown' : r.meaning? ref = .none := unknown
    rw [unknown, unknown']
  · have known' : r.meaning? ref = some (.record decl) := known
    rw [known, known']
    exact (resolveWithin_record r r.hops decl).symm

theorem NamesRecords.unwrap_once (h : r.NamesRecords) (t : Ty) : r.once.unwrap t = r.unwrap t := by
  cases t with
  | named ref =>
    rw [h.once.unwrap_named]
    obtain unknown | ⟨decl, known⟩ := h.once.meaning_cases ref
    · have unknown' : r.meaning? ref = .none := unknown
      simp [unwrap, unwrapWithin, unknown, unknown']
    · have known' : r.meaning? ref = some (.record decl) := known
      cases hops : r.hops <;> simp [unwrap, unwrapWithin, hops, known, known']
  | _ => cases r.hops <;> rfl

theorem Recorded.resolve_eq_bind (h : r.Recorded) (t : Ty) : r.resolve t = t.bind r.meaning := by
  simp only [resolve, h.hops, resolveWithin]
  rfl

theorem Recorded.meaning_eq (h : r.Recorded) (ref : TypeRef) :
    (∃ decl, r.meaning ref = .record decl) ∨ r.lookup ref = .none ∧ r.meaning ref = .named ref := by
  unfold meaning
  obtain unknown | ⟨decl, known⟩ := h.meaning_cases ref
  · rw [unknown]
    exact .inr ⟨h.meaning? ref ▸ unknown, rfl⟩
  · rw [known]
    exact .inl ⟨decl, rfl⟩

theorem Recorded.resolve_idem (h : r.Recorded) (t : Ty) :
    r.resolve (r.resolve t) = r.resolve t := by
  rw [h.resolve_eq_bind, h.resolve_eq_bind]
  refine Ty.bind_bind (fun ref => ?_) t
  obtain ⟨decl, known⟩ | ⟨-, unknown⟩ := h.meaning_eq ref
  · rw [known]
    rfl
  · rw [unknown]
    exact unknown

theorem Recorded.isFirm_resolve (h : r.Recorded) (t : Ty) : (r.resolve t).isFirm = t.isFirm := by
  rw [h.resolve_eq_bind]
  refine Ty.isFirm_bind (fun ref => ?_) t
  obtain ⟨decl, known⟩ | ⟨-, unknown⟩ := h.meaning_eq ref
  · rw [known]
    rfl
  · rw [unknown]
    rfl

theorem Recorded.lookup_of_mem_refs (h : r.Recorded) {t : Ty} {ref : TypeRef}
    (mem : ref ∈ (r.resolve t).refs) : r.lookup ref = .none := by
  rw [h.resolve_eq_bind] at mem
  obtain ⟨ref', -, found⟩ := t.mem_refs_bind mem
  obtain ⟨decl, known⟩ | ⟨lookup, unknown⟩ := h.meaning_eq ref'
  · rw [known] at found
    cases found
  · rw [unknown] at found
    obtain rfl := List.mem_singleton.mp found
    exact lookup

theorem NamesRecords.resolve_idem (h : r.NamesRecords) (t : Ty) :
    r.resolve (r.resolve t) = r.resolve t := by
  rw [← h.resolve_once t, ← h.resolve_once, h.once.resolve_idem]

/-- The laws of equality: it is an equivalence on the types in which nothing is `todo`, it does not
depend on whether types are resolved, and it is what comparing level by level ends with, and nothing
else. -/
structure EqualityLaws (r : Resolver) : Prop where
  refl : ∀ a : Ty, a.equals r a = true
  symm : ∀ a b : Ty, a.equals r b = b.equals r a
  trans : ∀ a b c : Ty, b.isFirm = true → a.equals r b = true → b.equals r c = true →
    a.equals r c = true
  resolve_left : ∀ a b : Ty, (r.resolve a).equals r b = a.equals r b
  resolve_right : ∀ a b : Ty, a.equals r (r.resolve b) = a.equals r b
  idempotent : ∀ t : Ty, r.resolve (r.resolve t) = r.resolve t
  unknown : ∀ (t : Ty) (ref : TypeRef), ref ∈ (r.resolve t).refs → r.lookup ref = .none
  unwraps : ∀ t u : Ty, r.once.Unwraps t u ↔ u = r.unwrap t
  resolves : ∀ t u : Ty, r.once.Resolves t u ↔ u = r.resolve t
  compares : ∀ (a b : Ty) (v : Bool), r.once.Compares a b v ↔ v = a.equals r b

theorem NamesRecords.equalityLaws (h : r.NamesRecords) : r.EqualityLaws where
  refl a := (r.resolve a).agrees_refl
  symm a b := (r.resolve a).agrees_comm (r.resolve b)
  trans a b c firm first second := by
    have middle : (r.resolve b).isFirm = true := by
      rw [← h.resolve_once, h.once.isFirm_resolve, firm]
    exact Ty.agrees_trans _ middle first second
  resolve_left a b := by rw [Ty.equals, h.resolve_idem, Ty.equals]
  resolve_right a b := by rw [Ty.equals, h.resolve_idem, Ty.equals]
  idempotent := h.resolve_idem
  unknown t ref mem := by
    rw [← h.resolve_once] at mem
    exact h.once.lookup_of_mem_refs mem
  unwraps t u := by
    rw [← h.unwrap_once]
    exact h.once.unwraps_iff
  resolves t u := by
    rw [← h.resolve_once]
    exact h.once.resolves_iff
  compares a b v := by
    unfold Ty.equals
    rw [← h.resolve_once a, ← h.resolve_once b]
    exact h.once.compares_iff

end Resolver

namespace Build

/-- Equality of types is an equivalence that resolving respects, wherever names stand for records.
They do so in all states that arise while units are checked, and in the registries of their
sessions. -/
theorem equals_respects_resolve :
    (∀ r : Resolver, r.NamesRecords → r.EqualityLaws) ∧
      ∀ (config : Config) (files : List (String × String)),
        (∀ s : CheckState, s.Arises config files → s.resolver.NamesRecords ∧
          ∀ name t, s.session.registered? name = some t → ∃ decl, t = .record decl) ∧
        ∀ (n : Nat) (session : Session) (program : List Stmt) (id : String) (directory : Path)
          (item : Item) (s : CheckState) (around : Option CheckState),
          session.Arises config files →
          Visits (within n) (.top program) (.start id directory session) item s around →
          s.Arises config files := by
  refine ⟨fun r h => h.equalityLaws, fun config files => ⟨fun s arises => ?_, ?_⟩⟩
  · have recorded := arises.recorded
    refine ⟨(CheckState.recorded_resolver recorded).namesRecords, fun name t found => ?_⟩
    exact recorded.registry _ (Table.mem_of_lookup found)
  · intro n session program id directory item s around started visited
    exact arises_of_visits started visited

def nodeResolver : Resolver :=
  ⟨fun ref => if ref = ⟨"Node-1", []⟩ then some (.record ⟨.struct, "Node-1", [], 7⟩) else none, 2⟩

def fromPointer (target element : Ty) : Ty :=
  .func ⟨"f", [.pointer target], ["p"], .array element 3⟩

theorem namesRecords_nodeResolver : nodeResolver.NamesRecords := by
  intro ref t found
  obtain ⟨-, known⟩ := Option.ite_none_right_eq_some.mp found
  exact ⟨_, (Option.some.inj known).symm⟩

/-- The name stands on one side for the parameter, and on the other for the result. Between them is
a type without names, and a name that is unknown stays where it is. -/
theorem equals_respects_resolve_node :
    let name : Ty := .named ⟨"Node-1", []⟩
    let node : Ty := .record ⟨.struct, "Node-1", [], 7⟩
    (fromPointer name node).equals nodeResolver (fromPointer node node) = true ∧
      (fromPointer node node).equals nodeResolver (fromPointer node name) = true ∧
      (fromPointer name node).equals nodeResolver (fromPointer node name) = true ∧
      nodeResolver.lookup ⟨"Leaf-1", []⟩ = none ∧
      (CheckState.start "1" ⟨""⟩ (.start .default (.ofFiles []))).resolver.NamesRecords := by
  intro name node
  have laws := equals_respects_resolve.1 nodeResolver namesRecords_nodeResolver
  have first : (fromPointer name node).equals nodeResolver (fromPointer node node) = true := by
    decide
  have second : (fromPointer node node).equals nodeResolver (fromPointer node name) = true := by
    decide
  obtain ⟨reached, arises⟩ := equals_respects_resolve.2 .default []
  have started := arises 0 _ [] "1" ⟨""⟩ _ _ _ .start .self
  exact ⟨first, second, laws.trans _ _ _ rfl first second,
    laws.unknown (fromPointer name (.named ⟨"Leaf-1", []⟩)) _ List.mem_cons_self,
    (reached _ started).1⟩

end Build

end FrontEnd
