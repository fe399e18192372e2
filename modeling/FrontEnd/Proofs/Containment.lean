import FrontEnd.Proofs.Sealed

/-!
Records that store values of themselves. A record that is declared in an analysis without errors can
store itself only where a field names it, since the types that are known store nothing that is left
to look up; and that is always reported. What is reported is wrong only if the record stores another
type that carries its name.
-/

namespace FrontEnd

open Build Check CheckState

/-- What a value of the type stores in itself is known: its name stands for something. -/
def CheckState.Resolves (s : CheckState) (t : Ty) : Prop :=
  (s.resolver.resolve t.element).ref? = none

instance (s : CheckState) (t : Ty) : Decidable (s.Resolves t) :=
  inferInstanceAs (Decidable (_ = none))

/-- Where nothing is left to look up behind the name in a field, what is stored in the field occurs
in its type once that is resolved. -/
theorem Ty.Contains.mem_records_fieldType {s : CheckState} {t : Ty} {decl : Record}
    (h : t.Contains s.resolver.lookup decl) (recorded : s.resolver.Recorded)
    (fields : (s.context.fieldType t).Of fun r => ∀ f ∈ r.fields, f.ty.Known) :
    decl ∈ (s.context.fieldType t).records := by
  induction t using Ty.nested with
  | array t n ih =>
    cases h with
    | array inside => exact ih inside fields
  | named ref =>
    cases h with
    | named found inside =>
      obtain ⟨inner, rfl⟩ := recorded.lookup found
      have same : s.context.fieldType (.named ref) = .record inner :=
        recorded.resolve_of_lookup found
      rw [same] at fields ⊢
      exact inside.mem_records (Ty.known_of_ref? rfl) fields
  | record inner => exact h.mem_records (Ty.known_of_ref? rfl) fields
  | _ => cases h

theorem Config.accepts_zero {c : Config} (some : c.maxCheckErrors ≠ some 0) :
    c.accepts 0 = true := by
  unfold accepts
  split
  case h_1 n limit =>
    have pos : n ≠ 0 := fun zero => some (zero ▸ limit)
    simpa using Nat.pos_of_ne_zero pos
  case h_2 => rfl

theorem CheckState.room_define (s : CheckState) (name : String) (t : Ty) :
    (s.define name t).Room ↔ s.Room := by
  unfold Room
  rw [(grows_define s name t).config]
  exact Iff.rfl

theorem CheckState.lookup_own (s : CheckState) (decl : Record) {ref : TypeRef}
    (plain : ref.modules = []) (name : ref.name = decl.name) :
    (s.declaring decl).resolver.lookup ref = some (.record decl) := by
  obtain ⟨ref, modules⟩ := ref
  obtain rfl : ref = decl.name := name
  obtain rfl : modules = [] := plain
  have found : (s.env.types.add decl.name (.record decl)).get? decl.name = some (.record decl) := by
    simp [Scopes.get?_add]
  change ((s.env.types.add decl.name (.record decl)).get? decl.name).or _ = _
  rw [found, Option.some_or]

namespace Check

variable {imp : Importer} {s : CheckState} {token : Token} {owner : String}

theorem storable_notes {ds : List Diagnostic} {t : Ty} :
    (s.notes ds).Storable owner t ↔ s.Storable owner t := by
  induction t using Ty.nested with
  | array t n ih => exact ih
  | _ => exact Iff.rfl

theorem runs_checkContainment_of_free {t : Ty} (free : s.stores owner t = false) :
    Runs imp (checkContainment owner t token) s (some t) s := by
  unfold checkContainment
  rw [runs_get_bind, if_neg (by simp [free])]
  exact .ret

theorem runs_checkContainment_of_stores {t : Ty} (stored : s.stores owner t = true) :
    Runs imp (checkContainment owner t token) s none
      (s.note ⟨.check (.recursiveType (Name.bare owner)), token.start⟩) := by
  unfold checkContainment
  rw [runs_get_bind, if_pos stored]
  exact Runs.error.bind .ret

theorem runs_resolveField_of_storable {t : Ty} (storable : s.Storable owner t) :
    Runs imp (resolveField owner token t) s (some (s.context.fieldType t)) s := by
  induction t using Ty.nested with
  | array t n ih =>
    unfold resolveField
    exact (ih storable).bind .ret
  | named ref =>
    obtain ⟨other, known, free⟩ := storable
    unfold resolveField
    rw [if_neg other, runs_resolve_bind]
    split
    case h_1 ref' unknown => simp [unknown, Ty.ref?] at known
    case h_2 => exact runs_checkContainment_of_free free
  | record decl => exact runs_checkContainment_of_free storable
  | _ => exact .ret

/-- A field that cannot be stored, though it is known what is stored in it, is reported. -/
theorem runs_resolveField_of_refused {t : Ty} (known : s.Resolves t)
    (refused : ¬ s.Storable owner t) :
    Runs imp (resolveField owner token t) s none
      (s.note ⟨.check (.recursiveType (Name.bare owner)), token.start⟩) := by
  induction t using Ty.nested with
  | array t n ih =>
    unfold resolveField
    exact (ih known refused).bind .ret
  | named ref =>
    unfold resolveField
    by_cases own : ref.modules = [] ∧ ref.name = owner
    · rw [if_pos own]
      exact Runs.error.bind .ret
    · rw [if_neg own, runs_resolve_bind]
      have notRef : (s.resolver.resolve (.named ref)).ref? = none := known
      have stored : s.stores owner (s.resolver.resolve (.named ref)) = true := by
        by_contra free
        exact refused ⟨own, notRef, by simpa using free⟩
      split
      case h_1 ref' unknown => simp [unknown, Ty.ref?] at notRef
      case h_2 => exact runs_checkContainment_of_stores stored
  | record decl =>
    refine runs_checkContainment_of_stores ?_
    by_contra free
    exact refused (by simpa [Storable] using free)
  | _ => exact absurd trivial refused

/-- Of the errors in the fields of a record, one is about storing the record: only if some field
does, and if some field does, unless the limit is used up, which needs fields that are not
`fresh`. -/
structure Refuses (s : CheckState) (owner : String) (token : Token) (fields : List Field)
    (fresh : Prop) (ds : List Diagnostic) : Prop where
  only : ⟨.check (.recursiveType (Name.bare owner)), token.start⟩ ∈ ds →
    ∃ f ∈ fields, ¬ s.Storable owner f.ty
  found : (∃ f ∈ fields, ¬ s.Storable owner f.ty) → s.Room →
    ⟨.check (.recursiveType (Name.bare owner)), token.start⟩ ∈ ds ∨ ¬ (s.notes ds).Room ∧ ¬ fresh

namespace Refuses

variable {fields : List Field} {fresh : Prop} {ds : List Diagnostic} {f : Field}

theorem of_note (token : Token) (fresh : Prop) (refused : ∃ f ∈ fields, ¬ s.Storable owner f.ty) :
    ∃ ds, s.note ⟨.check (.recursiveType (Name.bare owner)), token.start⟩ = s.notes ds ∧
      Refuses s owner token fields fresh ds := by
  obtain ⟨-, noted⟩ | ⟨noRoom, noted⟩ := note_cases s
      ⟨.check (.recursiveType (Name.bare owner)), token.start⟩
  · exact ⟨_, noted, fun _ => refused, fun _ _ => .inl List.mem_cons_self⟩
  · exact ⟨[], noted.trans notes_nil.symm, nofun, fun _ room => absurd room noRoom⟩

theorem cons (h : Refuses s owner token fields fresh ds) (storable : s.Storable owner f.ty) :
    Refuses s owner token (f :: fields) fresh ds := by
  have same : (∃ g ∈ f :: fields, ¬ s.Storable owner g.ty) ↔
      ∃ g ∈ fields, ¬ s.Storable owner g.ty := by simp [storable]
  exact ⟨fun found => same.mpr (h.only found), fun refused => h.found (same.mp refused)⟩

theorem weaken {fresh' : Prop} (h : Refuses s owner token fields fresh ds) (less : fresh' → fresh) :
    Refuses s owner token fields fresh' ds :=
  ⟨h.only, fun refused room => (h.found refused room).imp_right (.imp_right (mt less))⟩

theorem after_note {fresh' : Prop} {d : Diagnostic} (used : ¬ fresh')
    (other : d ≠ ⟨.check (.recursiveType (Name.bare owner)), token.start⟩)
    (h : Refuses (s.note d) owner token fields fresh ds) :
    ∃ es, (s.note d).notes ds = s.notes es ∧ Refuses s owner token fields fresh' es := by
  obtain ⟨-, noted⟩ | ⟨noRoom, noted⟩ := note_cases s d
  · rw [noted] at h ⊢
    refine ⟨_, notes_notes, fun found => ?_, fun refused _ => ?_⟩
    · obtain ⟨f, hf, refused⟩ := h.only (by simpa [other.symm] using found)
      exact ⟨f, hf, fun storable => refused (storable_notes.mpr storable)⟩
    · rw [← notes_notes]
      by_cases room : (s.notes [d]).Room
      · obtain ⟨f, hf, refused⟩ := refused
        obtain found | ⟨noRoom, -⟩ :=
          h.found ⟨f, hf, fun storable => refused (storable_notes.mp storable)⟩ room
        · exact .inl (List.mem_append_right _ found)
        · exact .inr ⟨noRoom, used⟩
      · exact .inr ⟨fun later => room (room_of_notes later), used⟩
  · rw [noted] at h ⊢
    exact ⟨ds, rfl, h.only, fun _ room => absurd room noRoom⟩

end Refuses

theorem reports_resolveFields (owner : String) (token : Token) (seen : List String)
    {fields : List Field} (known : ∀ f ∈ fields, s.Resolves f.ty) :
    ∃ fields? ds, Runs imp (resolveFields owner token seen fields) s fields? (s.notes ds) ∧
      Refuses s owner token fields
        ((fields.map (·.name)).Nodup ∧ ∀ f ∈ fields, f.name ∉ seen) ds := by
  induction fields generalizing s seen with
  | nil =>
    refine ⟨some [], [], ?_, by simp, by simp⟩
    unfold resolveFields
    rw [notes_nil]
    exact .ret
  | cons f fields ih =>
    -- The rest of the work on a field, after its name has been looked at.
    have both {s : CheckState} (known : ∀ g ∈ f :: fields, s.Resolves g.ty) :
        ∃ fields? ds, Runs imp (resolveFrom owner token seen f fields) s fields? (s.notes ds) ∧
          Refuses s owner token (f :: fields)
            ((fields.map (·.name)).Nodup ∧ ∀ g ∈ fields, g.name ∉ f.name :: seen) ds := by
      rw [List.forall_mem_cons] at known
      by_cases storable : s.Storable owner f.ty
      · obtain ⟨fields?, ds, rest, refuses⟩ := ih (f.name :: seen) known.2
        have first : Runs imp (resolveField owner token f.ty) s _ s :=
          runs_resolveField_of_storable storable
        exact ⟨_, ds, first.bind (rest.bind .ret), refuses.cons storable⟩
      · have first : Runs imp (resolveField owner token f.ty) s _ _ :=
          runs_resolveField_of_refused known.1 storable
        obtain ⟨ds, noted, refuses⟩ := Refuses.of_note token _ ⟨f, List.mem_cons_self, storable⟩
        rw [noted] at first
        exact ⟨none, ds, first.bind .ret, refuses⟩
    rw [resolveFields_cons]
    split
    case isTrue twice =>
      have first : Runs imp (error (.duplicateField f.name) token) s () _ := .error
      obtain ⟨fields?, ds, rest, refuses⟩ :=
        both (s := s.note ⟨.check (.duplicateField f.name), token.start⟩) fun g hg => by
          obtain ⟨es, noted⟩ := note_eq_notes s ⟨.check (.duplicateField f.name), token.start⟩
          rw [noted]
          exact known g hg
      have used : ¬ (((f :: fields).map (·.name)).Nodup ∧ ∀ g ∈ f :: fields, g.name ∉ seen) :=
        fun fresh => fresh.2 f List.mem_cons_self (by simpa using twice)
      obtain ⟨es, same, refuses⟩ := refuses.after_note used (by simp)
      rw [same] at rest
      exact ⟨fields?, es, first.bind rest, refuses⟩
    case isFalse once =>
      obtain ⟨fields?, ds, ran, refuses⟩ := both known
      refine ⟨fields?, ds, ran, refuses.weaken fun both => ?_⟩
      obtain ⟨distinct, fresh⟩ := both
      rw [List.map_cons, List.nodup_cons] at distinct
      rw [List.forall_mem_cons] at fresh
      refine ⟨distinct.2, fun g hg again => ?_⟩
      obtain same | again := List.mem_cons.mp again
      · exact distinct.1 (same ▸ List.mem_map_of_mem hg)
      · exact fresh.2 g hg again

theorem reports_recordDecl (token : Token) {decl : Record}
    (known : ∀ f ∈ decl.fields, (s.declaring decl).Resolves f.ty) :
    ∃ decl' s' ds, Runs imp (recordDecl token decl) s decl' s' ∧ s'.errors = s.errors ++ ds ∧
      (s'.Room ↔ ((s.declaring decl).notes ds).Room) ∧
      Refuses (s.declaring decl) decl.name token decl.fields (decl.fields.map (·.name)).Nodup
        ds := by
  obtain ⟨fields?, ds, resolved, refuses⟩ := reports_resolveFields decl.name token [] known
  have refuses := refuses.weaken fun distinct => ⟨distinct, fun _ _ => List.not_mem_nil⟩
  cases fields? with
  | none =>
    have declared := runs_recordDecl.mpr ⟨_, _, resolved, .inl ⟨rfl, rfl, rfl⟩⟩
    exact ⟨_, _, ds, declared, rfl, Iff.rfl, refuses⟩
  | some fields =>
    have declared := runs_recordDecl.mpr ⟨_, _, resolved, .inr ⟨fields, rfl, rfl, rfl⟩⟩
    exact ⟨_, _, ds, declared, rfl, room_define _ _ _, refuses⟩

end Check

namespace Tables.Sealed

variable {spared : Nat → Prop} {t : Ty} {s : CheckState}

theorem contains_of_not_storable (h : s.tables.Sealed spared) {decl : Record}
    (known : (s.declaring decl).Resolves t) (refused : ¬ (s.declaring decl).Storable decl.name t) :
    ∃ r, t.Contains (s.declaring decl).resolver.lookup r ∧ r.name = decl.name := by
  have recorded := h.recorded_define decl
  have found {u : Ty} (stored : (s.declaring decl).stores decl.name u = true) :
      ∃ r, u.Contains (s.declaring decl).resolver.lookup r ∧ r.name = decl.name :=
    recorded.contains_of_stores (fun ref plain name => ⟨decl, lookup_own s decl plain name, rfl⟩)
      (recorded.stores decl.name Environment.mem_declared_of_lookup u) stored
  induction t using Ty.nested with
  | array t n ih =>
    obtain ⟨r, inside, same⟩ := ih known refused
    exact ⟨r, .array inside, same⟩
  | named ref =>
    by_cases own : ref.modules = [] ∧ ref.name = decl.name
    · exact ⟨decl, .named (lookup_own s decl own.1 own.2) .here, rfl⟩
    · have behind := recorded.lookup_of_resolve known
      have stored : (s.declaring decl).stores decl.name
          ((s.declaring decl).resolver.resolve (.named ref)) = true := by
        by_contra free
        exact refused ⟨own, known, by simpa using free⟩
      obtain ⟨r, inside, same⟩ := found stored
      exact ⟨r, .named behind inside, same⟩
  | record inner =>
    refine found ?_
    by_contra free
    exact refused (by simpa [Storable] using free)
  | _ => exact absurd trivial refused

theorem not_storable_of_contains (h : s.tables.Sealed spared) {decl r : Record}
    (ht : t.Of (Record.Sealed spared s.session.nextId))
    (contains : t.Contains (s.declaring decl).resolver.lookup r) (out : spared r.id) :
    ¬ (s.declaring decl).Storable decl.name t := by
  intro storable
  have sealed := (h.fieldType ht storable).2
  have occurs := contains.mem_records_fieldType (h.recorded_define decl)
    (sealed.mono fun _ sealed => sealed.known)
  exact (sealed r occurs).other out

end Tables.Sealed

theorem Visits.after_top {imp : Importer} {i : Item} {s t u : CheckState} {xs ys rs : List Stmt}
    {x : Stmt} {around : Option CheckState} (outer : Visits imp i s (.top (xs ++ x :: ys)) t around)
    (ran : Runs imp (topLevel xs) t rs u) : Visits imp i s (.stmt x) u around := by
  induction xs generalizing t rs with
  | nil =>
    obtain ⟨-, rfl⟩ := runs_pure.mp ran
    exact outer.part .here
  | cons y xs ih =>
    obtain ⟨y', s₁, first, rest⟩ := runs_bind.mp ran
    obtain ⟨ys', s₂, rest, last⟩ := runs_bind.mp rest
    obtain ⟨-, rfl⟩ := runs_pure.mp last
    exact ih (outer.part (.part first .here)) rest

/-- While a record is declared: a field of it stores a record that is as `P` says. -/
def CheckState.Nests (s : CheckState) (decl : Record) (P : Record → Prop) : Prop :=
  ∃ f ∈ decl.fields, ∃ r, f.ty.Contains (s.declaring decl).resolver.lookup r ∧ P r

theorem CheckState.nests_of_ref {s : CheckState} {decl : Record} {f : Field} (mem : f ∈ decl.fields)
    (own : f.ty.element.ref? = some ⟨decl.name, []⟩) : s.Nests decl fun r => r.id = decl.id := by
  refine ⟨f, mem, decl, Ty.contains_of_element ?_, rfl⟩
  cases form : f.ty.element with
  | named ref =>
    rw [form] at own
    obtain rfl := Option.some.inj own
    exact .named (lookup_own s decl rfl rfl) .here
  | _ => simp [form, Ty.ref?] at own

namespace Build

/-- A record that would store a value of itself is reported. Whenever a record is declared in a unit
of a build without errors so far, the limit on errors is not zero, and what its fields store is
known: if a field stores a record with its id, then it is reported as a recursive type, unless
fields of the same name have used up the limit; and if no field stores another record with its
name, then it is reported only if a field stores a record with its id. -/
theorem recursive_type_iff {config : Config} {loader : Loader} {n : Nat} {source : String}
    {path : Path} {typeArgs : List Ty} {session : Session} {token : Token} {decl : Record}
    {s : CheckState} {around : Option CheckState} (some : config.maxCheckErrors ≠ some 0)
    (begins : Begins config loader n source path typeArgs session)
    (visited : Visits (within n) (.top (reading source path typeArgs session).program.statements)
      (begun source path typeArgs session) (.stmt (.record token decl)) s around)
    (noErrors : s.errors = [])
    (known : ∀ f ∈ decl.fields, (s.declaring decl).Resolves f.ty) :
    ∃ x' s', Runs (within n) (Check.stmt (.record token decl)) s x' s' ∧
      (s'.Room ∨ (decl.fields.map (·.name)).Nodup → s.Nests decl (fun r => r.id = decl.id) →
        ⟨.check (.recursiveType (Name.bare decl.name)), token.start⟩ ∈ s'.errors) ∧
      (¬ s.Nests decl (fun r => r.name = decl.name ∧ r.id ≠ decl.id) →
        ⟨.check (.recursiveType (Name.bare decl.name)), token.start⟩ ∈ s'.errors →
          s.Nests decl fun r => r.id = decl.id) := by
  obtain ⟨room, sealed, args⟩ := begins.sealed (Config.accepts_zero some)
  have label : .record decl ∈ (Item.stmt (.record token decl)).labels := by
    simp [Item.labels, Stmt.labels]
  obtain ⟨new, handed⟩ := handed_of_mem (visited.labels_subset label)
  have spare {r : Record} (h : r.Sealed (fun _ => False) session.nextId) :
      r.Sealed (· = decl.id) session.nextId := h.spare fun id same => same ▸ new.le
  have registry : ∀ p ∈ session.registry, p.2.Sealed (· = decl.id) session.nextId := fun p hp =>
    ⟨(sealed.registry p hp).record, (sealed.registry p hp).records.mono fun _ => spare⟩
  have args : ∀ t ∈ typeArgs, t.Of (Record.Sealed (· = decl.id) session.nextId) := fun t ht =>
    (args t ht).mono fun _ => spare
  obtain ⟨reached, sealed, labels⟩ := sealed_of_visits room (fun id same => same ▸ handed)
    registry args visited noErrors fun before inside d mem => id_ne_of_before inside mem
  have types := labels _ label
  obtain ⟨decl', s', ds, declared, errors, room, refuses⟩ := reports_recordDecl token known
  obtain rfl : s'.errors = ds := by rw [errors, noErrors, List.nil_append]
  refine ⟨.record token decl', s', declared.bind .ret, fun spacious => ?_, fun noOther found => ?_⟩
  · rintro ⟨f, hf, r, contains, same⟩
    have refused := sealed.not_storable_of_contains (types f hf) contains same
    obtain found | ⟨noRoom, twice⟩ :=
      refuses.found ⟨f, hf, refused⟩ ((room_define _ _ _).mpr reached.room)
    · exact found
    · exact (spacious.elim (fun later => noRoom (room.mp later)) twice).elim
  · obtain ⟨f, hf, refused⟩ := refuses.only found
    obtain ⟨r, contains, same⟩ := sealed.contains_of_not_storable (known f hf) refused
    refine ⟨f, hf, r, contains, ?_⟩
    by_contra different
    exact noOther ⟨f, hf, r, contains, same, different⟩

/-- The session in which the file of a first build is open. -/
def opened : Session :=
  ((Session.start .default (.ofFiles [])).begin? (Path.normalize ⟨"main.cd"⟩)).getD
    (.start .default (.ofFiles []))

/-- Tests the last statement of a file, in the state that the others leave behind. -/
def lastPasses (source : String) (test : Stmt → CheckState → Bool) : Bool :=
  match (reading source (Path.normalize ⟨"main.cd"⟩) [] opened).program.statements.reverse with
  | x :: before =>
    match topLevel before.reverse (within 0)
      (begun source (Path.normalize ⟨"main.cd"⟩) [] opened) with
    | .ok (_, s) => test x s
    | .error _ => false
  | [] => false

theorem exists_of_lastPasses {source : String} {test : Stmt → CheckState → Bool}
    (h : lastPasses source test = true) :
    ∃ x s, Visits (within 0)
        (.top (reading source (Path.normalize ⟨"main.cd"⟩) [] opened).program.statements)
        (begun source (Path.normalize ⟨"main.cd"⟩) [] opened) (.stmt x) s none ∧
      test x s = true := by
  unfold lastPasses at h
  split at h
  case h_1 x before reversed =>
    split at h
    case h_1 xs s ran =>
      have order := congrArg List.reverse reversed
      rw [List.reverse_reverse, List.reverse_cons] at order
      refine ⟨x, s, ?_, h⟩
      rw [order]
      exact Visits.after_top .self ran
    case h_2 => cases h
  case h_2 => cases h

def selfStoring : String :=
  "struct A \x7b v i32 \x7d\nunion Node \x7b a [3]A, p *Node, next [2]Node \x7d"

def namesItself : Stmt → CheckState → Bool
  | .record _ decl, s => decide (s.errors = [] ∧
    (∀ f ∈ decl.fields, (s.declaring decl).Resolves f.ty) ∧ (decl.fields.map (·.name)).Nodup ∧
    ∃ f ∈ decl.fields, f.ty.element.ref? = some ⟨decl.name, []⟩)
  | _, _ => false

theorem recursive_type_iff_union :
    ∃ token decl s x' s', Visits (within 0)
        (.top (reading selfStoring (Path.normalize ⟨"main.cd"⟩) [] opened).program.statements)
        (begun selfStoring (Path.normalize ⟨"main.cd"⟩) [] opened) (.stmt (.record token decl)) s
        none ∧
      Runs (within 0) (Check.stmt (.record token decl)) s x' s' ∧
      ⟨.check (.recursiveType (Name.bare decl.name)), token.start⟩ ∈ s'.errors := by
  have test : lastPasses selfStoring namesItself = true := by decide +kernel
  obtain ⟨x, s, visited, passed⟩ := exists_of_lastPasses test
  unfold namesItself at passed
  split at passed
  case h_1 token decl =>
    obtain ⟨noErrors, known, distinct, f, mem, own⟩ := of_decide_eq_true passed
    have begins : Begins .default (.ofFiles []) 0 selfStoring (Path.normalize ⟨"main.cd"⟩) []
        opened := .file .start selfStoring ⟨"main.cd"⟩
    obtain ⟨x', s', ran, reported, -⟩ :=
      recursive_type_iff (by decide) begins visited noErrors known
    exact ⟨token, decl, s, x', s', visited, ran, reported (.inr distinct) (nests_of_ref mem own)⟩
  case h_2 => cases passed

def shadowing : String :=
  "struct Node \x7b v i32 \x7d\nstruct Holder \x7b n Node \x7d\n" ++
    "func f() \x7b\n struct Node \x7b h Holder \x7d\n\x7d"

def reportsOther : Stmt → CheckState → Bool
  | .function _ sig [.record token decl], s =>
    let sig := s.resolver.resolveSignature sig
    let t := (s.declare sig.name (.func sig)).enterFunction sig
    decide (t.errors = [] ∧ (∀ f ∈ decl.fields, (t.declaring decl).Resolves f.ty) ∧
      ∀ f ∈ decl.fields, ∀ r ∈ ((t.declaring decl).context.fieldType f.ty).records,
        r.id ≠ decl.id ∧ ∀ g ∈ r.fields, g.ty.element.ref?.isNone = true) &&
    match Check.stmt (.record token decl) (within 0) t with
    | .ok (_, s') => decide
      (⟨.check (.recursiveType (Name.bare decl.name)), token.start⟩ ∈ s'.errors)
    | .error _ => false
  | _, _ => false

/-- A record that stores another one of its name is reported, though it does not store itself. -/
theorem same_name_reported :
    ∃ token decl s x' s', Visits (within 0)
        (.top (reading shadowing (Path.normalize ⟨"main.cd"⟩) [] opened).program.statements)
        (begun shadowing (Path.normalize ⟨"main.cd"⟩) [] opened) (.stmt (.record token decl)) s
        none ∧
      s.errors = [] ∧ (∀ f ∈ decl.fields, (s.declaring decl).Resolves f.ty) ∧
      (¬ s.Nests decl fun r => r.id = decl.id) ∧
      Runs (within 0) (Check.stmt (.record token decl)) s x' s' ∧
      ⟨.check (.recursiveType (Name.bare decl.name)), token.start⟩ ∈ s'.errors := by
  have test : lastPasses shadowing reportsOther = true := by decide +kernel
  obtain ⟨x, s, visited, passed⟩ := exists_of_lastPasses test
  unfold reportsOther at passed
  split at passed
  case h_1 _ sig token decl =>
    obtain ⟨facts, reported⟩ := Bool.and_eq_true_iff.mp passed
    obtain ⟨noErrors, known, others⟩ := of_decide_eq_true facts
    have function := visited.part (.step rfl (.step rfl .here))
    have body := function.part (.step (runs_enterFunction.mpr ⟨rfl, rfl⟩) .here)
    have declared := body.part (.step .get .here)
    split at reported
    case h_1 x' s' ran =>
      refine ⟨token, decl, _, x', s', declared, noErrors, known, ?_, ran,
        of_decide_eq_true reported⟩
      have begins : Begins .default (.ofFiles []) 0 shadowing (Path.normalize ⟨"main.cd"⟩) []
          opened := .file .start shadowing ⟨"main.cd"⟩
      obtain ⟨room, session, args⟩ := begins.sealed rfl
      obtain ⟨-, sealed, -⟩ := sealed_of_visits room (by simp) session.registry args declared
        noErrors fun _ _ _ _ => id
      rintro ⟨f, mem, r, contains, same⟩
      have occurs := contains.mem_records_fieldType (sealed.recorded_define decl) fun r hr g hg =>
        Ty.known_iff.mpr ((others f mem r hr).2 g hg)
      exact (others f mem r occurs).1 same
    case h_2 => cases reported
  case h_2 => cases passed

end Build

end FrontEnd
