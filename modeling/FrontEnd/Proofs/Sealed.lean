import FrontEnd.Proofs.Checking.Upkeep
import FrontEnd.Proofs.Log.Known
import FrontEnd.Proofs.Ty.Containment
import FrontEnd.Proofs.Typing.Complete

/-!
The types that are known in an analysis without errors. What they store is known to the last, so
that nothing is left to look up, and none of them has the id of a record that is yet to be declared.
Sessions in which all builds were accepted begin like this, and units that are imported with types
from such an analysis keep it so.
-/

namespace FrontEnd

open Build Check CheckState

/-- The state in which the fields of a record are looked at: its name stands for it already. -/
abbrev CheckState.declaring (s : CheckState) (decl : Record) : CheckState :=
  s.define decl.name (.record decl)

/-- A record that was declared without errors: nothing is left to look up for what it stores, and
its id has been handed out, the next one being `n`, and is none of those that are spared. -/
structure Record.Sealed (spared : Nat → Prop) (n : Nat) (r : Record) : Prop where
  handed : r.id < n
  other : ¬ spared r.id
  known : ∀ f ∈ r.fields, f.ty.Known

/-- What a name stands for in an analysis without errors. -/
structure Ty.Sealed (spared : Nat → Prop) (n : Nat) (t : Ty) : Prop where
  record : ∃ decl, t = .record decl
  records : t.Of (Record.Sealed spared n)

structure Session.Sealed (spared : Nat → Prop) (s : Session) : Prop where
  handed : ∀ id, spared id → id < s.nextId
  registry : ∀ p ∈ s.registry, p.2.Sealed spared s.nextId

structure Tables.Sealed (spared : Nat → Prop) (t : Tables) : Prop where
  types : ∀ name u, t.types.get? name = some u → u.Sealed spared t.session.nextId
  modules : ∀ p ∈ t.modules, p.2.unit.env.Holds (Ty.Sealed spared t.session.nextId)
  session : t.session.Sealed spared

/-- The types in a label are sealed, and so will be what it declares. -/
def Label.Sealed (spared : Nat → Prop) (n : Nat) (l : Label) : Prop :=
  l.Of (Record.Sealed spared n) ∧ ∀ decl, l = .record decl → decl.id < n ∧ ¬ spared decl.id

def Importer.Seals (imp : Importer) : Prop :=
  ∀ {spared source path typeArgs session unit session'}, session.config.accepts 0 = true →
    session.Sealed spared → (∀ t ∈ typeArgs, t.Of (Record.Sealed spared session.nextId)) →
    imp source path typeArgs session = .ok (.ok unit, session') →
      unit.env.Holds (Ty.Sealed spared session'.nextId) ∧ session'.Sealed spared

section

variable {spared : Nat → Prop} {n m : Nat} {t : Ty} {s : CheckState}

theorem Record.Sealed.mono {r : Record} (h : r.Sealed spared n) (le : n ≤ m) : r.Sealed spared m :=
  ⟨h.handed.trans_le le, h.other, h.known⟩

theorem Ty.Of.sealed_mono (h : t.Of (Record.Sealed spared n)) (le : n ≤ m) :
    t.Of (Record.Sealed spared m) :=
  h.mono fun _ sealed => sealed.mono le

theorem Ty.Sealed.mono (h : t.Sealed spared n) (le : n ≤ m) : t.Sealed spared m :=
  ⟨h.record, h.records.sealed_mono le⟩

theorem Label.Of.sealed_mono {l : Label} (h : l.Of (Record.Sealed spared n)) (le : n ≤ m) :
    l.Of (Record.Sealed spared m) := by
  cases l with
  | token t => trivial
  | type t | inferred t => exact Ty.Of.sealed_mono h le
  | record decl => exact fun f hf => (h f hf).sealed_mono le
  | signature sig => exact Ty.Of.sealed_mono h le

theorem Label.Sealed.mono {l : Label} (h : l.Sealed spared n) (le : n ≤ m) : l.Sealed spared m :=
  ⟨h.1.sealed_mono le, fun decl same => ⟨(h.2 decl same).1.trans_le le, (h.2 decl same).2⟩⟩

theorem Record.Sealed.spare {spared' : Nat → Prop} {r : Record} (h : r.Sealed spared n)
    (new : ∀ id, spared' id → n ≤ id) : r.Sealed spared' n :=
  ⟨h.handed, fun out => absurd (new r.id out) h.handed.not_ge, h.known⟩

theorem CheckState.nextId_define (s : CheckState) (name : String) (t : Ty) :
    (s.define name t).session.nextId = s.session.nextId := by
  unfold define
  dsimp only
  split <;> rfl

namespace Tables.Sealed

theorem holds (h : s.tables.Sealed spared) : s.env.Holds (Ty.Sealed spared s.session.nextId) :=
  .intro h.types h.modules

theorem registry (h : s.tables.Sealed spared) :
    ∀ p ∈ s.context.registry, p.2.Sealed spared s.session.nextId :=
  h.session.registry

theorem lookup (h : s.tables.Sealed spared) {ref : TypeRef}
    (found : s.resolver.lookup ref = some t) : t.Sealed spared s.session.nextId :=
  h.holds.lookup h.session.registry found

theorem resolve (h : s.tables.Sealed spared) (ht : t.Of (Record.Sealed spared s.session.nextId)) :
    (s.resolver.resolve t).Of (Record.Sealed spared s.session.nextId) :=
  Resolver.Of.resolve (fun _ _ found => (h.lookup found).records) ht

theorem resolveTypeArgs (h : s.tables.Sealed spared) {imp : Importer} {token : Token}
    {ts us : List Ty} (room : s.Room)
    (args : ∀ t ∈ ts, t.Of (Record.Sealed spared s.session.nextId))
    (resolved : Runs imp (resolveTypeArgs token ts) s us s) :
    ∀ u ∈ us, u.Of (Record.Sealed spared s.session.nextId) := by
  obtain ⟨rfl, -⟩ := (silent_resolveTypeArgs room).mp resolved
  intro u hu
  obtain ⟨t, ht, rfl⟩ := List.mem_map.mp hu
  exact h.resolve (args t ht)

theorem lookup_define (h : s.tables.Sealed spared) (decl : Record) {ref : TypeRef}
    (found : (s.declaring decl).resolver.lookup ref = some t) :
    t = .record decl ∨ t.Sealed spared s.session.nextId := by
  have holds := Context.holds_define decl.name (.record decl) h.holds h.registry
  rw [← context_define] at holds
  exact holds.1.lookup holds.2 found

theorem recorded_define (h : s.tables.Sealed spared) (decl : Record) :
    (s.declaring decl).resolver.Recorded where
  hops := rfl
  lookup found := by
    obtain rfl | sealed := h.lookup_define decl found
    · exact ⟨decl, rfl⟩
    · exact sealed.record

theorem fieldType (h : s.tables.Sealed spared) {decl : Record}
    (ht : t.Of (Record.Sealed spared s.session.nextId))
    (storable : (s.declaring decl).Storable decl.name t) :
    ((s.declaring decl).context.fieldType t).Known ∧
      ((s.declaring decl).context.fieldType t).Of
        (Record.Sealed spared s.session.nextId) := by
  induction t using Ty.nested with
  | array t n ih => exact ih ht storable
  | named ref =>
    obtain ⟨_, known, apart⟩ := storable
    change ((s.declaring decl).resolver.resolve (.named ref)).Known ∧
      ((s.declaring decl).resolver.resolve (.named ref)).Of _
    obtain own | sealed := h.lookup_define decl ((h.recorded_define decl).lookup_of_resolve known)
    · rw [own, stores_self] at apart
      cases apart
    · obtain ⟨inner, same⟩ := sealed.record
      exact ⟨same ▸ Ty.known_of_ref? rfl, sealed.records⟩
  | _ => exact ⟨Ty.known_of_ref? rfl, ht⟩

theorem recordDecl {imp : Importer} {s' : CheckState} {token : Token} {decl decl' : Record}
    (h : s.tables.Sealed spared) (label : Label.Sealed spared s.session.nextId (.record decl))
    (declared : Runs imp (recordDecl token decl) s decl' s') (c : s'.Clear) :
    s'.session.nextId = s.session.nextId ∧ s'.tables.Sealed spared := by
  obtain ⟨_, storable, rfl, rfl⟩ := clear_recordDecl declared c
  obtain ⟨types, own⟩ := label
  have sealed : (Ty.record ((s.declaring decl).context.fieldTypes decl)).Sealed
      spared s.session.nextId := by
    refine ⟨⟨_, rfl⟩, Ty.of_record.mpr ⟨⟨(own decl rfl).1, (own decl rfl).2, ?_⟩, ?_⟩⟩
    · intro f hf
      obtain ⟨g, hg, rfl⟩ := List.mem_map.mp hf
      exact (h.fieldType (types g hg) (storable g hg)).1
    · intro f hf
      obtain ⟨g, hg, rfl⟩ := List.mem_map.mp hf
      exact (h.fieldType (types g hg) (storable g hg)).2
  have defined := Context.holds_redefine decl.name (.record decl) sealed h.types h.registry
  rw [← context_define, ← context_define] at defined
  have same : ((s.declaring decl).define decl.name (.record
      ((s.declaring decl).context.fieldTypes decl))).session.nextId =
        s.session.nextId := by
    rw [nextId_define, nextId_define]
  refine ⟨same, fun name u found => ?_, fun p hp => ?_, fun id out => ?_, fun p hp => ?_⟩
  · exact (defined.1 name u found).mono same.ge
  · exact (h.modules p hp).imp fun u sealed => sealed.mono same.ge
  · exact (h.session.handed id out).trans_eq same.symm
  · exact (defined.2 p hp).mono same.ge

end Tables.Sealed

namespace Build

variable {source : String} {path : Path} {typeArgs : List Ty} {session : Session}

theorem handed_of_mem {decl : Record}
    (mem : .record decl ∈ Stmt.labelsOf (reading source path typeArgs session).program.statements) :
    session.nextId < decl.id ∧ decl.id < (reading source path typeArgs session).nextId :=
  (handed_reading source path typeArgs session).inside decl
    (List.mem_filterMap.mpr ⟨.record decl, mem, rfl⟩)

theorem of_reading (args : ∀ t ∈ typeArgs, t.Of (Record.Sealed spared session.nextId)) {l : Label}
    (mem : l ∈ Stmt.labelsOf (reading source path typeArgs session).program.statements) :
    l.Of (Record.Sealed spared (reading source path typeArgs session).nextId) := by
  have later := (lt_nextId_reading source path typeArgs session).le
  have types := Program.read_sieve (.ofSource source path.text)
    ⟨toString session.nextId, typeArgs, session.nextId + 1, session.config.maxParseErrors⟩ args
  exact (types l mem).sealed_mono later

theorem sealed_reading (args : ∀ t ∈ typeArgs, t.Of (Record.Sealed spared session.nextId))
    {l : Label} (mem : l ∈ Stmt.labelsOf (reading source path typeArgs session).program.statements)
    (other : ∀ decl, l = .record decl → ¬ spared decl.id) :
    l.Sealed spared (reading source path typeArgs session).nextId :=
  ⟨of_reading args mem, fun decl same => ⟨(handed_of_mem (same ▸ mem)).2, other decl same⟩⟩

theorem sealed_begun (handed : ∀ id, spared id → id < (reading source path typeArgs session).nextId)
    (registry : ∀ p ∈ session.registry, p.2.Sealed spared session.nextId) :
    (begun source path typeArgs session).tables.Sealed spared :=
  ⟨nofun, nofun, handed, fun p hp =>
    (registry p hp).mono (lt_nextId_reading source path typeArgs session).le⟩

end Build

namespace Importer.Seals

variable {imp : Importer}

theorem imports (seals : imp.Seals) (counts : imp.Counts) {s' : CheckState} {token : Token}
    {name path : String} {types : List Ty} (h : s.tables.Sealed spared)
    (args : ∀ t ∈ types, t.Of (Record.Sealed spared s.session.nextId))
    (imported : Imports imp token name types path s s') (began : s.Clear)
    (c : s'.Clear) : s.session.nextId ≤ s'.session.nextId ∧ s'.tables.Sealed spared := by
  obtain ⟨session, source, unit, session', begins, _, checked, rfl⟩ := clear_imports imported c
  have later := (counts _ _ _ _ _ _ checked).1
  have inner : session.config.accepts 0 = true ∧ session.Sealed spared ∧
      session.nextId = s.session.nextId := by
    rw [Session.begin?_eq_some begins]
    exact ⟨began.accepts, ⟨h.session.handed, h.session.registry⟩, rfl⟩
  obtain ⟨room, sealed, same⟩ := inner
  rw [← same] at args
  obtain ⟨env, sealed⟩ := seals room sealed args checked
  rw [same] at later
  exact ⟨later, fun name u found => (h.types name u found).mono later,
    Table.forall_insert (fun p hp => (h.modules p hp).imp fun u sealed => sealed.mono later) env,
    sealed.handed, sealed.registry⟩

theorem upkeep (seals : imp.Seals) (counts : imp.Counts) (steady : imp.Steady) :
    Upkeep imp (Label.Sealed spared n) (fun t => n ≤ t.session.nextId ∧ t.Sealed spared) where
  enter hs := ⟨hs.1, hs.2.types, hs.2.modules, hs.2.session⟩
  leave later hs around :=
    ⟨hs.1, fun name u found => (around.2.types name u found).mono later, hs.2.modules,
      hs.2.session⟩
  record label c declared hs := by
    obtain ⟨same, sealed⟩ := hs.2.recordDecl (label.mono hs.1) declared c
    exact ⟨hs.1.trans_eq same.symm, sealed⟩
  imports labels c resolved imported hs := by
    have began := (keeps_imports steady imported).clear c
    have args := hs.2.resolveTypeArgs began.room
      (fun t ht => Ty.Of.sealed_mono (labels t ht).1 hs.1) resolved
    obtain ⟨later, sealed⟩ := seals.imports counts hs.2 args imported began c
    exact ⟨hs.1.trans later, sealed⟩

theorem unitWith (seals : imp.Seals) (counts : imp.Counts) (steady : imp.Steady)
    (total : imp.Total) : Importer.Seals (unitWith imp) := by
  intro spared source path typeArgs session unit session' room sealed args built
  have ok := Lawful.any steady total
  have later := (lt_nextId_reading source path typeArgs session).le
  cases unitWith_eq_ok.mp built with
  | @accepted xs s readable checked noErrors =>
    have derived : Checks imp _ (.top _) _ _ _ := Checks.of_runs ok checked
    have grown : Grows _ _ := derived.change steady
    have ended : s.Clear := clear_of_accepts (grown.config ▸ room) noErrors
    have labels : ∀ l ∈ Stmt.labelsOf (reading source path typeArgs session).program.statements,
        l.Sealed spared (reading source path typeArgs session).nextId := by
      intro l hl
      refine sealed_reading args hl fun decl same out => ?_
      have new := (handed_of_mem (same ▸ hl)).1
      exact absurd (sealed.handed decl.id out) new.not_gt
    have began : (begun source path typeArgs session).tables.Sealed spared :=
      sealed_begun (fun id out => (sealed.handed id out).trans_le later) sealed.registry
    obtain ⟨-, sealed⟩ := (seals.upkeep counts steady).runs ok counts (i := .top _) rfl labels
      checked ended ⟨le_rfl, began⟩
    exact ⟨.intro sealed.types sealed.modules, sealed.session⟩

end Importer.Seals

end

namespace Build

theorem within_seals (n : Nat) : Importer.Seals (within n) := by
  induction n with
  | zero =>
    intro _ _ _ _ _ _ _ _ _ _ built
    cases built
  | succ n ih =>
    obtain ⟨steady, total⟩ := within_steady_total n
    exact ih.unitWith (within_counts n) steady total

/-- A session in which all files that were built have been accepted. -/
inductive Accepting (config : Config) (loader : Loader) : Session → Prop
  | start : Accepting config loader (.start config loader)
  | built {session session' : Session} {source : String} {path : Path} {unit : CheckedUnit}
      (before : Accepting config loader session)
      (accepted : file source path session = .ok (.ok unit, session')) :
      Accepting config loader session'

/-- A unit begins to be analysed, in a build without errors so far; the units that it imports nest
at most `n` deep. It is the first one of a build, or a statement imports it. -/
inductive Begins (config : Config) (loader : Loader) :
    Nat → String → Path → List Ty → Session → Prop
  | file {session : Session} (accepting : Accepting config loader session) (source : String)
      (path : Path) :
      Begins config loader session.loader.size source path.normalize []
        ((session.begin? path.normalize).getD session)
  | imported {n : Nat} {source : String} {path : Path} {typeArgs : List Ty} {session : Session}
      {token : Token} {name file : String} {args types : List Ty} {s : CheckState}
      {around : Option CheckState} {inner : Session} {text : String}
      (outer : Begins config loader (n + 1) source path typeArgs session)
      (visited : Visits (within (n + 1))
        (.top (reading source path typeArgs session).program.statements)
        (begun source path typeArgs session) (.stmt (.importUnit token name args file)) s around)
      (noErrors : s.errors = [])
      (resolved : Runs (within (n + 1)) (resolveTypeArgs token args) s types s)
      (begins : s.session.begin? (importedFile s file) = some inner)
      (read : inner.loader.read (importedFile s file) = .ok text) :
      Begins config loader n text (importedFile s file) types inner

section

variable {config : Config} {loader : Loader} {n : Nat} {source : String} {path : Path}
  {typeArgs : List Ty} {session : Session}

/-- The types that are known when a part of a unit begins to be checked are sealed. Ids may be
spared that are in no declaration before that part. -/
theorem sealed_of_visits {spared : Nat → Prop} {j : Item} {s : CheckState}
    {around : Option CheckState} (room : session.config.accepts 0 = true)
    (handed : ∀ id, spared id → id < (reading source path typeArgs session).nextId)
    (registry : ∀ p ∈ session.registry, p.2.Sealed spared session.nextId)
    (args : ∀ t ∈ typeArgs, t.Of (Record.Sealed spared session.nextId))
    (visited : Visits (within n) (.top (reading source path typeArgs session).program.statements)
      (begun source path typeArgs session) j s around)
    (noErrors : s.errors = [])
    (other : ∀ before, (before ++ j.labels).Subperm
        (Stmt.labelsOf (reading source path typeArgs session).program.statements) →
      ∀ decl, .record decl ∈ before → ¬ spared decl.id) :
    s.Clear ∧ s.tables.Sealed spared ∧
      ∀ l ∈ j.labels, l.Of (Record.Sealed spared s.session.nextId) := by
  obtain ⟨steady, total⟩ := within_steady_total n
  have ok := Lawful.any steady total
  have seals : Importer.Seals (within n) := within_seals n
  have config : s.session.config = session.config := (visited.session ok).config
  have reached : s.Clear := clear_of_accepts (config ▸ room) noErrors
  obtain ⟨before, inside, kept⟩ := (seals.upkeep (within_counts n) steady).visits ok
    (within_counts n) visited reached ⟨le_rfl, sealed_begun handed registry⟩
  have earlier : ∀ l ∈ before, l.Sealed spared (reading source path typeArgs session).nextId :=
    fun l hl => sealed_reading args (inside.subset (List.mem_append_left _ hl))
      fun decl same => other before inside decl (same ▸ hl)
  obtain ⟨later, sealed⟩ := kept earlier
  refine ⟨reached, sealed, fun l hl => ?_⟩
  exact (of_reading args (visited.labels_subset hl)).sealed_mono later

theorem sealed_begin? {spared : Nat → Prop} (sealed : session.Sealed spared) (path : Path) :
    ((session.begin? path).getD session).config = session.config ∧
      ((session.begin? path).getD session).Sealed spared := by
  cases begins : session.begin? path with
  | none => exact ⟨rfl, sealed⟩
  | some inner =>
    obtain rfl := Session.begin?_eq_some begins
    exact ⟨rfl, sealed.handed, sealed.registry⟩

theorem Accepting.sealed (room : config.accepts 0 = true) (h : Accepting config loader session) :
    session.config = config ∧ session.Sealed fun _ => False := by
  induction h with
  | start => exact ⟨rfl, nofun, nofun⟩
  | built _ accepted ih =>
    obtain ⟨inner, checked, rfl⟩ := file_eq_ok.mp accepted
    obtain ⟨same, began⟩ := sealed_begin? ih.2 _
    have limits := same.trans ih.1
    have kept := ((within_steady_total _).1 _ _ _ _ _ _ checked).1
    obtain ⟨-, sealed⟩ := within_seals _ (limits ▸ room) began (List.forall_mem_nil _) checked
    exact ⟨kept.trans limits, sealed.handed, sealed.registry⟩

theorem Begins.sealed (room : config.accepts 0 = true)
    (h : Begins config loader n source path typeArgs session) :
    session.config.accepts 0 = true ∧ (session.Sealed fun _ => False) ∧
      ∀ t ∈ typeArgs, t.Of (Record.Sealed (fun _ => False) session.nextId) := by
  induction h with
  | file accepting source path =>
    obtain ⟨limits, sealed⟩ := accepting.sealed room
    obtain ⟨same, began⟩ := sealed_begin? sealed path.normalize
    exact ⟨(same.trans limits).symm ▸ room, began, nofun⟩
  | imported outer visited noErrors resolved begins _ ih =>
    obtain ⟨room, sealed, args⟩ := ih
    obtain ⟨reached, sealed, labels⟩ := sealed_of_visits room nofun sealed.registry args visited
      noErrors fun _ _ _ _ => id
    obtain rfl := Session.begin?_eq_some begins
    refine ⟨reached.accepts, ⟨sealed.session.handed, sealed.session.registry⟩, ?_⟩
    refine sealed.resolveTypeArgs reached.room (fun t ht => ?_) resolved
    exact labels (.type t) (by simp [Item.labels, Stmt.labels, ht])

theorem id_ne_of_before {before : List Label} {token : Token} {decl : Record}
    (inside : (before ++ (Stmt.record token decl).labels).Subperm
      (Stmt.labelsOf (reading source path typeArgs session).program.statements)) {d : Record}
    (mem : .record d ∈ before) : d.id ≠ decl.id := by
  obtain ⟨ls, perm, sub⟩ := inside
  have increasing := (handed_reading source path typeArgs session).increasing
  have distinct : ((Label.declared ls).map Record.id).Nodup :=
    (List.pairwise_map.mpr (increasing.imp fun lt => lt.ne)).sublist ((sub.filterMap _).map _)
  have order : (Label.declared ls).Perm
      (Label.declared (before ++ (Stmt.record token decl).labels)) := perm.filterMap _
  rw [(order.map _).nodup_iff, Label.declared_append, List.map_append, List.nodup_append]
    at distinct
  exact distinct.2.2 d.id (List.mem_map_of_mem (List.mem_filterMap.mpr ⟨_, mem, rfl⟩)) decl.id
    (by simp [Stmt.labels])

end

end Build

end FrontEnd
