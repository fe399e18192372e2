import FrontEnd.Proofs.Build
import FrontEnd.Proofs.Checking.Invariant
import FrontEnd.Proofs.Ty.Following
import FrontEnd.Proofs.Typing.Clean

namespace FrontEnd

/-- The tables that can arise in builds over a set of files: what a build starts with, and what each
step that changes the tables makes of them. -/
inductive Tables.Arises (config : Config) (files : List (String × String)) : Tables → Prop
  | start : Arises config files ⟨.empty, [], .start config (.ofFiles files)⟩
  /-- A unit starts with nothing but the session. -/
  | unit {t : Tables} (before : Arises config files t) : Arises config files ⟨.empty, [], t.session⟩
  | numbered {t : Tables} (before : Arises config files t) (n : Nat) :
      Arises config files { t with session := { t.session with nextId := n } }
  | begun {t : Tables} {file : Path} {session : Session} (before : Arises config files t)
      (begins : t.session.begin? file = some session) :
      Arises config files { t with session := session }
  | finished {t : Tables} (before : Arises config files t) (file : Path) :
      Arises config files { t with session := t.session.finish file }
  | entered {t : Tables} (before : Arises config files t) :
      Arises config files { t with types := t.types.enter }
  | left {t around : Tables} (inside : Arises config files t)
      (outside : Arises config files around) :
      Arises config files { t with types := around.types }
  | defined {t : Tables} (before : Arises config files t) (decl : Record) :
      Arises config files
        { t with
          session :=
            if t.types.depth = 0 then t.session.register decl.name (.record decl) else t.session
          types := t.types.add decl.name (.record decl) }
  /-- A unit that is imported leaves its session behind. -/
  | returned {t inner : Tables} (before : Arises config files t)
      (checked : Arises config files inner) :
        Arises config files { t with session := inner.session }
  /-- A unit that is imported without errors becomes a module. -/
  | imported {t inner : Tables} {unit : CheckedUnit} (before : Arises config files t)
      (checked : Arises config files inner) (types : unit.env.types = inner.types)
      (modules : unit.env.modules = inner.modules) (name : String) (file : Path) :
      Arises config files { t with modules := Table.insert t.modules name ⟨name, file, unit⟩ }

def Session.Arises (config : Config) (files : List (String × String)) (session : Session) : Prop :=
  Tables.Arises config files ⟨.empty, [], session⟩

def CheckState.Arises (config : Config) (files : List (String × String)) (s : CheckState) : Prop :=
  s.tables.Arises config files

open Build Check CheckState

variable {config : Config} {files : List (String × String)}

theorem Tables.Arises.loader {t : Tables} (h : t.Arises config files) :
    t.session.loader = .ofFiles files := by
  induction h with
  | start => rfl
  | begun _ begins ih =>
    rw [Session.begin?_eq_some begins]
    exact ih
  | defined _ decl ih =>
    dsimp only
    split
    · exact ih
    · exact ih
  | unit _ ih | numbered _ _ ih | finished _ _ ih | entered _ ih => exact ih
  | left _ _ ih _ | returned _ _ _ ih | imported _ _ _ _ _ _ ih _ => exact ih

def Importer.Arising (config : Config) (files : List (String × String)) (imp : Importer) : Prop :=
  ∀ source path typeArgs session r session', session.Arises config files →
    imp source path typeArgs session = .ok (r, session') → session'.Arises config files ∧
      ∀ unit, r = .ok unit → ∃ t : Tables, t.Arises config files ∧ unit.env.types = t.types ∧
        unit.env.modules = t.modules

theorem CheckState.tables_foldl_note (s : CheckState) (ds : List Diagnostic) :
    (ds.foldl note s).tables = s.tables := by
  induction ds generalizing s with
  | nil => rfl
  | cons d ds ih =>
    rw [List.foldl_cons, ih]
    exact tables_note s d

namespace Importer.Arising

variable {imp : Importer}

theorem imports (arising : imp.Arising config files) {token : Token} {name : String}
    {typeArgs : List Ty} {path : String} {s s' : CheckState} (hs : s.Arises config files)
    (h : Imports imp token name typeArgs path s s') : s'.Arises config files := by
  unfold CheckState.Arises
  cases h with
  | cycle _ =>
    rw [tables_note]
    exact hs
  | unavailable begins _ =>
    rw [tables_note]
    exact (hs.begun begins).finished _
  | failed begins _ checked =>
    obtain ⟨inner, -⟩ := arising _ _ _ _ _ _ (hs.begun begins).unit checked
    rw [tables_foldl_note, tables_note]
    exact (hs.returned inner).finished _
  | loaded begins _ checked =>
    obtain ⟨inner, module⟩ := arising _ _ _ _ _ _ (hs.begun begins).unit checked
    obtain ⟨t, ht, types, modules⟩ := module _ rfl
    exact ((hs.returned inner).finished _).imported ht types modules _ _

theorem invariant (arising : imp.Arising config files) :
    Invariant imp imp (fun _ => True) (Tables.Arises config files) where
  enter hs := hs.entered
  leave _ hs around := hs.left around
  define decl _ hs := hs.defined decl
  imports hs h := ⟨h, arising.imports hs h⟩

theorem unitWith (arising : imp.Arising config files) (steady : imp.Steady) (total : imp.Total) :
    Importer.Arising config files (unitWith imp) := by
  intro source path typeArgs session r session' hs built
  have ok := Lawful.any steady total
  have begun : (begun source path typeArgs session).Arises config files := hs.numbered _
  cases unitWith_eq_ok.mp built with
  | unreadable _ => exact ⟨hs.numbered _, nofun⟩
  | rejected _ checked _ =>
    have ended := ((Checks.of_runs ok checked).carry steady arising.invariant
      (fun _ => Item.named_true _) begun).2
    exact ⟨ended.unit, nofun⟩
  | accepted _ checked _ =>
    have ended := ((Checks.of_runs ok checked).carry steady arising.invariant
      (fun _ => Item.named_true _) begun).2
    refine ⟨ended.unit, fun unit eq => ?_⟩
    obtain rfl := Except.ok.inj eq
    exact ⟨_, ended, rfl, rfl⟩

end Importer.Arising

namespace Build

theorem within_arising (n : Nat) : Importer.Arising config files (within n) := by
  induction n with
  | zero =>
    intro _ _ _ _ _ _ hs built
    cases built
    exact ⟨hs, nofun⟩
  | succ n ih => exact ih.unitWith (within_steady_total n).1 (within_steady_total n).2

theorem unit_arising : Importer.Arising config files unit :=
  fun source path typeArgs session => within_arising _ source path typeArgs session

end Build

inductive Environment.Recorded : Environment → Prop
  | intro {e : Environment} (types : e.types.All fun t => ∃ decl, t = .record decl)
      (modules : ∀ p ∈ e.modules, Environment.Recorded p.2.unit.env) : Environment.Recorded e

structure Tables.Recorded (t : Tables) : Prop where
  types : t.types.All fun t => ∃ decl, t = .record decl
  modules : ∀ p ∈ t.modules, p.2.unit.env.Recorded
  registry : ∀ p ∈ t.session.registry, ∃ decl, p.2 = .record decl

theorem Tables.Arises.recorded {t : Tables} (h : t.Arises config files) : t.Recorded := by
  induction h with
  | start => exact ⟨Scopes.all_empty, by simp, by simp [Session.start]⟩
  | unit _ ih => exact ⟨Scopes.all_empty, by simp, ih.registry⟩
  | numbered _ _ ih | finished _ _ ih => exact ⟨ih.types, ih.modules, ih.registry⟩
  | begun _ begins ih =>
    rw [Session.begin?_eq_some begins]
    exact ⟨ih.types, ih.modules, ih.registry⟩
  | entered _ ih => exact ⟨ih.types.enter, ih.modules, ih.registry⟩
  | left _ _ ih around => exact ⟨around.types, ih.modules, ih.registry⟩
  | defined _ decl ih =>
    refine ⟨ih.types.add ⟨decl, rfl⟩, ih.modules, ?_⟩
    dsimp only
    split
    · exact Table.forall_insert ih.registry ⟨decl, rfl⟩
    · exact ih.registry
  | returned _ _ ih inner => exact ⟨ih.types, ih.modules, inner.registry⟩
  | imported _ _ types modules name file ih inner =>
    exact ⟨ih.types, Table.forall_insert ih.modules
      (.intro (types ▸ inner.types) (modules ▸ inner.modules)), ih.registry⟩

end FrontEnd
