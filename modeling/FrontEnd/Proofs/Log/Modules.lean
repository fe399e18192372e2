import FrontEnd.Proofs.Log.Basic
import FrontEnd.Proofs.Registry

namespace FrontEnd

open Build Check CheckState

def Module.Apart (p q : String × Module) : Prop :=
  p.2.unit.program.id ≠ q.2.unit.program.id

/-- The modules in the tables have numbers that were handed out, one to each. -/
structure Tables.Counted (start : Nat) (t : Tables) : Prop where
  begun : start ≤ t.session.nextId
  earlier : ∀ p ∈ t.modules, ∃ n < t.session.nextId, p.2.unit.program.id = toString n
  apart : t.modules.Pairwise Module.Apart

namespace Tables.Counted

variable {start : Nat} {t : Tables}

theorem withSession (h : t.Counted start) {s : Session} (later : t.session.nextId ≤ s.nextId) :
    Tables.Counted start { t with session := s } where
  begun := h.begun.trans later
  earlier p hp := by
    obtain ⟨n, lt, same⟩ := h.earlier p hp
    exact ⟨n, lt.trans_le later, same⟩
  apart := h.apart

theorem withModule (h : t.Counted start) {s : Session} (name : String) (file : Path)
    {unit : CheckedUnit} (id : unit.program.id = toString t.session.nextId)
    (later : t.session.nextId < s.nextId) :
    Tables.Counted start
      { t with modules := Table.insert t.modules name ⟨name, file, unit⟩, session := s } where
  begun := h.begun.trans later.le
  earlier := by
    refine Table.forall_insert (fun p hp => ?_) ⟨_, later, id⟩
    obtain ⟨n, lt, same⟩ := h.earlier p hp
    exact ⟨n, lt.trans later, same⟩
  apart := by
    refine List.pairwise_cons.mpr ⟨fun p hp => ?_, h.apart.filter _⟩
    obtain ⟨n, lt, same⟩ := h.earlier p (List.mem_filter.mp hp).1
    rw [Module.Apart, id, same]
    intro equal
    exact lt.ne' (Name.toString_injective equal)

end Tables.Counted

def Importer.Counts (imp : Importer) : Prop :=
  ∀ source path typeArgs session r session',
    imp source path typeArgs session = .ok (r, session') →
      session.nextId ≤ session'.nextId ∧ ∀ unit, r = .ok unit →
        unit.program.id = toString session.nextId ∧ session.nextId < session'.nextId ∧
          unit.env.modules.Pairwise Module.Apart

namespace Importer.Counts

variable {imp : Importer}

theorem imports (counts : imp.Counts) {start : Nat} {token : Token} {name : String}
    {typeArgs : List Ty} {path : String} {s s' : CheckState} (hs : s.tables.Counted start)
    (h : Imports imp token name typeArgs path s s') : s'.tables.Counted start := by
  have same {session : Session} (begins : s.session.begin? (importedFile s path) = some session) :
      session.nextId = s.session.nextId := by
    rw [Session.begin?_eq_some begins]
  cases h with
  | cycle _ =>
    rw [tables_note]
    exact hs
  | unavailable begins _ =>
    rw [tables_note]
    exact hs.withSession (same begins).ge
  | failed begins _ checked =>
    have later := (counts _ _ _ _ _ _ checked).1
    rw [tables_foldl_note, tables_note]
    exact hs.withSession (same begins ▸ later)
  | loaded begins _ checked =>
    obtain ⟨id, later, _⟩ := (counts _ _ _ _ _ _ checked).2 _ rfl
    rw [same begins] at id later
    exact hs.withModule name (importedFile s path) id later

theorem invariant (counts : imp.Counts) (start : Nat) :
    Invariant imp imp (fun _ => True) (Tables.Counted start) where
  enter hs := ⟨hs.begun, hs.earlier, hs.apart⟩
  leave _ hs _ := ⟨hs.begun, hs.earlier, hs.apart⟩
  define {s} decl _ hs := by
    have later : s.session.nextId ≤ (s.define decl.name (.record decl)).session.nextId := by
      unfold CheckState.define
      split <;> exact le_rfl
    have counted := hs.withSession later
    exact ⟨counted.begun, counted.earlier, counted.apart⟩
  imports hs h := ⟨h, counts.imports hs h⟩

theorem unitWith (counts : imp.Counts) (steady : imp.Steady) (total : imp.Total) :
    Importer.Counts (unitWith imp) := by
  intro source path typeArgs session r session' built
  have later := lt_nextId_reading source path typeArgs session
  have ends {xs : List Stmt} {s : CheckState}
      (checked : Runs imp (topLevel (reading source path typeArgs session).program.statements)
        (begun source path typeArgs session) xs s) :
      s.tables.Counted (reading source path typeArgs session).nextId := by
    have derived := Checks.of_runs (Lawful.any steady total) checked
    exact (derived.carry steady (counts.invariant _) (fun _ => Item.named_true _)
      ⟨le_rfl, nofun, .nil⟩).2
  cases unitWith_eq_ok.mp built with
  | unreadable _ => exact ⟨later.le, nofun⟩
  | rejected _ checked _ => exact ⟨later.le.trans (ends checked).begun, nofun⟩
  | accepted _ checked _ =>
    have counted := ends checked
    refine ⟨later.le.trans counted.begun, fun unit same => ?_⟩
    obtain rfl := Except.ok.inj same
    exact ⟨id_reading source path typeArgs session, later.trans_le counted.begun, counted.apart⟩

end Importer.Counts

namespace Build

theorem within_counts (n : Nat) : Importer.Counts (within n) := by
  induction n with
  | zero =>
    intro _ _ _ session _ _ built
    cases built
    exact ⟨le_rfl, nofun⟩
  | succ n ih => exact ih.unitWith (within_steady_total n).1 (within_steady_total n).2

theorem LogsWithin.apart {n : Nat} {source : String} {path : Path} {typeArgs : List Ty}
    {session session' : Session} {log : List UnitRun} {r : Except (List Diagnostic) CheckedUnit}
    (logged : LogsWithin n source path typeArgs session log r session') :
    ∀ u ∈ log, ∀ c, u.result = .ok c → c.env.modules.Pairwise Module.Apart := by
  induction n generalizing source path typeArgs session log r session' with
  | zero =>
    obtain ⟨rfl, _⟩ := logged
    exact nofun
  | succ n ih =>
    have built := (logsWithin_of (n + 1)).mpr ⟨log, logged⟩
    have counted := (within_counts (n + 1) _ _ _ _ _ _ built).2
    cases logged with
    | unreadable _ => simp
    | checked _ logged =>
      exact List.forall_mem_cons.mpr ⟨fun c accepted => (counted c accepted).2.2,
        logged.forall fun inner => ih inner.2⟩

theorem Logs.apart {source : String} {path : Path} {typeArgs : List Ty}
    {session session' : Session} {log : List UnitRun} {r : Except (List Diagnostic) CheckedUnit}
    (logged : Logs source path typeArgs session log r session') :
    ∀ u ∈ log, ∀ c, u.result = .ok c → c.env.modules.Pairwise Module.Apart :=
  LogsWithin.apart logged

end Build

end FrontEnd
