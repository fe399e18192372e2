import Mathlib.Data.Set.Basic
import FrontEnd.Proofs.Checking.Visits
import FrontEnd.Proofs.Termination

/-!
Logs of builds. A log lists the units that were read, each before the units that it imports, with
the session in which it was begun and what came of it. Every build has a log, and what the log says
about the result is what the build gives. The texts in it are the one that was given and texts of
the loader, of files that are not on the chain.
-/

namespace FrontEnd

/-- A unit that was read in a build, and what came of it. -/
structure UnitRun where
  source : String
  path : Path
  typeArgs : List Ty
  /-- The session in which it was begun. -/
  session : Session
  /-- The names whose entries in the registry changed while the unit itself was checked, and not one
  of the units that it imports. To write an entry again as it is does not change it. -/
  changes : Set String
  result : Except (List Diagnostic) CheckedUnit

namespace UnitRun

def reading (u : UnitRun) : ReadResult :=
  Build.reading u.source u.path u.typeArgs u.session

/-- The ids that were handed out when the unit was read: the first is its own, the others are those
of its records. -/
def ids (u : UnitRun) : List Nat :=
  List.range' u.session.nextId (u.reading.nextId - u.session.nextId)

end UnitRun

/-- Whether a list logs the building of a text under a path, with type arguments and in a session,
that comes to a result and leaves another session. -/
abbrev UnitLog :=
  String → Path → List Ty → Session → List UnitRun →
    Except (List Diagnostic) CheckedUnit → Session → Prop

/-- A text can be imported while `session` has its chain, and `inner` is the session then. -/
structure Session.Inside (session : Session) (source : String) (file : Path) (inner : Session) :
    Prop where
  new : session.importing.any file.same = false
  text : session.loader.read file = .ok source
  loader : inner.loader = session.loader
  chain : inner.importing = file :: session.importing

/-- The logs of what can be imported while `session` has its chain. -/
def UnitLog.Inside (units : UnitLog) (session : Session) : UnitLog :=
  fun source file typeArgs inner log r session' =>
    session.Inside source file inner ∧ units source file typeArgs inner log r session'

/-- The names whose types in the registry are others. -/
def Session.changed (s t : Session) : Set String :=
  {k | t.registered? k ≠ s.registered? k}

open Build Check CheckState

/-- A plan that is carried out logs the units that are imported, and the names under which its own
steps change the registry. -/
inductive Plan.Logs (units : UnitLog) :
    {α : Type} → Plan α → CheckState → List UnitRun → Set String → α → CheckState → Prop
  | done {α : Type} {a : α} {s} : Logs units (.done a) s [] ∅ a s
  | step {α β : Type} {m : Step β} {next : β → Plan α} {s b s₁ log changes a s'}
      (ran : ∀ imp, Runs imp m.check s b s₁) (rest : Logs units (next b) s₁ log changes a s') :
      Logs units (.step m next) s log (s.session.changed s₁.session ∪ changes) a s'
  | part {α : Type} {i : Item} {sure} {next : i.Result → Plan α}
      {s log changes r s₁ log' changes' a s'} (inner : Logs units (.of i) s log changes r s₁)
      (rest : Logs units (next r) s₁ log' changes' a s') :
      Logs units (.part i sure next) s (log ++ log') (changes ∪ changes') a s'
  | noText {α : Type} {file typeArgs} {next : _ → Plan α} {s reason log changes a s'}
      (noText : s.session.loader.read file = .error reason)
      (rest : Logs units (next (.error reason)) s log changes a s') :
      Logs units (.ask file typeArgs next) s log changes a s'
  | ask {α : Type} {file typeArgs} {next : _ → Plan α} {s source log r session' log' changes a s'}
      (text : s.session.loader.read file = .ok source)
      (logged : units source file typeArgs s.session log r session')
      (rest : Logs units (next (.ok r)) { s with session := session' } log' changes a s') :
      Logs units (.ask file typeArgs next) s (log ++ log') changes a s'

namespace Build

/-- What a unit comes to when its statements have been checked. -/
def verdict (source : String) (path : Path) (typeArgs : List Ty) (session : Session)
    (xs : List Stmt) (s : CheckState) : Except (List Diagnostic) CheckedUnit :=
  if s.errors.isEmpty then
    .ok ⟨⟨(reading source path typeArgs session).program.id, xs⟩, s.env⟩
  else .error s.errors

/-- A unit is logged before what it imports. -/
inductive LogsWith (units : UnitLog) (source : String) (path : Path) (typeArgs : List Ty)
    (session : Session) : List UnitRun → Except (List Diagnostic) CheckedUnit → Session → Prop
  | unreadable (errors : (reading source path typeArgs session).errors ≠ []) :
      LogsWith units source path typeArgs session
        [⟨source, path, typeArgs, session, ∅,
          .error (reading source path typeArgs session).errors⟩]
        (.error (reading source path typeArgs session).errors)
        { session with nextId := (reading source path typeArgs session).nextId }
  | checked {log changes xs s} (readable : (reading source path typeArgs session).errors = [])
      (checked : (Plan.of (.top (reading source path typeArgs session).program.statements)).Logs
        units (begun source path typeArgs session) log changes xs s) :
      LogsWith units source path typeArgs session
        (⟨source, path, typeArgs, session, changes,
          verdict source path typeArgs session xs s⟩ :: log)
        (verdict source path typeArgs session xs s) s.session

/-- Logs of units whose imports nest at most `n` deep; nothing is read below that. -/
def LogsWithin : Nat → UnitLog
  | 0 => fun _ _ _ session log r session' => log = [] ∧ r = .error [] ∧ session' = session
  | n + 1 => fun source path typeArgs session =>
    LogsWith ((LogsWithin n).Inside session) source path typeArgs session

def Logs : UnitLog := fun source path typeArgs session =>
  LogsWithin (session.loader.size + 1) source path typeArgs session

end Build

def UnitLog.Of (imp : Importer) (units : UnitLog) : Prop :=
  ∀ {source path typeArgs session r session'},
    imp source path typeArgs session = .ok (r, session') ↔
      ∃ log, units source path typeArgs session log r session'

namespace Plan

variable {α : Type} {imp : Importer} {units : UnitLog} {s s' : CheckState} {a : α}

theorem Logs.runs (of : units.Of imp) {p : Plan α} {log : List UnitRun} {changes : Set String}
    (h : p.Logs units s log changes a s') : Runs imp p.run s a s' := by
  induction h with
  | done => exact .ret
  | step ran _ ih => exact (ran imp).bind ih
  | part _ _ inner rest =>
    rw [run_of] at inner
    exact inner.bind rest
  | noText noText _ ih => exact (runs_importFrom.mpr (.inl ⟨_, noText, rfl, rfl⟩)).bind ih
  | ask text logged _ ih =>
    have built := of.mpr ⟨_, logged⟩
    exact (runs_importFrom.mpr (.inr ⟨_, _, _, text, built, rfl, rfl⟩)).bind ih

/-- Everything that is carried out has a log, by induction on how large the items are that a plan
can ask for. -/
theorem exists_logs (of : units.Of imp) (n : Nat) {p : Plan α} (below : p.Below n)
    (h : Runs imp p.run s a s') : ∃ log changes, p.Logs units s log changes a s' := by
  induction n using Nat.strong_induction_on generalizing α s s' a with
  | _ n smaller =>
    induction p generalizing s with
    | done b =>
      obtain ⟨rfl, rfl⟩ := runs_pure.mp h
      exact ⟨[], ∅, .done⟩
    | step m next ih =>
      obtain ⟨b, s₁, first, rest⟩ := runs_bind.mp h
      obtain ⟨log, changes, rest⟩ := ih b (below b) rest
      exact ⟨log, _, .step (fun imp' => (m.alone imp' imp s).trans first) rest⟩
    | part i sure next ih =>
      obtain ⟨r, s₁, first, rest⟩ := runs_bind.mp h
      rw [← run_of] at first
      obtain ⟨log, changes, inner⟩ := smaller i.size below.1 (below_of i) first
      obtain ⟨log', changes', rest⟩ := ih r (below.2 r) rest
      exact ⟨log ++ log', changes ∪ changes', .part inner rest⟩
    | ask file typeArgs next ih =>
      obtain ⟨r, s₁, first, rest⟩ := runs_bind.mp h
      obtain ⟨reason, noText, rfl, rfl⟩ | ⟨source, r, session, text, built, rfl, rfl⟩ :=
        runs_importFrom.mp first
      · obtain ⟨log, changes, rest⟩ := ih _ (below _) rest
        exact ⟨log, changes, .noText noText rest⟩
      · obtain ⟨log, logged⟩ := of.mp built
        obtain ⟨log', changes, rest⟩ := ih _ (below _) rest
        exact ⟨log ++ log', changes, .ask text logged rest⟩

end Plan

namespace Build

variable {source : String} {path : Path} {typeArgs : List Ty} {session session' : Session}
  {r : Except (List Diagnostic) CheckedUnit}

theorem verdict_of_errors {xs : List Stmt} {s : CheckState} (errors : s.errors ≠ []) :
    verdict source path typeArgs session xs s = .error s.errors := by
  simp [verdict, errors]

theorem verdict_of_noErrors {xs : List Stmt} {s : CheckState} (noErrors : s.errors = []) :
    verdict source path typeArgs session xs s =
      .ok ⟨⟨(reading source path typeArgs session).program.id, xs⟩, s.env⟩ := by
  simp [verdict, noErrors]

theorem logsWith_of {imp : Importer} {units : UnitLog} (of : units.Of imp) :
    UnitLog.Of (unitWith imp) (LogsWith units) := by
  intro source path typeArgs session r session'
  have traced {xs : List Stmt} {s : CheckState}
      (checked : Runs imp (topLevel (reading source path typeArgs session).program.statements)
        (begun source path typeArgs session) xs s) :
      ∃ log changes, (Plan.of (.top (reading source path typeArgs session).program.statements)).Logs
        units (begun source path typeArgs session) log changes xs s := by
    refine Plan.exists_logs of _ (Plan.below_of _) ?_
    rw [Plan.run_of]
    exact checked
  rw [unitWith_eq_ok]
  constructor
  · intro built
    cases built with
    | unreadable errors => exact ⟨_, .unreadable errors⟩
    | rejected readable checked errors =>
      obtain ⟨log, changes, logged⟩ := traced checked
      rw [← verdict_of_errors errors]
      exact ⟨_, .checked readable logged⟩
    | accepted readable checked noErrors =>
      obtain ⟨log, changes, logged⟩ := traced checked
      rw [← verdict_of_noErrors noErrors]
      exact ⟨_, .checked readable logged⟩
  · rintro ⟨log, logged⟩
    cases logged with
    | unreadable errors => exact .unreadable errors
    | @checked _ _ xs s readable logged =>
      have ran := logged.runs of
      rw [Plan.run_of] at ran
      by_cases noErrors : s.errors = []
      · rw [verdict_of_noErrors noErrors]
        exact .accepted readable ran noErrors
      · rw [verdict_of_errors noErrors]
        exact .rejected readable ran noErrors

open Classical in
noncomputable def inside (imp : Importer) (session : Session) : Importer :=
  fun source file typeArgs inner =>
    if session.Inside source file inner then imp source file typeArgs inner
    else .error .noOpenScope

theorem inside_of {imp : Importer} {units : UnitLog} (of : units.Of imp) (session : Session) :
    (units.Inside session).Of (inside imp session) := by
  intro source file typeArgs inner r session'
  by_cases can : session.Inside source file inner
  · simpa [inside, UnitLog.Inside, can] using of
  · simp [inside, UnitLog.Inside, can]

theorem logsWithin_of (n : Nat) : UnitLog.Of (within n) (LogsWithin n) := by
  induction n with
  | zero =>
    intro source path typeArgs session r session'
    constructor
    · rintro ⟨⟩
      exact ⟨[], rfl, rfl, rfl⟩
    · rintro ⟨_, _, rfl, rfl⟩
      rfl
  | succ n ih =>
    intro source path typeArgs session r session'
    obtain ⟨steady, total⟩ := within_steady_total n
    have same : within (n + 1) source path typeArgs session =
        unitWith (inside (within n) session) source path typeArgs session := by
      refine unitWith_congr steady total ?_
      intro source file typeArgs inner _ new text loader chain
      exact (if_pos ⟨new, text, loader, chain⟩).symm
    rw [same]
    exact logsWith_of (inside_of ih session)

theorem unit_eq_ok_iff_logs :
    unit source path typeArgs session = .ok (r, session') ↔
      ∃ log, Logs source path typeArgs session log r session' :=
  logsWithin_of _

def FileLogs (source : String) (path : Path) (session : Session) (log : List UnitRun)
    (r : Except (List Diagnostic) CheckedUnit) (session' : Session) : Prop :=
  ∃ inner, Logs source path.normalize []
    ((session.begin? path.normalize).getD session) log r inner ∧
    session' = inner.finish path.normalize

theorem file_eq_ok_iff_logs :
    file source path session = .ok (r, session') ↔
      ∃ log, FileLogs source path session log r session' := by
  rw [file_eq_ok]
  constructor
  · rintro ⟨inner, built, rfl⟩
    obtain ⟨log, logged⟩ := unit_eq_ok_iff_logs.mp built
    exact ⟨log, inner, logged, rfl⟩
  · rintro ⟨log, inner, logged, rfl⟩
    exact ⟨inner, unit_eq_ok_iff_logs.mpr ⟨log, logged⟩, rfl⟩

end Build

theorem Plan.Logs.forall {units : UnitLog} {P : UnitRun → Prop}
    (each : ∀ {source path typeArgs session log r session'},
      units source path typeArgs session log r session' → ∀ u ∈ log, P u)
    {α : Type} {p : Plan α} {s s' : CheckState} {log : List UnitRun} {changes : Set String} {a : α}
    (h : p.Logs units s log changes a s') : ∀ u ∈ log, P u := by
  induction h with
  | done => exact nofun
  | step _ _ ih => exact ih
  | part _ _ ih ih' => exact List.forall_mem_append.mpr ⟨ih, ih'⟩
  | noText _ _ ih => exact ih
  | ask _ logged _ ih => exact List.forall_mem_append.mpr ⟨each logged, ih⟩

/-- A unit has a text of the loader, and its file is not on the chain. -/
structure UnitRun.Loaded (u : UnitRun) (session : Session) : Prop where
  text : session.loader.read u.path = .ok u.source
  new : session.importing.any u.path.same = false

theorem UnitRun.Loaded.inside {u : UnitRun} {session inner : Session} {source : String}
    {file : Path} (h : u.Loaded inner) (can : session.Inside source file inner) :
    u.Loaded session where
  text := can.loader ▸ h.text
  new := by
    have new := h.new
    rw [can.chain, List.any_cons, Bool.or_eq_false_iff] at new
    exact new.2

namespace Build

variable {source : String} {path : Path} {typeArgs : List Ty} {session session' : Session}
  {log : List UnitRun} {r : Except (List Diagnostic) CheckedUnit}

theorem LogsWithin.loaded {n : Nat}
    (logged : LogsWithin n source path typeArgs session log r session') :
    ∀ u ∈ log, (u.source = source ∧ u.path = path) ∨ u.Loaded session := by
  induction n generalizing source path typeArgs session log r session' with
  | zero =>
    obtain ⟨rfl, _⟩ := logged
    exact nofun
  | succ n ih =>
    cases logged with
    | unreadable _ => simp
    | checked _ logged =>
      refine List.forall_mem_cons.mpr ⟨.inl ⟨rfl, rfl⟩, fun u hu => .inr ?_⟩
      refine logged.forall (P := fun u => u.Loaded session) (fun inner u hu => ?_) u hu
      obtain ⟨rfl, rfl⟩ | loaded := ih inner.2 u hu
      · exact ⟨inner.1.text, inner.1.new⟩
      · exact loaded.inside inner.1

theorem Logs.loaded (logged : Logs source path typeArgs session log r session') :
    ∀ u ∈ log, (u.source = source ∧ u.path = path) ∨ u.Loaded session :=
  LogsWithin.loaded logged

end Build

end FrontEnd
