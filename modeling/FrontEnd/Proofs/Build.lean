import FrontEnd.Build
import FrontEnd.Proofs.Checking.Totality

namespace FrontEnd

/-- One unit imports the other. -/
def CheckedUnit.Uses (unit other : CheckedUnit) : Prop :=
  ∃ p ∈ unit.env.modules, p.2.unit = other

namespace Build

/-- What reading the text of a unit gives; the unit takes the next id for its own. -/
def reading (source : String) (path : Path) (typeArgs : List Ty) (session : Session) : ReadResult :=
  Program.read (.ofSource source path.text)
    ⟨toString session.nextId, typeArgs, session.nextId + 1, session.config.maxParseErrors⟩

/-- The state in which the unit is checked first. -/
def begun (source : String) (path : Path) (typeArgs : List Ty) (session : Session) : CheckState :=
  .start (toString session.nextId) (path.parent?.getD ⟨""⟩)
    { session with nextId := (reading source path typeArgs session).nextId }

end Build

open Build Check CheckState

/-- What building a unit can come to: its text has errors, checking it finds some, or it is
accepted. -/
inductive Builds (imp : Importer) (source : String) (path : Path) (typeArgs : List Ty)
    (session : Session) : Except (List Diagnostic) CheckedUnit → Session → Prop
  | unreadable (errors : (reading source path typeArgs session).errors ≠ []) :
      Builds imp source path typeArgs session (.error (reading source path typeArgs session).errors)
        { session with nextId := (reading source path typeArgs session).nextId }
  | rejected {xs s} (readable : (reading source path typeArgs session).errors = [])
      (checked : Runs imp (topLevel (reading source path typeArgs session).program.statements)
        (begun source path typeArgs session) xs s) (errors : s.errors ≠ []) :
      Builds imp source path typeArgs session (.error s.errors) s.session
  | accepted {xs s} (readable : (reading source path typeArgs session).errors = [])
      (checked : Runs imp (topLevel (reading source path typeArgs session).program.statements)
        (begun source path typeArgs session) xs s) (noErrors : s.errors = []) :
      Builds imp source path typeArgs session
        (.ok ⟨⟨(reading source path typeArgs session).program.id, xs⟩, s.env⟩) s.session

namespace Build

variable {imp : Importer} {source : String} {path : Path} {typeArgs : List Ty}
  {session session' : Session} {r : Except (List Diagnostic) CheckedUnit}

theorem unitWith_eq :
    unitWith imp source path typeArgs session =
      if (reading source path typeArgs session).errors.isEmpty then do
        let (xs, s) ← topLevel (reading source path typeArgs session).program.statements imp
          (begun source path typeArgs session)
        if s.errors.isEmpty then
          return (.ok ⟨⟨(reading source path typeArgs session).program.id, xs⟩, s.env⟩, s.session)
        else return (.error s.errors, s.session)
      else .ok (.error (reading source path typeArgs session).errors,
        { session with nextId := (reading source path typeArgs session).nextId }) := by
  have h : unitWith imp source path typeArgs session =
      if !(reading source path typeArgs session).errors.isEmpty then
        .ok (.error (reading source path typeArgs session).errors,
          { session with nextId := (reading source path typeArgs session).nextId })
      else program (reading source path typeArgs session).program imp
          (begun source path typeArgs session) >>= fun q =>
        if q.2.errors.isEmpty then return (.ok ⟨q.1, q.2.env⟩, q.2.session)
        else return (.error q.2.errors, q.2.session) := rfl
  rw [h]
  cases (reading source path typeArgs session).errors.isEmpty with
  | false => rfl
  | true =>
    have hp : program (reading source path typeArgs session).program imp
        (begun source path typeArgs session) =
        topLevel (reading source path typeArgs session).program.statements imp
          (begun source path typeArgs session) >>= fun q =>
            .ok (⟨(reading source path typeArgs session).program.id, q.1⟩, q.2) := rfl
    rw [hp]
    cases topLevel (reading source path typeArgs session).program.statements imp
      (begun source path typeArgs session) <;> rfl

theorem unitWith_eq_ok :
    unitWith imp source path typeArgs session = .ok (r, session') ↔
      Builds imp source path typeArgs session r session' := by
  rw [unitWith_eq]
  constructor
  · intro h
    split at h
    case isTrue readable =>
      rw [List.isEmpty_iff] at readable
      cases checked : topLevel (reading source path typeArgs session).program.statements imp
        (begun source path typeArgs session) with
      | error e => simp [checked, bind, Except.bind] at h
      | ok p =>
        obtain ⟨xs, s⟩ := p
        rw [checked] at h
        by_cases noErrors : s.errors = []
        · obtain ⟨rfl, rfl⟩ : Except.ok _ = r ∧ s.session = session' := by
            simpa [bind, Except.bind, noErrors, pure, Except.pure] using h
          exact .accepted readable checked noErrors
        · obtain ⟨rfl, rfl⟩ : Except.error _ = r ∧ s.session = session' := by
            simpa [bind, Except.bind, noErrors, pure, Except.pure] using h
          exact .rejected readable checked noErrors
    case isFalse errors =>
      rw [List.isEmpty_iff] at errors
      cases h
      exact .unreadable errors
  · intro h
    cases h with
    | unreadable errors => simp [errors]
    | rejected readable checked errors =>
      unfold Runs at checked
      simp [readable, checked, errors, bind, Except.bind, pure, Except.pure]
    | accepted readable checked noErrors =>
      unfold Runs at checked
      simp [readable, checked, noErrors, bind, Except.bind, pure, Except.pure]

end Build

open Build

theorem Importer.Steady.unitWith {imp : Importer} (steady : imp.Steady) (total : imp.Total) :
    Importer.Steady (Build.unitWith imp) := by
  intro source path typeArgs session r session' h
  have ok := Lawful.any steady total
  cases unitWith_eq_ok.mp h with
  | unreadable errors => exact ⟨rfl, rfl, rfl⟩
  | rejected readable checked errors =>
    have grown : Grows _ _ := (Checks.of_runs ok checked).change steady
    exact ⟨grown.config, grown.loader, grown.importing⟩
  | accepted readable checked noErrors =>
    have grown : Grows _ _ := (Checks.of_runs ok checked).change steady
    exact ⟨grown.config, grown.loader, grown.importing⟩

theorem Importer.Total.unitWith {imp : Importer} (steady : imp.Steady) (total : imp.Total) :
    Importer.Total (Build.unitWith imp) := by
  intro source path typeArgs session
  have ok := Lawful.any steady total
  by_cases readable : (reading source path typeArgs session).errors = []
  · obtain ⟨xs, s, derived⟩ := total_top ok
      (reading source path typeArgs session).program.statements
      (begun source path typeArgs session)
    by_cases noErrors : s.errors = []
    · exact ⟨_, unitWith_eq_ok.mpr (.accepted readable derived.runs noErrors)⟩
    · exact ⟨_, unitWith_eq_ok.mpr (.rejected readable derived.runs noErrors)⟩
  · exact ⟨_, unitWith_eq_ok.mpr (.unreadable readable)⟩

namespace Build

theorem within_steady_total (n : Nat) : Importer.Steady (within n) ∧ Importer.Total (within n) := by
  induction n with
  | zero =>
    constructor
    · intro _ _ _ _ _ _ h
      cases h
      exact ⟨rfl, rfl, rfl⟩
    · intro _ _ _ _
      exact ⟨_, rfl⟩
  | succ n ih => exact ⟨ih.1.unitWith ih.2, Importer.Total.unitWith ih.1 ih.2⟩

theorem unit_total : Importer.Total unit := fun source path typeArgs session =>
  (within_steady_total (session.loader.size + 1)).2 source path typeArgs session

theorem file_eq_ok {source : String} {path : Path} {session session'' : Session}
    {r : Except (List Diagnostic) CheckedUnit} :
    file source path session = .ok (r, session'') ↔
      ∃ session', unit source path.normalize [] ((session.begin? path.normalize).getD session) =
        .ok (r, session') ∧ session'' = session'.finish path.normalize := by
  have h : file source path session =
      unit source path.normalize [] ((session.begin? path.normalize).getD session) >>= fun p =>
        .ok (p.1, p.2.finish path.normalize) := rfl
  rw [h]
  cases unit source path.normalize [] ((session.begin? path.normalize).getD session) with
  | error e => simp [bind, Except.bind]
  | ok p =>
    obtain ⟨r', session'⟩ := p
    simp only [bind, Except.bind, Except.ok.injEq, Prod.mk.injEq]
    constructor
    · rintro ⟨rfl, rfl⟩
      exact ⟨session', ⟨rfl, rfl⟩, rfl⟩
    · rintro ⟨_, ⟨rfl, rfl⟩, rfl⟩
      exact ⟨rfl, rfl⟩

theorem file_start_eq_ok {config : Config} {loader : Loader} {source : String} {path : Path}
    {session : Session} {r : Except (List Diagnostic) CheckedUnit} :
    file source path (.start config loader) = .ok (r, session) ↔
      ∃ session', unit source path.normalize [] ⟨config, loader, 0, [path.normalize], []⟩ =
        .ok (r, session') ∧ session = session'.finish path.normalize :=
  file_eq_ok

theorem file_total (source : String) (path : Path) (session : Session) :
    ∃ r, file source path session = .ok r := by
  obtain ⟨⟨r, session'⟩, h⟩ :=
    unit_total source path.normalize [] ((session.begin? path.normalize).getD session)
  exact ⟨_, file_eq_ok.mpr ⟨session', h, rfl⟩⟩

def accepts (built : Except Fault (Except (List Diagnostic) CheckedUnit × Session)) : Bool :=
  match built with
  | .ok (.ok _, _) => true
  | _ => false

theorem exists_of_accepts {built : Except Fault (Except (List Diagnostic) CheckedUnit × Session)}
    {P : CheckedUnit → Session → Prop} (h : accepts built = true)
    (holds : ∀ {unit session}, built = .ok (.ok unit, session) → P unit session) :
    ∃ unit session, built = .ok (.ok unit, session) ∧ P unit session := by
  unfold accepts at h
  split at h
  case h_1 unit session => exact ⟨unit, session, rfl, holds rfl⟩
  case h_2 => exact absurd h (by simp)

def errorCount (built : Except Fault (Except (List Diagnostic) CheckedUnit × Session)) : Nat :=
  match built with
  | .ok (.error ds, _) => ds.length
  | _ => 0

def acceptsWith (test : CheckedUnit → Bool)
    (built : Except Fault (Except (List Diagnostic) CheckedUnit × Session)) : Bool :=
  match built with
  | .ok (.ok unit, _) => test unit
  | _ => false

theorem exists_of_acceptsWith {test : CheckedUnit → Bool}
    {built : Except Fault (Except (List Diagnostic) CheckedUnit × Session)}
    (h : acceptsWith test built = true) :
    ∃ unit session, built = .ok (.ok unit, session) ∧ test unit = true := by
  unfold acceptsWith at h
  split at h
  case h_1 unit session => exact ⟨unit, session, rfl, h⟩
  case h_2 => exact absurd h (by simp)

end Build

end FrontEnd
