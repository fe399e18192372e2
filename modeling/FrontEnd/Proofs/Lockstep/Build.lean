import FrontEnd.Proofs.Lockstep.Stmts
import FrontEnd.Proofs.Reading.Natural

namespace FrontEnd.Comparison

open Build Check CheckState

variable {C : Comparison} {imp imp' : Importer}

theorem follows_topLevel (h : C.Importers imp imp') (xs : List Stmt) {s t : CheckState} :
    C.Follows imp imp' s t C.names.map.tree.stmts (topLevel xs)
      (topLevel (C.names.map.tree.stmts xs)) := by
  induction xs generalizing s t with
  | nil => exact follows_pure rfl
  | cons x xs ih => exact (follows_stmt h x).then <| ih.map rfl

section

variable {s t : Session} (sessions : C.Sessions s t) (source : String) (path : Path)
  (typeArgs : List Ty)
include sessions

theorem reading_eq : reading source path (typeArgs.map C.names.type) t =
    ⟨C.names.map.program (reading source path typeArgs s).program,
      (reading source path typeArgs s).errors,
      C.names.id (reading source path typeArgs s).nextId⟩ := by
  have options : C.names.map.options
      ⟨toString s.nextId, typeArgs, s.nextId + 1, s.config.maxParseErrors⟩ =
      ⟨toString t.nextId, typeArgs.map C.names.type, t.nextId + 1, t.config.maxParseErrors⟩ := by
    rw [sessions.nextId, sessions.reading, ← C.names.numeral, ← C.names.next]
    rfl
  rw [reading, ← options]
  have still : C.names.map.Still := {}
  exact still.read_options _ (Name.plain_toString s.nextId)

theorem states_begun : C.States (begun source path typeArgs s)
    (begun source path (typeArgs.map C.names.type) t) where
  env := by
    have id : toString t.nextId = C.names.unit (toString s.nextId) := by
      rw [sessions.nextId, C.names.numeral]
    rw [begun, id]
    rfl
  session := by
    have next := congrArg ReadResult.nextId (reading_eq sessions source path typeArgs)
    exact { sessions with nextId := next }
  errors := C.reports.log_nil
  returns := rfl
  expected := rfl
  loopDepth := rfl
  barrier := rfl
  recorded := .intro Scopes.all_empty nofun

end

/-- What two units come to, with all that is recorded in them: their text has errors, checking them
finds some, or the second is the first under other ids. -/
inductive Outcomes (C : Comparison) (reading : ReadResult) :
    Except (List Diagnostic) CheckedUnit → Except (List Diagnostic) CheckedUnit → Prop
  | unreadable (errors : reading.errors ≠ []) :
      Outcomes C reading (.error reading.errors) (.error reading.errors)
  | rejected {ds es : List Diagnostic} (readable : reading.errors = [])
      (log : C.reports.log ds es) : Outcomes C reading (.error ds) (.error es)
  | accepted {unit : CheckedUnit} (readable : reading.errors = []) (recorded : unit.env.Recorded) :
      Outcomes C reading (.ok unit) (.ok (C.names.checkedUnit unit))

theorem Outcomes.results {reading : ReadResult} {r r' : Except (List Diagnostic) CheckedUnit}
    (h : C.Outcomes reading r r') : C.Results r r' := by
  cases h with
  | unreadable _ => exact .failed (C.reports.given_refl _)
  | rejected _ log => exact .failed (C.reports.given_log log)
  | accepted _ recorded => exact .checked recorded

theorem Importers.outcomes (h : C.Importers imp imp') {source : String} {path : Path}
    {typeArgs : List Ty} {s t s' : Session} {r : Except (List Diagnostic) CheckedUnit}
    (sessions : C.Sessions s t) (built : Build.unitWith imp source path typeArgs s = .ok (r, s')) :
    ∃ r' t', Build.unitWith imp' source path (typeArgs.map C.names.type) t = .ok (r', t') ∧
      C.Outcomes (reading source path typeArgs s) r r' ∧ C.Sessions s' t' := by
  have read := reading_eq sessions source path typeArgs
  have errors := congrArg ReadResult.errors read
  have next := congrArg ReadResult.nextId read
  have begun := states_begun sessions source path typeArgs
  have checks {xs : List Stmt} {s₁ : CheckState} (checked : Runs imp
      (topLevel (reading source path typeArgs s).program.statements)
      (Build.begun source path typeArgs s) xs s₁) :
      ∃ t₁, Runs imp'
        (topLevel (reading source path (typeArgs.map C.names.type) t).program.statements)
        (Build.begun source path (typeArgs.map C.names.type) t) (C.names.map.tree.stmts xs) t₁ ∧
        C.States s₁ t₁ := by
    rw [congrArg ReadResult.program read]
    exact follows_topLevel h _ begun xs s₁ checked
  cases unitWith_eq_ok.mp built with
  | unreadable unreadable =>
    refine ⟨_, _, unitWith_eq_ok.mpr (.unreadable (errors ▸ unreadable)), ?_, ?_⟩
    · rw [errors]
      exact .unreadable unreadable
    · exact { sessions with nextId := next }
  | rejected readable checked rejected =>
    obtain ⟨t₁, checked', states⟩ := checks checked
    have rejected' := mt (C.reports.log_empty states.errors).mpr rejected
    exact ⟨_, _, unitWith_eq_ok.mpr (.rejected (errors ▸ readable) checked' rejected'),
      .rejected readable states.errors, states.session⟩
  | accepted readable checked accepted =>
    obtain ⟨t₁, checked', states⟩ := checks checked
    have accepted' := (C.reports.log_empty states.errors).mp accepted
    refine ⟨_, _, unitWith_eq_ok.mpr (.accepted (errors ▸ readable) checked' accepted'), ?_,
      states.session⟩
    rw [congrArg ReadResult.program read, states.env]
    exact .accepted readable states.recorded

theorem Importers.unitWith (h : C.Importers imp imp') :
    C.Importers (Build.unitWith imp) (Build.unitWith imp') := by
  intro source path typeArgs s t r s' sessions built
  obtain ⟨r', t', built', outcomes, sessions'⟩ := h.outcomes sessions built
  exact ⟨r', t', built', outcomes.results, sessions'⟩

theorem importers_within (C : Comparison) (n : Nat) : C.Importers (within n) (within n) := by
  induction n with
  | zero =>
    intro _ _ _ s t _ _ sessions built
    cases built
    exact ⟨_, t, rfl, .failed (C.reports.given_refl []), sessions⟩
  | succ n ih => exact ih.unitWith

section

variable {s t s' : Session} (sessions : C.Sessions s t) {source : String} {path : Path}
  {typeArgs : List Ty} {r : Except (List Diagnostic) CheckedUnit}
include sessions

theorem Sessions.unit (built : unit source path typeArgs s = .ok (r, s')) :
    ∃ r' t', Build.unit source path (typeArgs.map C.names.type) t = .ok (r', t') ∧
      C.Outcomes (Build.reading source path typeArgs s) r r' ∧ C.Sessions s' t' := by
  unfold Build.unit at *
  rw [sessions.loader]
  exact (C.importers_within s.loader.size).outcomes sessions built

theorem Sessions.begun (file : Path) :
    C.Sessions ((s.begin? file).getD s) ((t.begin? file).getD t) := by
  cases begins : s.begin? file with
  | none =>
    rw [sessions.begin?_none begins]
    exact sessions
  | some session =>
    obtain ⟨session', begins', inside⟩ := sessions.begin?_some begins
    rw [begins']
    exact inside

theorem Sessions.file_outcomes (built : Build.file source path s = .ok (r, s')) :
    ∃ r' t', Build.file source path t = .ok (r', t') ∧
      C.Outcomes (Build.reading source path.normalize [] s) r r' ∧ C.Sessions s' t' := by
  obtain ⟨inner, checked, rfl⟩ := file_eq_ok.mp built
  obtain ⟨r', t', checked', outcomes, after⟩ := (sessions.begun path.normalize).unit checked
  have read : Build.reading source path.normalize [] ((s.begin? path.normalize).getD s) =
      Build.reading source path.normalize [] s := by
    cases begins : s.begin? path.normalize with
    | none => rfl
    | some session =>
      rw [Session.begin?_eq_some begins]
      rfl
  exact ⟨r', _, file_eq_ok.mpr ⟨t', checked', rfl⟩, read ▸ outcomes, after.finish _⟩

theorem Sessions.file (built : Build.file source path s = .ok (r, s')) :
    ∃ r' t', Build.file source path t = .ok (r', t') ∧ C.Results r r' ∧ C.Sessions s' t' := by
  obtain ⟨r', t', built', outcomes, after⟩ := sessions.file_outcomes built
  exact ⟨r', t', built', outcomes.results, after⟩

end

end FrontEnd.Comparison
