import FrontEnd.Proofs.Checking.Run

namespace FrontEnd

namespace Scopes

variable {α : Type} {a b c : Scopes α}

/-- The scopes `b` are `a` with more bindings in the innermost one. -/
def Extends (a b : Scopes α) : Prop :=
  ∃ bs : List (String × α), b.entries = bs.map (fun p => .binding p.1 p.2) ++ a.entries

theorem Extends.refl (a : Scopes α) : a.Extends a :=
  ⟨[], rfl⟩

theorem Extends.trans (h : a.Extends b) (h' : b.Extends c) : a.Extends c := by
  obtain ⟨bs, hb⟩ := h
  obtain ⟨cs, hc⟩ := h'
  exact ⟨cs ++ bs, by simp [hc, hb]⟩

theorem get?_add {name key : String} {value : α} :
    (a.add name value).get? key = if name = key then some value else a.get? key := by
  change (find? key (.binding name value :: a.entries)).map _ = _
  rw [find?]
  split <;> rfl

theorem extends_add (a : Scopes α) (name : String) (value : α) : a.Extends (a.add name value) :=
  ⟨[(name, value)], rfl⟩

theorem Extends.depth_eq (h : a.Extends b) : b.depth = a.depth := by
  obtain ⟨bs, entries⟩ := h
  unfold depth
  rw [entries]
  clear entries
  induction bs with
  | nil => rfl
  | cons p bs ih => exact ih

theorem depth_enter_ne_zero (a : Scopes α) : a.enter.depth ≠ 0 :=
  Nat.succ_ne_zero _

theorem Extends.leave (h : a.enter.Extends b) : b.leave = .ok a := by
  obtain ⟨bs, hb⟩ := h
  have below : belowFrame? b.entries = some a.entries := by
    rw [hb]
    clear hb
    induction bs with
    | nil => rfl
    | cons p bs ih => exact ih
  simp [Scopes.leave, below]

end Scopes

namespace CheckState

def declare (s : CheckState) (name : String) (ty : Ty) : CheckState :=
  { s with env := { s.env with vars := s.env.vars.add name ty } }

def declareEach (s : CheckState) : List String → List Ty → CheckState
  | name :: names, ty :: types => (s.declare name ty).declareEach names types
  | _, _ => s

theorem declareEach_same {α : Type} (s : CheckState) (f : CheckState → α)
    (same : ∀ s name ty, f (declare s name ty) = f s) (names : List String) (types : List Ty) :
    f (s.declareEach names types) = f s := by
  induction names generalizing s types with
  | nil => rfl
  | cons name names ih =>
    cases types with
    | nil => rfl
    | cons ty types => exact (ih _ types).trans (same s name ty)

/-- Declares a type, which other units see if it is declared outside all scopes. -/
def define (s : CheckState) (name : String) (ty : Ty) : CheckState :=
  { s with
    session := if s.env.types.depth = 0 then s.session.register name ty else s.session
    env := { s.env with types := s.env.types.add name ty } }

def enter (s : CheckState) : CheckState :=
  { s with env := { s.env with vars := s.env.vars.enter, types := s.env.types.enter } }

def enterFunction (s : CheckState) (sig : Signature) : CheckState :=
  { s.enter.declareEach sig.names sig.params with
    expected := some sig.result
    loopDepth := 0
    returns := false }

def recordFunction (s : CheckState) (f : FunctionDecl) : CheckState :=
  { s with env := { s.env with functions := Table.insert s.env.functions f.sig.name f } }

def leave (s around : CheckState) : CheckState :=
  { s with env := { s.env with vars := around.env.vars, types := around.env.types } }

/-- The state after a function's body, in which all paths have to return unless the result is
`void`. -/
def leaveFunction (s around : CheckState) (sig : Signature) (name : String) (token : Token) :
    CheckState :=
  { ({ s with returns := around.returns }.noteUnless
      (s.returns = true ∨ sig.result.equals s.resolver .void = true)
      ⟨.check (.notAllPathsReturn name), token.start⟩).leave around with
    expected := around.expected
    loopDepth := around.loopDepth }

end CheckState

namespace Check

open CheckState

variable {imp : Importer} {s s' around : CheckState}
variable {name : String} {u : Unit} {token : Token}

@[simp]
theorem runs_declare {ty : Ty} : Runs imp (declare name ty) s u s' ↔ s' = s.declare name ty := by
  simp only [declare, modifyEnv, runs_modify]
  rfl

@[simp]
theorem runs_declareEach {names : List String} {types : List Ty} :
    Runs imp (declareEach names types) s u s' ↔ s' = s.declareEach names types := by
  induction names generalizing s types with
  | nil => simp [declareEach, CheckState.declareEach]
  | cons name names ih =>
    cases types with
    | nil => simp [declareEach, CheckState.declareEach]
    | cons ty types => simp [declareEach, CheckState.declareEach, ih]

@[simp]
theorem runs_defineType {ty : Ty} :
    Runs imp (defineType name ty) s u s' ↔ s' = s.define name ty := by
  simp only [defineType, runs_modify]
  rfl

@[simp]
theorem runs_enterScope : Runs imp enterScope s u s' ↔ s' = s.enter := by
  simp only [enterScope, modifyEnv, runs_modify]
  rfl

@[simp]
theorem runs_setReturns {b : Bool} :
    Runs imp (setReturns b) s u s' ↔ s' = { s with returns := b } := by
  simp only [setReturns, runs_modify]

@[simp]
theorem runs_enterBranch :
    Runs imp enterBranch s u s' ↔ s' = { s.enter with returns := false } := by
  simp [enterBranch, CheckState.enter]

@[simp]
theorem runs_enterLoop :
    Runs imp enterLoop s u s' ↔ s' = { s with loopDepth := s.loopDepth + 1 } := by
  simp only [enterLoop, runs_modify]

@[simp]
theorem runs_enterFunction {sig : Signature} {around : CheckState} :
    Runs imp (enterFunction sig) s around s' ↔ around = s ∧ s' = s.enterFunction sig := by
  simp [enterFunction, CheckState.enterFunction, and_comm]

theorem runs_leaveScope :
    Runs imp leaveScope s u s' ↔ ∃ vars types, s.env.vars.leave = .ok vars ∧
      s.env.types.leave = .ok types ∧ s' = { s with env := { s.env with vars, types } } := by
  simp only [leaveScope, runs_bind, runs_get]
  constructor
  · rintro ⟨_, _, ⟨rfl, rfl⟩, h⟩
    split at h
    case h_1 vars types hv ht =>
      rw [modifyEnv, runs_modify] at h
      exact ⟨vars, types, hv, ht, h⟩
    case h_2 => exact absurd h not_runs_throw
  · rintro ⟨vars, types, hv, ht, rfl⟩
    refine ⟨s, s, ⟨rfl, rfl⟩, ?_⟩
    rw [hv, ht]
    exact runs_modify.mpr rfl

def Inside (around s : CheckState) : Prop :=
  around.env.vars.enter.Extends s.env.vars ∧ around.env.types.enter.Extends s.env.types

theorem runs_leaveScope_of_inside (h : Inside around s) :
    Runs imp leaveScope s u s' ↔ s' = s.leave around := by
  simp [runs_leaveScope, h.1.leave, h.2.leave, CheckState.leave]

theorem runs_leaveBranch (h : Inside around s) {b : Bool} :
    Runs imp leaveBranch s b s' ↔
      b = s.returns ∧ s' = { s.leave around with returns := false } := by
  simp [leaveBranch, runs_leaveScope_of_inside h, CheckState.leave, and_comm]

theorem runs_leaveFunction (h : Inside around s) {sig : Signature} :
    Runs imp (leaveFunction around sig name token) s u s' ↔
      s' = s.leaveFunction around sig name token := by
  have hc : (!s.returns && !sig.result.equals s.resolver .void) = true ↔
      ¬ (s.returns = true ∨ sig.result.equals s.resolver .void = true) := by
    simp
  have inside : Inside around ({ s with returns := around.returns }.noteUnless
      (s.returns = true ∨ sig.result.equals s.resolver .void = true)
      ⟨.check (.notAllPathsReturn name), token.start⟩) := by
    obtain ⟨ds, hn⟩ := noteUnless_eq_notes { s with returns := around.returns }
      (s.returns = true ∨ sig.result.equals s.resolver .void = true)
      ⟨.check (.notAllPathsReturn name), token.start⟩
    rw [hn]
    exact h
  have left : Runs imp leaveScope _ () _ := (runs_leaveScope_of_inside inside).mpr rfl
  have run : Runs imp (Check.leaveFunction around sig name token) s ()
      (s.leaveFunction around sig name token) :=
    Runs.get.bind (Runs.modify.bind ((runs_equals.mpr ⟨rfl, rfl⟩).bind
      ((runs_ite_error hc).mpr (left.bind .modify))))
  exact run.iff.trans (by simp)

theorem runs_leaveLoop :
    Runs imp leaveLoop s u s' ↔ ∃ n, s.loopDepth = n + 1 ∧ s' = { s with loopDepth := n } := by
  simp only [leaveLoop, runs_get_bind]
  cases s.loopDepth <;> simp

theorem runs_checkReturn {got : Ty} :
    Runs imp (checkReturn token got) s u s' ↔
      s.expected = none ∧ s' = s.note ⟨.check .returnOutsideFunction, token.start⟩ ∨
      ∃ expected s₁, s.expected = some expected ∧
        Runs imp (expectEqual expected got token) s () s₁ ∧ s' = { s₁ with returns := true } := by
  simp only [checkReturn, runs_get_bind]
  cases s.expected with
  | none => simp
  | some expected =>
    simp only [runs_bind, runs_setReturns, reduceCtorEq, false_and, false_or, Option.some.injEq]
    constructor
    · rintro ⟨_, s₁, h, rfl⟩
      exact ⟨expected, s₁, rfl, h, rfl⟩
    · rintro ⟨_, s₁, rfl, h, rfl⟩
      exact ⟨(), s₁, h, rfl⟩

theorem runs_recordDecl {decl decl' : Record} :
    Runs imp (recordDecl token decl) s decl' s' ↔
      ∃ fields? s₁, Runs imp (resolveFields decl.name token [] decl.fields)
        (s.define decl.name (.record decl)) fields? s₁ ∧
      (fields? = none ∧ decl' = decl ∧ s' = s₁ ∨
        ∃ fields, fields? = some fields ∧ decl' = { decl with fields := fields } ∧
          s' = s₁.define decl.name (.record { decl with fields := fields })) := by
  simp only [recordDecl, runs_bind, runs_defineType]
  constructor
  · rintro ⟨_, _, rfl, fields?, s₁, h, h'⟩
    refine ⟨fields?, s₁, h, ?_⟩
    cases fields? <;> simp_all
  · rintro ⟨fields?, s₁, h, h'⟩
    refine ⟨(), _, rfl, fields?, s₁, h, ?_⟩
    obtain ⟨rfl, rfl, rfl⟩ | ⟨fields, rfl, rfl, rfl⟩ := h' <;> simp

theorem runs_reportAll {ds : List Diagnostic} :
    Runs imp (reportAll ds) s u s' ↔ s' = ds.foldl note s := by
  induction ds generalizing s with
  | nil => simp [reportAll]
  | cons d ds ih => simp [reportAll, ih]

def importedFile (s : CheckState) (path : String) : Path :=
  (s.env.directory.join ⟨path⟩).normalize

/-- What an import can come to: the file is on the chain already, it has no text, its unit has
errors, or its unit becomes a module. -/
inductive Imports (imp : Importer) (token : Token) (name : String) (typeArgs : List Ty)
    (path : String) (s : CheckState) : CheckState → Prop
  | cycle (begins : s.session.begin? (importedFile s path) = none) :
      Imports imp token name typeArgs path s (s.note ⟨.check (.importCycle (" -> ".intercalate
        ((s.session.chain ++ [importedFile s path]).map (·.text)))), token.start⟩)
  | unavailable {session reason} (begins : s.session.begin? (importedFile s path) = some session)
      (noText : session.loader.read (importedFile s path) = .error reason) :
      Imports imp token name typeArgs path s
        ({ s with session := session.finish (importedFile s path) }.note
          ⟨.check (.importUnavailable path reason), token.start⟩)
  | failed {session source ds session'}
      (begins : s.session.begin? (importedFile s path) = some session)
      (text : session.loader.read (importedFile s path) = .ok source)
      (checked : imp source (importedFile s path) typeArgs session = .ok (.error ds, session')) :
      Imports imp token name typeArgs path s
        (ds.foldl note ({ s with session := session'.finish (importedFile s path) }.note
          ⟨.check (.importFailed path ds.length), token.start⟩))
  | loaded {session source unit session'}
      (begins : s.session.begin? (importedFile s path) = some session)
      (text : session.loader.read (importedFile s path) = .ok source)
      (checked : imp source (importedFile s path) typeArgs session = .ok (.ok unit, session')) :
      Imports imp token name typeArgs path s
        { s with
          session := session'.finish (importedFile s path)
          env := { s.env with
            modules := Table.insert s.env.modules name ⟨name, importedFile s path, unit⟩ } }

theorem runs_importFrom {file : Path} {typeArgs : List Ty}
    {r : Except String (Except (List Diagnostic) CheckedUnit)} :
    Runs imp (importFrom file typeArgs) s r s' ↔
      (∃ reason, s.session.loader.read file = .error reason ∧ r = .error reason ∧ s' = s) ∨
      ∃ source r' session, s.session.loader.read file = .ok source ∧
        imp source file typeArgs s.session = .ok (r', session) ∧ r = .ok r' ∧
        s' = { s with session := session } := by
  simp only [importFrom, runs_get_bind]
  cases s.session.loader.read file with
  | error reason => simp
  | ok source =>
    simp only [runs_bind, runs_read, runs_liftM, runs_modify, runs_pure, reduceCtorEq, false_and,
      exists_false, false_or, Except.ok.injEq]
    constructor
    · rintro ⟨_, _, ⟨rfl, rfl⟩, ⟨r', session⟩, _, ⟨h, rfl⟩, _, _, rfl, rfl, rfl⟩
      exact ⟨source, r', session, rfl, h, rfl, rfl⟩
    · rintro ⟨_, r', session, rfl, h, rfl, rfl⟩
      exact ⟨imp, s, ⟨rfl, rfl⟩, (r', session), s, ⟨h, rfl⟩, (), _, rfl, rfl, rfl⟩

theorem runs_importUnit {typeArgs : List Ty} {path : String} :
    Runs imp (importUnit token name typeArgs path) s u s' ↔
      Imports imp token name typeArgs path s s' := by
  unfold importUnit
  rw [runs_get_bind]
  have file : (s.env.directory.join ⟨path⟩).normalize = importedFile s path := rfl
  simp only [file]
  constructor
  · intro h
    split at h
    case h_1 begins =>
      rw [runs_error] at h
      exact h ▸ .cycle begins
    case h_2 session begins =>
      simp only [runs_bind, runs_modify] at h
      obtain ⟨_, _, rfl, result, _, imported, _, _, rfl, h⟩ := h
      obtain ⟨reason, noText, rfl, rfl⟩ | ⟨source, r, session', text, checked, rfl, rfl⟩ :=
        runs_importFrom.mp imported
      · rw [runs_error] at h
        exact h ▸ .unavailable begins noText
      · cases r with
        | error ds =>
          simp only [runs_bind, runs_error, runs_reportAll] at h
          obtain ⟨_, _, rfl, rfl⟩ := h
          exact .failed begins text checked
        | ok unit =>
          simp only [modifyEnv, runs_modify] at h
          exact h ▸ .loaded begins text checked
  · intro h
    cases h with
    | cycle begins =>
      rw [begins]
      exact .error
    | unavailable begins noText =>
      rw [begins]
      exact Runs.modify.bind ((runs_importFrom.mpr (.inl ⟨_, noText, rfl, rfl⟩)).bind
        (Runs.modify.bind .error))
    | failed begins text checked =>
      rw [begins]
      exact Runs.modify.bind ((runs_importFrom.mpr (.inr ⟨_, _, _, text, checked, rfl, rfl⟩)).bind
        (Runs.modify.bind (Runs.error.bind (runs_reportAll.mpr rfl))))
    | loaded begins text checked =>
      rw [begins]
      exact Runs.modify.bind ((runs_importFrom.mpr (.inr ⟨_, _, _, text, checked, rfl, rfl⟩)).bind
        (Runs.modify.bind .modify))

end Check

end FrontEnd
