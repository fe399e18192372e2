import FrontEnd.Proofs.Build
import FrontEnd.Proofs.Scopes

namespace FrontEnd

def ScopeLog.Record.name? {α : Type} : ScopeLog.Record α → Option String
  | .frame => none
  | .binding name _ => some name

namespace Scopes

variable {α : Type} {a b : Scopes α} {names : List String}

/-- The table with a log that has the same entries. -/
def logged (s : Scopes α) : ScopeLog α :=
  ScopeLog.table.build s.entries

/-- The table `b` comes from `a` by binding these names, one after the other. -/
inductive Binds : List String → Scopes α → Scopes α → Prop
  | nil {a : Scopes α} : Binds [] a a
  | cons {name : String} {value : α} {names : List String} {a b : Scopes α}
      (rest : Binds names (a.add name value) b) : Binds (name :: names) a b

theorem binds_add (a : Scopes α) (name : String) (value : α) : Binds [name] a (a.add name value) :=
  .cons .nil

theorem Binds.depth_eq (h : Binds names a b) : b.depth = a.depth := by
  induction h with
  | nil => rfl
  | cons _ ih => exact ih

theorem Binds.log (h : Binds names a b) : ∃ records, b.logged.log = records ++ a.logged.log ∧
    records.map ScopeLog.Record.name? = (names.map some).reverse := by
  induction h with
  | nil => exact ⟨[], rfl, rfl⟩
  | @cons name value _ a _ _ ih =>
    obtain ⟨records, log, named⟩ := ih
    have added : (a.add name value).logged.log =
        .binding name (a.logged.values name) :: a.logged.log := rfl
    refine ⟨records ++ [.binding name (a.logged.values name)], ?_, ?_⟩
    · rw [log, added, List.append_assoc, List.singleton_append]
    · simp [named, ScopeLog.Record.name?]

/-- The table `b` is `a` with these names bound in the innermost scope: no scope is opened or left,
and for each name there is one more record on the log. -/
structure Gains (names : List String) (a b : Scopes α) : Prop where
  binds : Binds names a b
  depth : b.depth = a.depth
  log : ∃ records, b.logged.log = records ++ a.logged.log ∧
    records.map ScopeLog.Record.name? = (names.map some).reverse

theorem Binds.gains (h : Binds names a b) : Gains names a b :=
  ⟨h, h.depth_eq, h.log⟩

end Scopes

namespace Stmt

/-- The variables that a statement of a unit binds in the scope around it. -/
def varNames (unit : String) : Stmt → List String
  | .declare _ name _ _ => [name]
  | .declareAll _ names _ _ _ => names
  | .function _ sig _ => [sig.name]
  | .external _ sig => [Name.qualify sig.name unit]
  | .expression _ _ | .assign _ _ _ | .record _ _ | .choose _ _ _ _ | .loop _ _ _ _ _ => []
  | .return _ _ | .break _ | .continue _ | .importUnit _ _ _ _ | .generic _ _ _ => []

def typeNames : Stmt → List String
  | .record _ decl => [decl.name]
  | _ => []

end Stmt

open Check CheckState

variable {imp : Importer} {P : Law} {s s' : CheckState} {token : Token}

namespace Check

/-- There is a type for each name, also when there are too few values or too many. -/
theorem length_declaredTypes {written? : Option Ty} {names : List String} {values types : List Ty}
    (h : Runs imp (declaredTypes written? token names values) s types s') :
    types.length = names.length := by
  induction names generalizing values types s s' with
  | nil =>
    obtain ⟨rfl, -⟩ := runs_pure.mp h
    rfl
  | cons name names ih =>
    obtain ⟨ty, s₁, -, h⟩ := runs_bind.mp h
    obtain ⟨types, s₂, rest, h⟩ := runs_bind.mp h
    obtain ⟨rfl, -⟩ := runs_pure.mp h
    simp [ih rest]

theorem length_declaredAll {names : List String} {written ty : Ty} {values types : List Ty}
    (h : Runs imp (declaredAll token names written values) s (ty, types) s') :
    types.length = names.length := by
  unfold declaredAll at h
  have miscounted : values.length ≠ names.length ↔ ¬ values.length = names.length := Iff.rfl
  rw [runs_ite_error miscounted] at h
  obtain ⟨written?, s₁, -, h⟩ := runs_bind.mp h
  obtain ⟨types', s₂, typed, h⟩ := runs_bind.mp h
  obtain ⟨⟨rfl, rfl⟩, -⟩ := runs_pure.mp h
  exact length_declaredTypes typed

end Check

namespace CheckState

theorem binds_declareEach (s : CheckState) {names : List String} {types : List Ty}
    (h : types.length = names.length) :
    Scopes.Binds names s.env.vars (s.declareEach names types).env.vars := by
  induction names generalizing s types with
  | nil => exact .nil
  | cons name names ih =>
    cases types with
    | nil => simp at h
    | cons ty types => exact .cons (ih (s.declare name ty) (Nat.succ.inj h))

theorem types_declareEach (s : CheckState) (names : List String) (types : List Ty) :
    (s.declareEach names types).env.types = s.env.types :=
  s.declareEach_same (·.env.types) (fun _ _ _ => rfl) names types

/-- From one state to the other these variables are bound, and types only under these names. -/
structure Binds (vars types : List String) (s t : CheckState) : Prop where
  vars : Scopes.Binds vars s.env.vars t.env.vars
  types : ∃ names ⊆ types, Scopes.Binds names s.env.types t.env.types

theorem Keeps.binds {t : CheckState} (h : Keeps s t) : Binds [] [] s t :=
  ⟨h.vars ▸ .nil, [], List.Subset.refl _, h.types ▸ .nil⟩

end CheckState

theorem Check.binds_recordDecl {decl decl' : Record}
    (h : Runs imp (recordDecl token decl) s decl' s') : Binds [] [decl.name] s s' := by
  obtain ⟨fields?, s₁, resolved, declared⟩ := runs_recordDecl.mp h
  have keeps := (notes_resolveFields _ _).keeps resolved
  have once : s₁.env.types = s.env.types.add decl.name (.record decl) := keeps.types
  have vars : Scopes.Binds [] s.env.vars s₁.env.vars := keeps.vars ▸ .nil
  obtain ⟨-, -, rfl⟩ | ⟨fields, -, -, rfl⟩ := declared
  · exact ⟨vars, [decl.name], List.Subset.refl _, once ▸ Scopes.binds_add _ _ _⟩
  · refine ⟨vars, [decl.name, decl.name], by simp, ?_⟩
    change Scopes.Binds _ _ (s₁.env.types.add decl.name _)
    rw [once]
    exact .cons (Scopes.binds_add _ _ _)

theorem Checks.binds {x x' : Stmt} (h : Checks imp P (.stmt x) s x' s') (steady : imp.Steady) :
    Binds (x.varNames s.env.id) x.typeNames s s' := by
  cases h with
  | expression value =>
    have keeps : Keeps _ _ := value.change steady
    exact keeps.binds
  | @declare _ _ _ _ _ _ _ ty _ given typed =>
    have keeps : Keeps _ _ := (given.change steady).trans (notes_declaredType.keeps typed)
    refine ⟨?_, [], List.Subset.refl _, keeps.types ▸ .nil⟩
    rw [← keeps.vars]
    exact Scopes.binds_add _ _ ty
  | declareAll given typed =>
    have keeps : Keeps _ _ := (given.change steady).trans (notes_declaredAll.keeps typed)
    refine ⟨?_, [], List.Subset.refl _, ?_⟩
    · rw [← keeps.vars]
      exact binds_declareEach _ (length_declaredAll typed)
    · rw [types_declareEach, keeps.types]
      exact .nil
  | assign given targets fits =>
    have keeps : Keeps _ _ := (given.change steady).trans (targets.change steady)
    exact (keeps.trans (notes_checkAssignment.keeps fits)).binds
  | record declared => exact binds_recordDecl declared
  | @define _ sig _ _ _ s₁ inner =>
    have keeps : Keeps _ _ := inner.change steady
    refine ⟨?_, [], List.Subset.refl _, keeps.types ▸ .nil⟩
    have own : s₁.env.vars = s.env.vars.add sig.name (.func (s.resolver.resolveSignature sig)) :=
      keeps.vars
    exact own ▸ Scopes.binds_add _ _ _
  | choose condition taken others =>
    have keeps : Keeps _ _ := (Keeps.trans (condition.change steady) (taken.change steady)).trans
      (others.change steady)
    exact (keeps.trans (keeps_returns _ _)).binds
  | chooseElse condition taken others otherwise =>
    have keeps : Keeps _ _ := (Keeps.trans (condition.change steady) (taken.change steady)).trans
      (others.change steady)
    exact ((keeps.trans (otherwise.change steady)).trans (keeps_returns _ _)).binds
  | loop before guard after inner leftLoop leftScope =>
    rw [left_loop steady before guard after inner leftLoop leftScope]
    exact ⟨.nil, [], List.Subset.refl _, .nil⟩
  | returned given fits =>
    have keeps : Keeps _ _ := Keeps.trans (given.change steady) (keeps_checkReturn fits)
    exact keeps.binds
  | breaks inLoop | continues inLoop => exact (notes_checkInLoop.keeps inLoop).binds
  | external => exact ⟨Scopes.binds_add _ _ _, [], List.Subset.refl _, .nil⟩
  | importUnit types imported =>
    exact (((notes_resolveTypeArgs _).keeps types).trans
      (keeps_imports steady (runs_importUnit.mp imported))).binds
  | generic => exact (Keeps.refl s).binds

namespace Build

/-- Every expression is checked to its end, with the tables of names, the number of loops around,
the result that is expected and the reach of function literals left as they were. A statement adds
to the tables, in the innermost scope, the variables that it declares, and the name of the type that
it declares; what is bound inside it, in branches, in loops and in functions, is gone. -/
theorem within_restores (n : Nat) :
    (∀ (e : Expr) (s : CheckState), ∃ e' s', Runs (within n) (Check.expr e) s e' s' ∧
      s'.env.vars = s.env.vars ∧ s'.env.types = s.env.types ∧ s'.loopDepth = s.loopDepth ∧
      s'.expected = s.expected ∧ s'.barrier = s.barrier) ∧
    ∀ (x : Stmt) (s : CheckState), ∃ x' s', Runs (within n) (Check.stmt x) s x' s' ∧
      s'.loopDepth = s.loopDepth ∧ s'.expected = s.expected ∧ s'.barrier = s.barrier ∧
      Scopes.Gains (x.varNames s.env.id) s.env.vars s'.env.vars ∧
      ∃ names ⊆ x.typeNames, Scopes.Gains names s.env.types s'.env.types := by
  obtain ⟨steady, total⟩ := within_steady_total n
  have ok := Lawful.any steady total
  constructor
  · intro e s
    obtain ⟨e', s', derived⟩ := total_expr ok e s
    have keeps : Keeps s s' := derived.change steady
    exact ⟨e', s', derived.runs, keeps.vars, keeps.types, keeps.loopDepth, keeps.expected,
      keeps.barrier⟩
  · intro x s
    obtain ⟨x', s', derived⟩ := total_stmt ok x s
    have grows : Grows s s' := derived.change steady
    obtain ⟨vars, names, sub, types⟩ := derived.binds steady
    exact ⟨x', s', derived.runs, grows.loopDepth, grows.expected, grows.barrier, vars.gains,
      names, sub, types.gains⟩

end Build

end FrontEnd
