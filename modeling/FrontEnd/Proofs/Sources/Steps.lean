import FrontEnd.Proofs.Checking.Run
import FrontEnd.Proofs.Registry
import FrontEnd.Proofs.Syntax.Labels
import FrontEnd.Proofs.Ty.Records

namespace FrontEnd

/-- What is known about the tokens and the records that a unit is made of, about the units that it
imports, and about the names under which it enters types. -/
structure Sources where
  place : Position → Prop
  record : Record → Prop
  unit : CheckedUnit → Prop
  key : String → Prop
  /-- The fields of a record are resolved. -/
  fields : ∀ {decl : Record} {fs : List Field}, record decl →
    fs.map Field.name = decl.fields.map Field.name → record { decl with fields := fs }

namespace Sources

variable {S : Sources} {ls ms : List Label}

def Holds (S : Sources) : Label → Prop
  | .token t => S.place t.start
  | .type t | .inferred t => t.Of S.record
  | .record decl => (Ty.record decl).Of S.record
  | .signature sig => (Ty.func sig).Of S.record

def Has (S : Sources) (ls : List Label) : Prop :=
  ∀ l ∈ ls, S.Holds l

def Given (S : Sources) (ls : List Label) : Prop :=
  ∀ l ∈ ls, S.Holds l ∧ ∀ decl, l = .record decl → S.key decl.name

@[simp]
theorem has_nil : S.Has [] :=
  nofun

@[simp]
theorem has_append : S.Has (ls ++ ms) ↔ S.Has ls ∧ S.Has ms :=
  List.forall_mem_append

@[simp]
theorem has_token {t : Token} : S.Has (.token t :: ls) ↔ S.place t.start ∧ S.Has ls :=
  List.forall_mem_cons

@[simp]
theorem has_type {t : Ty} : S.Has (.type t :: ls) ↔ t.Of S.record ∧ S.Has ls :=
  List.forall_mem_cons

@[simp]
theorem has_inferred {t : Ty} : S.Has (.inferred t :: ls) ↔ t.Of S.record ∧ S.Has ls :=
  List.forall_mem_cons

@[simp]
theorem has_record {decl : Record} :
    S.Has (.record decl :: ls) ↔ (Ty.record decl).Of S.record ∧ S.Has ls :=
  List.forall_mem_cons

@[simp]
theorem has_signature {sig : Signature} :
    S.Has (.signature sig :: ls) ↔ (Ty.func sig).Of S.record ∧ S.Has ls :=
  List.forall_mem_cons

@[simp]
theorem has_types {ts : List Ty} : S.Has (ts.map .type) ↔ ∀ t ∈ ts, t.Of S.record :=
  List.forall_mem_map

theorem Given.has (h : S.Given ls) : S.Has ls :=
  fun l hl => (h l hl).1

@[simp]
theorem given_append : S.Given (ls ++ ms) ↔ S.Given ls ∧ S.Given ms :=
  List.forall_mem_append

theorem given_cons {l : Label} : S.Given (l :: ls) ↔
    (S.Holds l ∧ ∀ decl, l = .record decl → S.key decl.name) ∧ S.Given ls :=
  List.forall_mem_cons

@[simp]
theorem given_token {t : Token} : S.Given (.token t :: ls) ↔ S.place t.start ∧ S.Given ls := by
  simp [given_cons, Holds]

@[simp]
theorem given_type {t : Ty} : S.Given (.type t :: ls) ↔ t.Of S.record ∧ S.Given ls := by
  simp [given_cons, Holds]

@[simp]
theorem given_inferred {t : Ty} : S.Given (.inferred t :: ls) ↔ t.Of S.record ∧ S.Given ls := by
  simp [given_cons, Holds]

@[simp]
theorem given_record {decl : Record} : S.Given (.record decl :: ls) ↔
    ((Ty.record decl).Of S.record ∧ S.key decl.name) ∧ S.Given ls := by
  simp [given_cons, Holds]

@[simp]
theorem given_signature {sig : Signature} :
    S.Given (.signature sig :: ls) ↔ (Ty.func sig).Of S.record ∧ S.Given ls := by
  simp [given_cons, Holds]

@[simp]
theorem given_types {ts : List Ty} : S.Given (ts.map .type) ↔ ∀ t ∈ ts, t.Of S.record := by
  simp [Given, Holds]

inductive Env (S : Sources) : Environment → Prop
  | intro {e : Environment} (vars : e.vars.All (Ty.Of S.record))
      (types : e.types.All (Ty.Of S.record))
        (functions : ∀ p ∈ e.functions, S.Has p.2.toStmt.labels)
      (units : ∀ p ∈ e.modules, S.unit p.2.unit)
      (programs : ∀ p ∈ e.modules, S.Has (Stmt.labelsOf p.2.unit.program.statements))
      (modules : ∀ p ∈ e.modules, S.Env p.2.unit.env) : S.Env e

structure Unit (S : Sources) (u : CheckedUnit) : Prop where
  known : S.unit u
  program : S.Has (Stmt.labelsOf u.program.statements)
  env : S.Env u.env

structure State (S : Sources) (s : CheckState) : Prop where
  env : S.Env s.env
  registry : ∀ p ∈ s.session.registry, p.2.Of S.record
  expected : ∀ t, s.expected = some t → t.Of S.record
  errors : ∀ d ∈ s.errors, S.place d.position

/-- From one state to another types are entered under the names of the unit only, no id is handed
out, and what is known of the state stays known. -/
structure Moves (S : Sources) (s s' : CheckState) : Prop where
  state : S.State s'
  nextId : s'.session.nextId = s.session.nextId
  keys : ∀ k, s'.session.registered? k ≠ s.session.registered? k → S.key k

namespace Env

variable {e : Environment} {name : String}

theorem start {id : String} {directory : Path} : S.Env (.start id directory) :=
  .intro Scopes.all_empty Scopes.all_empty nofun nofun nofun nofun

theorem vars (h : S.Env e) : e.vars.All (Ty.Of S.record) := by
  cases h
  assumption

theorem types (h : S.Env e) : e.types.All (Ty.Of S.record) := by
  cases h
  assumption

theorem functions (h : S.Env e) : ∀ p ∈ e.functions, S.Has p.2.toStmt.labels := by
  cases h
  assumption

theorem module (h : S.Env e) {p : String × Module} (mem : p ∈ e.modules) : S.Unit p.2.unit := by
  cases h with
  | intro _ _ _ units programs modules => exact ⟨units p mem, programs p mem, modules p mem⟩

theorem module? (h : S.Env e) {m : Module} (found : e.module? name = some m) : S.Unit m.unit :=
  h.module (Table.mem_of_lookup found)

theorem withScopes (h : S.Env e) {vars types : Scopes Ty} (hv : vars.All (Ty.Of S.record))
    (ht : types.All (Ty.Of S.record)) : S.Env { e with vars, types } := by
  cases h with
  | intro _ _ functions units programs modules =>
    exact .intro hv ht functions units programs modules

theorem withFunction (h : S.Env e) {f : FunctionDecl} (hf : S.Has f.toStmt.labels) :
    S.Env { e with functions := Table.insert e.functions name f } := by
  cases h with
  | intro vars types functions units programs modules =>
    exact .intro vars types (Table.forall_insert functions hf) units programs modules

theorem withModule (h : S.Env e) {m : Module} (hm : S.Unit m.unit) :
    S.Env { e with modules := Table.insert e.modules name m } := by
  cases h with
  | intro vars types functions units programs modules =>
    exact .intro vars types functions (Table.forall_insert units hm.known)
      (Table.forall_insert programs hm.program) (Table.forall_insert modules hm.env)

theorem holds (h : S.Env e) : e.Holds (Ty.Of S.record) := by
  induction h with
  | intro _ types _ _ _ _ ih => exact .intro (fun _ _ found => types.get? found) ih

end Env

section State

variable {s s' s'' : CheckState}

theorem State.resolver (h : S.State s) : s.resolver.Of S.record :=
  fun _ _ => h.env.holds.lookup h.registry

theorem Moves.refl (h : S.State s) : S.Moves s s :=
  ⟨h, rfl, fun _ changed => absurd rfl changed⟩

theorem Moves.trans (h : S.Moves s s') (h' : S.Moves s' s'') : S.Moves s s'' where
  state := h'.state
  nextId := h'.nextId.trans h.nextId
  keys k changed := by
    by_cases same : s'.session.registered? k = s.session.registered? k
    · exact h'.keys k (same ▸ changed)
    · exact h.keys k same

theorem Moves.of_session (h : S.State s') (same : s'.session = s.session) : S.Moves s s' :=
  ⟨h, congrArg Session.nextId same, fun k changed => absurd (by rw [same]) changed⟩

theorem State.note (h : S.State s) {d : Diagnostic} (hd : S.place d.position) :
    S.State (s.note d) := by
  unfold CheckState.note
  split
  · refine ⟨h.env, h.registry, h.expected, fun e he => ?_⟩
    obtain he | he := List.mem_append.mp he
    · exact h.errors e he
    · obtain rfl := List.mem_singleton.mp he
      exact hd
  · exact h

end State

open Check CheckState

variable {α β : Type} {Q : α → Prop} {R : β → Prop} {token : Token}
variable {t : Ty} {name : String}

/-- A part of checking that keeps what is known, and gives a result as `Q` says. -/
structure Does (S : Sources) (m : Check α) (Q : α → Prop) : Prop where
  run {imp s a s'} (known : S.State s) (ran : Runs imp m s a s') : Q a ∧ S.Moves s s'

theorem does_pure {a : α} (h : Q a) : S.Does (pure a) Q where
  run known ran := by
    obtain ⟨rfl, rfl⟩ := runs_pure.mp ran
    exact ⟨h, .refl known⟩

theorem Does.bind {m : Check α} {f : α → Check β} (hm : S.Does m Q)
    (hf : ∀ a, Q a → S.Does (f a) R) : S.Does (m >>= f) R where
  run known ran := by
    obtain ⟨a, s₁, first, second⟩ := runs_bind.mp ran
    obtain ⟨ha, moves⟩ := hm.run known first
    obtain ⟨hb, moves'⟩ := (hf a ha).run moves.state second
    exact ⟨hb, moves.trans moves'⟩

theorem Does.ite {p : Prop} [Decidable p] {m n : Check α} (hm : S.Does m Q) (hn : S.Does n Q) :
    S.Does (if p then m else n) Q := by
  split
  · exact hm
  · exact hn

theorem does_get : S.Does get S.State where
  run known ran := by
    obtain ⟨rfl, rfl⟩ := runs_get.mp ran
    exact ⟨known, .refl known⟩

theorem does_throw {fault : Fault} : S.Does (throw fault : Check α) Q :=
  ⟨fun _ ran => absurd ran not_runs_throw⟩

theorem does_modify {f : CheckState → CheckState} (h : ∀ s, S.State s → S.Moves s (f s)) :
    S.Does (modify f) fun _ => True where
  run known ran := by
    rw [runs_modify.mp ran]
    exact ⟨trivial, h _ known⟩

theorem does_report {d : Diagnostic} (hd : S.place d.position) :
    S.Does (report d) fun _ => True where
  run known ran := by
    rw [runs_report.mp ran]
    refine ⟨trivial, .of_session (known.note hd) ?_⟩
    unfold CheckState.note
    split <;> rfl

theorem does_error {e : CheckError} (placed : S.place token.start) :
    S.Does (error e token) fun _ => True :=
  does_report placed

theorem does_error_todo {e : CheckError} (placed : S.place token.start) :
    S.Does (do error e token; return .todo) (Ty.Of S.record) :=
  (does_error placed).bind fun _ _ => does_pure Ty.of_todo

-- The steps that everything else is checked with.

theorem does_resolve (ht : t.Of S.record) : S.Does (resolve t) (Ty.Of S.record) :=
  does_get.bind fun _ known => does_pure (known.resolver.resolve ht)

theorem does_equals {a b : Ty} : S.Does (equals a b) fun _ => True :=
  does_get.bind fun _ _ => does_pure trivial

theorem does_expectEqual {a b : Ty} (placed : S.place token.start) :
    S.Does (expectEqual a b token) fun _ => True :=
  does_equals.bind fun _ _ => .ite (does_error placed) (does_pure trivial)

theorem does_resolveAll (ht : t.Of S.record) (placed : S.place token.start) :
    S.Does (resolveAll t token) (Ty.Of S.record) := by
  refine (does_resolve ht).bind fun t ht => ?_
  cases t.firstRef? with
  | none => exact does_pure ht
  | some ref => exact does_error_todo placed

theorem does_resolveValue (ht : t.Of S.record) (placed : S.place token.start) :
    S.Does (resolveValue t token) (Ty.Of S.record) := by
  refine (does_resolve ht).bind fun t ht => ?_
  cases t.element with
  | named ref => exact does_error_todo placed
  | _ => exact does_pure ht

theorem does_modifyEnv {f : Environment → Environment} (h : ∀ e, S.Env e → S.Env (f e)) :
    S.Does (modifyEnv f) fun _ => True :=
  does_modify fun s known =>
    .of_session ⟨h s.env known.env, known.registry, known.expected, known.errors⟩ rfl

theorem does_declare {ty : Ty} (ht : ty.Of S.record) : S.Does (declare name ty) fun _ => True :=
  does_modifyEnv fun _ known => known.withScopes (known.vars.add ht) known.types

theorem does_declareEach (names : List String) {types : List Ty}
    (ht : ∀ t ∈ types, t.Of S.record) : S.Does (declareEach names types) fun _ => True := by
  induction names generalizing types with
  | nil => exact does_pure trivial
  | cons name names ih =>
    cases types with
    | nil => exact does_pure trivial
    | cons ty types =>
      rw [List.forall_mem_cons] at ht
      exact (does_declare ht.1).bind fun _ _ => ih ht.2

theorem does_defineType {ty : Ty} (ht : ty.Of S.record) (key : S.key name) :
    S.Does (defineType name ty) fun _ => True := by
  refine does_modify fun s known => ?_
  have types : (s.env.types.add name ty).All (Ty.Of S.record) := known.env.types.add ht
  have env := known.env.withScopes known.env.vars types
  by_cases top : s.env.types.depth = 0
  · simp only [top, if_true]
    refine ⟨⟨env, Table.forall_insert known.registry ht, known.expected, known.errors⟩, rfl,
      fun k changed => ?_⟩
    by_cases same : k = name
    · rw [same]
      exact key
    · exact absurd (Table.lookup_insert_of_ne same) changed
  · simp only [top, if_false]
    exact .of_session ⟨env, known.registry, known.expected, known.errors⟩ rfl

theorem does_enterScope : S.Does enterScope fun _ => True :=
  does_modifyEnv fun _ known => known.withScopes known.vars.enter known.types.enter

theorem does_leaveScope : S.Does leaveScope fun _ => True := by
  refine does_get.bind fun s known => ?_
  dsimp only
  split
  case h_1 vars types hv ht =>
    exact does_modifyEnv fun _ env => env.withScopes (known.env.vars.leave hv)
      (known.env.types.leave ht)
  case h_2 => exact does_throw

theorem does_setReturns {b : Bool} : S.Does (setReturns b) fun _ => True :=
  does_modify fun _ known =>
    .of_session ⟨known.env, known.registry, known.expected, known.errors⟩ rfl

theorem does_enterLoop : S.Does enterLoop fun _ => True :=
  does_modify fun _ known =>
    .of_session ⟨known.env, known.registry, known.expected, known.errors⟩ rfl

theorem does_leaveLoop : S.Does leaveLoop fun _ => True := by
  refine does_get.bind fun s _ => ?_
  cases s.loopDepth with
  | zero => exact does_throw
  | succ n =>
    exact does_modify fun _ known =>
      .of_session ⟨known.env, known.registry, known.expected, known.errors⟩ rfl

theorem does_setBarrier {f : CheckState → Option Nat} :
    S.Does (modify fun s => { s with barrier := f s }) fun _ => True :=
  does_modify fun _ known =>
    .of_session ⟨known.env, known.registry, known.expected, known.errors⟩ rfl

theorem does_enterBranch : S.Does enterBranch fun _ => True :=
  does_setReturns.bind fun _ _ => does_enterScope

theorem does_leaveBranch : S.Does leaveBranch fun _ => True :=
  does_leaveScope.bind fun _ _ => does_get.bind fun _ _ => does_setReturns.bind fun _ _ =>
    does_pure trivial

theorem does_enterFunction {sig : Signature} (hs : (Ty.func sig).Of S.record) :
    S.Does (enterFunction sig) S.State := by
  rw [Ty.of_func] at hs
  refine does_get.bind fun around known => does_enterScope.bind fun _ _ =>
    (does_declareEach _ hs.1).bind fun _ _ => (does_modify fun s inner => ?_).bind fun _ _ =>
      does_pure known
  refine .of_session ⟨inner.env, inner.registry, fun t same => ?_, inner.errors⟩ rfl
  exact Option.some.inj same ▸ hs.2

theorem does_leaveFunction {around : CheckState} (known : S.State around) {sig : Signature}
    (placed : S.place token.start) :
    S.Does (leaveFunction around sig name token) fun _ => True := by
  have left : S.Does (do
      leaveScope
      modify fun s => { s with expected := around.expected, loopDepth := around.loopDepth })
      fun _ => True :=
    does_leaveScope.bind fun _ _ => does_modify fun _ inner =>
      .of_session ⟨inner.env, inner.registry, known.expected, inner.errors⟩ rfl
  refine does_get.bind fun _ _ => does_setReturns.bind fun _ _ => does_equals.bind fun _ _ => ?_
  split
  · exact (does_error placed).bind fun _ _ => left
  · exact left

theorem does_checkInLoop {keyword : String} (placed : S.place token.start) :
    S.Does (checkInLoop keyword token) fun _ => True :=
  does_get.bind fun _ _ => .ite (does_error placed) (does_pure trivial)

end Sources

end FrontEnd
