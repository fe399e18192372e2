import FrontEnd.Proofs.Renaming.Units
import FrontEnd.Proofs.Termination

namespace FrontEnd

def Config.recorded (limit : Option Nat) (ds : List Diagnostic) (d : Diagnostic) :
    List Diagnostic :=
  if Config.accepts ⟨0, limit⟩ ds.length then ds ++ [d] else ds

theorem CheckState.note_eq (s : CheckState) (d : Diagnostic) : s.note d =
    { s with errors := Config.recorded s.session.config.maxCheckErrors s.errors d } := by
  have accepts : Config.accepts ⟨0, s.session.config.maxCheckErrors⟩ s.errors.length =
    s.session.config.accepts s.errors.length := rfl
  rw [note, Config.recorded, accepts]
  split <;> rfl

theorem CheckState.foldl_note_eq (s : CheckState) (ds : List Diagnostic) : ds.foldl note s =
    { s with errors := ds.foldl (Config.recorded s.session.config.maxCheckErrors) s.errors } := by
  induction ds generalizing s with
  | nil => rfl
  | cons d ds ih =>
    rw [List.foldl_cons, ih, note_eq]
    rfl

structure Reports where
  /-- The limits of the two runs. -/
  first : Option Nat
  second : Option Nat
  same : Diagnostic → Diagnostic → Prop
  /-- What is recorded in two units. -/
  log : List Diagnostic → List Diagnostic → Prop
  /-- What two units give to those that import them. -/
  given : List Diagnostic → List Diagnostic → Prop
  same_refl : ∀ d, same d d
  log_nil : log [] []
  log_recorded : ∀ {d e ds es}, same d e → log ds es →
    log (Config.recorded first ds d) (Config.recorded second es e)
  log_empty : ∀ {ds es}, log ds es → (ds = [] ↔ es = [])
  given_refl : ∀ ds, given ds ds
  given_log : ∀ {ds es}, log ds es → given ds es
  same_failed : ∀ {ds es}, given ds es → ∀ path position,
    same ⟨.check (.importFailed path ds.length), position⟩
      ⟨.check (.importFailed path es.length), position⟩
  log_given : ∀ {ds es ds' es'}, given ds es → log ds' es' →
    log (ds.foldl (Config.recorded first) ds') (es.foldl (Config.recorded second) es')

structure Comparison where
  names : Renaming
  reports : Reports
  /-- The types that are known in the second session alone. -/
  rest : List (String × Ty)
  unseen : ∀ name, rest.lookup (names.name name) = none

namespace Comparison

open Check CheckState

structure Sessions (C : Comparison) (s t : Session) : Prop where
  reading : t.config.maxParseErrors = s.config.maxParseErrors
  first : s.config.maxCheckErrors = C.reports.first
  second : t.config.maxCheckErrors = C.reports.second
  loader : t.loader = s.loader
  nextId : t.nextId = C.names.id s.nextId
  importing : t.importing = s.importing
  registry : t.registry =
    (s.registry.map fun p => (C.names.name p.1, C.names.type p.2)) ++ C.rest
  recorded : ∀ p ∈ s.registry, ∃ decl, p.2 = .record decl

structure States (C : Comparison) (s t : CheckState) : Prop where
  env : t.env = C.names.environment s.env
  session : C.Sessions s.session t.session
  errors : C.reports.log s.errors t.errors
  returns : t.returns = s.returns
  expected : t.expected = s.expected.map C.names.type
  loopDepth : t.loopDepth = s.loopDepth
  barrier : t.barrier = s.barrier
  recorded : s.env.Recorded

variable {C : Comparison}

namespace Sessions

variable {s t : Session} (h : C.Sessions s t)
include h

theorem lookup (name : String) :
    t.registry.lookup (C.names.name name) = (s.registry.lookup name).map C.names.type := by
  rw [h.registry, List.lookup_append, C.unseen, Option.or_none]
  exact Table.lookup_map C.names.name_injective C.names.type s.registry name

theorem register (decl : Record) (name : String) :
    C.Sessions (s.register name (.record decl))
      (t.register (C.names.name name) (C.names.type (.record decl))) where
  reading := h.reading
  first := h.first
  second := h.second
  loader := h.loader
  nextId := h.nextId
  importing := h.importing
  registry := by
    have kept : C.rest.filter (fun p => p.1 ≠ C.names.name name) = C.rest := by
      refine List.filter_eq_self.mpr fun p mem => ?_
      rw [decide_eq_true_eq]
      intro same
      have other := List.lookup_eq_none_iff.mp (C.unseen name) p mem
      simp [same] at other
    have inserted := Table.insert_map C.names.name_injective C.names.type s.registry name
      (.record decl)
    simp only [Session.register, h.registry]
    rw [Table.insert, List.filter_append, kept, ← List.cons_append, ← Table.insert, inserted]
  recorded := Table.forall_insert h.recorded ⟨decl, rfl⟩

theorem begin?_none {file : Path} (begins : s.begin? file = none) : t.begin? file = none := by
  unfold Session.begin? at *
  rw [h.importing]
  split at begins
  case isTrue on => exact if_pos on
  case isFalse => cases begins

theorem begin?_some {file : Path} {session : Session} (begins : s.begin? file = some session) :
    ∃ session', t.begin? file = some session' ∧ C.Sessions session session' := by
  have eq := Session.begin?_eq_some begins
  subst eq
  refine ⟨{ t with importing := file :: t.importing }, ?_, ?_⟩
  · unfold Session.begin? at *
    rw [h.importing]
    split at begins
    case isTrue => cases begins
    case isFalse off => exact if_neg off
  · exact { h with importing := congrArg (file :: ·) h.importing }

theorem finish (file : Path) : C.Sessions (s.finish file) (t.finish file) :=
  { h with importing := congrArg (List.eraseP file.same) h.importing }

end Sessions

namespace States

variable {s t : CheckState} (h : C.States s t)
include h

theorem resolvers : C.names.Resolvers s.resolver t.resolver where
  hops := rfl
  lookup := fun ref => by
    rw [resolver, resolver, h.env]
    exact Renaming.lookup_environment s.env h.session.lookup ref

theorem stores (owner : String) (u : Ty) :
    t.stores (C.names.name owner) (C.names.type u) = s.stores owner u := by
  have tables : s.tables.Recorded := by
    cases h.recorded with
    | intro types modules => exact ⟨types, modules, h.session.recorded⟩
  have length : t.declared.length = s.declared.length + C.rest.length := by
    simp only [declared, List.length_append, List.length_map, h.env, C.names.length_declared,
      h.session.registry, Nat.add_assoc]
  have renamed := h.resolvers.storesWithin owner (t.declared.length + 2) u []
  have declares : ∀ {ref u}, s.resolver.lookup ref = some u → u ∈ s.declared :=
    Environment.mem_declared_of_lookup
  have enough := (recorded_resolver tables).storesWithin_eq owner declares C.rest.length u
  unfold CheckState.stores
  rw [List.map_nil] at renamed
  rw [renamed, length, enough]
  rfl

theorem note {d e : Diagnostic} (same : C.reports.same d e) : C.States (s.note d) (t.note e) := by
  rw [note_eq, note_eq, h.session.first, h.session.second]
  exact { h with errors := C.reports.log_recorded same h.errors }

theorem foldl_note {ds es : List Diagnostic} (given : C.reports.given ds es) :
    C.States (ds.foldl CheckState.note s) (es.foldl CheckState.note t) := by
  rw [foldl_note_eq, foldl_note_eq, h.session.first, h.session.second]
  exact { h with errors := C.reports.log_given given h.errors }

theorem note_self (d : Diagnostic) : C.States (s.note d) (t.note d) :=
  h.note (C.reports.same_refl d)

theorem withEnv {e e' : Environment} (env : e' = C.names.environment e) (recorded : e.Recorded) :
    C.States { s with env := e } { t with env := e' } :=
  { h with env := env, recorded := recorded }

theorem withSession {session session' : Session} (sessions : C.Sessions session session') :
    C.States { s with session := session } { t with session := session' } :=
  { h with session := sessions }

theorem declare (name : String) (ty : Ty) :
    C.States (s.declare name ty) (t.declare (C.names.name name) (C.names.type ty)) := by
  refine h.withEnv ?_ ?_
  · rw [h.env]
    cases s.env
    rfl
  · cases h.recorded with
    | intro types modules => exact .intro types modules

theorem declareEach (names : List String) (types : List Ty) :
    C.States (s.declareEach names types)
      (t.declareEach (names.map C.names.name) (types.map C.names.type)) := by
  induction names generalizing s t types with
  | nil => exact h
  | cons name names ih =>
    cases types with
    | nil => exact h
    | cons ty types => exact ih (h.declare name ty) types

theorem define (name : String) (decl : Record) :
    C.States (s.define name (.record decl))
      (t.define (C.names.name name) (.record (C.names.map.record decl))) := by
  have depth : t.env.types.depth = s.env.types.depth := by
    rw [h.env, C.names.environment_types, Scopes.depth_map]
  have changed : C.States
      { s with env := { s.env with types := s.env.types.add name (.record decl) } }
      { t with env := { t.env with
          types := t.env.types.add (C.names.name name) (.record (C.names.map.record decl)) } } := by
    refine h.withEnv ?_ ?_
    · rw [h.env, ← C.names.type_record]
      cases s.env
      rfl
    · cases h.recorded with
      | intro types modules => exact .intro (types.add ⟨decl, rfl⟩) modules
  refine { changed with session := ?_ }
  simp only [CheckState.define, depth]
  split
  · rw [← C.names.type_record]
    exact h.session.register decl name
  · exact h.session

theorem enter : C.States s.enter t.enter := by
  refine h.withEnv ?_ ?_
  · rw [h.env]
    cases s.env
    rfl
  · cases h.recorded with
    | intro types modules => exact .intro types.enter modules

theorem recordFunction (f : FunctionDecl) :
    C.States (s.recordFunction f) (t.recordFunction (C.names.function f)) := by
  refine h.withEnv ?_ ?_
  · have inserted := Table.insert_map C.names.name_injective C.names.function s.env.functions
      f.sig.name f
    rw [h.env]
    revert inserted
    cases s.env
    intro inserted
    exact congrArg (fun fs => Environment.mk _ _ _ _ fs _) inserted
  · cases h.recorded with
    | intro types modules => exact .intro types modules

theorem insertModule (name : String) {m : Module} (recorded : m.unit.env.Recorded) :
    C.States { s with env := { s.env with modules := Table.insert s.env.modules name m } }
      { t with env := { t.env with
          modules := Table.insert t.env.modules (C.names.name name) (C.names.module m) } } := by
  refine h.withEnv ?_ ?_
  · have inserted := Table.insert_map C.names.name_injective C.names.module s.env.modules name m
    rw [← C.names.modules_eq_map, ← C.names.modules_eq_map] at inserted
    rw [h.env]
    revert inserted
    cases s.env
    intro inserted
    exact congrArg (fun ms => Environment.mk _ _ _ _ _ ms) inserted
  · cases h.recorded with
    | intro types modules => exact .intro types (Table.forall_insert modules recorded)

end States

/-- Checking with `m'` from `t` does what checking with `m` does from `s`, and gives what `f` makes
of the result. -/
def Follows {α β : Type} (C : Comparison) (imp imp' : Importer) (s t : CheckState) (f : α → β)
    (m : Check α) (m' : Check β) : Prop :=
  C.States s t → ∀ a s', Runs imp m s a s' → ∃ t', Runs imp' m' t (f a) t' ∧ C.States s' t'

section Follows

variable {imp imp' : Importer} {s t : CheckState} {α β γ δ : Type} {f : α → β} {g : γ → δ}
variable {m : Check α} {m' : Check β} {token : Token} {u : Ty} {sig : Signature} {name : String}

theorem follows_pure {a : α} {b : β} (same : f a = b) :
    C.Follows imp imp' s t f (pure a) (pure b) := by
  intro h a' s' runs
  obtain ⟨rfl, rfl⟩ := runs_pure.mp runs
  exact ⟨t, runs_pure.mpr ⟨same, rfl⟩, h⟩

theorem follows_throw {e : Fault} : C.Follows imp imp' s t f (throw e) (throw e) :=
  fun _ _ _ runs => absurd runs not_runs_throw

theorem Follows.bind {k : α → Check γ} {k' : β → Check δ} (hm : C.Follows imp imp' s t f m m')
    (hk : ∀ a s t, C.Follows imp imp' s t g (k a) (k' (f a))) :
    C.Follows imp imp' s t g (m >>= k) (m' >>= k') := by
  intro h c s' runs
  obtain ⟨a, s₁, first, next⟩ := runs_bind.mp runs
  obtain ⟨t₁, first', h₁⟩ := hm h a s₁ first
  obtain ⟨t', next', h'⟩ := hk a s₁ t₁ h₁ c s' next
  exact ⟨t', first'.bind next', h'⟩

theorem Follows.then {k : α → Check γ} {k' : β → Check δ} (hm : C.Follows imp imp' s t f m m')
    (hk : ∀ {a s t}, C.Follows imp imp' s t g (k a) (k' (f a))) :
    C.Follows imp imp' s t g (m >>= k) (m' >>= k') :=
  hm.bind fun _ _ _ => hk

theorem Follows.map {k : α → γ} {k' : β → δ} (hm : C.Follows imp imp' s t f m m')
    (same : (fun a => g (k a)) = fun a => k' (f a)) :
    C.Follows imp imp' s t g (m >>= fun a => pure (k a)) (m' >>= fun b => pure (k' b)) :=
  hm.bind fun a _ _ => follows_pure (congrFun same a)

theorem Follows.ite {p : Prop} [Decidable p] {n : Check α} {n' : Check β}
    (hm : p → C.Follows imp imp' s t f m m') (hn : ¬ p → C.Follows imp imp' s t f n n') :
    C.Follows imp imp' s t f (if p then m else n) (if p then m' else n') := by
  split
  · exact hm ‹p›
  · exact hn ‹¬ p›

theorem follows_get {k : CheckState → Check α} {k' : CheckState → Check β}
    (h : C.States s t → C.Follows imp imp' s t f (k s) (k' t)) :
    C.Follows imp imp' s t f (get >>= k) (get >>= k') :=
  fun states => h states states

theorem follows_modify {change change' : CheckState → CheckState}
    (h : C.States s t → C.States (change s) (change' t)) :
    C.Follows imp imp' s t id (modify change) (modify change') := by
  intro states a s' runs
  obtain rfl := runs_modify.mp runs
  exact ⟨change' t, .modify, h states⟩

theorem follows_error {e : CheckError} :
    C.Follows imp imp' s t id (error e token) (error e token) := by
  intro h a s' runs
  obtain rfl := runs_error.mp runs
  exact ⟨_, .error, h.note_self _⟩

theorem follows_failed {a : α} {b : β} {e e' : CheckError} (error : e' = e) (same : f a = b) :
    C.Follows imp imp' s t f
      (do Check.error e token
          return a)
      (do Check.error e' token
          return b) := by
  subst error
  exact follows_error.then <| follows_pure same

theorem follows_resolve :
    C.Follows imp imp' s t C.names.type (resolve u) (resolve (C.names.type u)) :=
  follows_get fun h => follows_pure (h.resolvers.resolve u).symm

theorem follows_resolveSignature :
    C.Follows imp imp' s t C.names.map.signature (resolveSignature sig)
      (resolveSignature (C.names.map.signature sig)) :=
  follows_get fun h => follows_pure (h.resolvers.resolveSignature sig).symm

theorem follows_equals {a b : Ty} :
    C.Follows imp imp' s t id (equals a b) (equals (C.names.type a) (C.names.type b)) :=
  follows_get fun h => follows_pure (h.resolvers.equals a b).symm

theorem follows_expectEqual {a b : Ty} :
    C.Follows imp imp' s t id (expectEqual a b token)
      (expectEqual (C.names.type a) (C.names.type b) token) := by
  refine follows_equals.bind fun same s t => .ite (fun _ => ?_) fun _ => follows_pure rfl
  unfold mismatch
  rw [C.names.text_type, C.names.text_type]
  exact follows_error

theorem follows_resolveAll :
    C.Follows imp imp' s t C.names.type (resolveAll u token)
      (resolveAll (C.names.type u) token) := by
  refine follows_resolve.bind fun u s t => ?_
  rw [C.names.firstRef?_type]
  cases u.firstRef? with
  | none => exact follows_pure rfl
  | some ref =>
    have text : (Ty.named (C.names.ref ref)).text = (Ty.named ref).text :=
      C.names.text_type (.named ref)
    exact follows_failed (congrArg CheckError.unknownType text) rfl

theorem follows_resolveValue :
    C.Follows imp imp' s t C.names.type (resolveValue u token)
      (resolveValue (C.names.type u) token) := by
  refine follows_resolve.bind fun u s t => ?_
  rw [C.names.element_type]
  cases u.element with
  | named ref =>
    have text : (Ty.named (C.names.ref ref)).text = (Ty.named ref).text :=
      C.names.text_type (.named ref)
    exact follows_failed (congrArg CheckError.unknownType text) rfl
  | record decl =>
    rw [C.names.type_record]
    exact follows_pure rfl
  | func sig =>
    rw [C.names.type_func]
    exact follows_pure rfl
  | _ => exact follows_pure rfl

theorem follows_declare {ty : Ty} :
    C.Follows imp imp' s t id (declare name ty) (declare (C.names.name name) (C.names.type ty)) :=
  follows_modify fun h => h.declare name ty

theorem follows_declareEach {names : List String} {types : List Ty} :
    C.Follows imp imp' s t id (declareEach names types)
      (declareEach (names.map C.names.name) (types.map C.names.type)) := by
  intro h a s' runs
  obtain rfl := runs_declareEach.mp runs
  exact ⟨_, runs_declareEach.mpr rfl, h.declareEach names types⟩

theorem follows_defineType (decl : Record) :
    C.Follows imp imp' s t id (defineType name (.record decl))
      (defineType (C.names.name name) (.record (C.names.map.record decl))) :=
  follows_modify fun h => h.define name decl

theorem follows_enterScope : C.Follows imp imp' s t id enterScope enterScope :=
  follows_modify fun h => h.enter

theorem follows_leaveScope : C.Follows imp imp' s t id leaveScope leaveScope := by
  intro h a s' runs
  obtain ⟨vars, types, leaveVars, leaveTypes, rfl⟩ := runs_leaveScope.mp runs
  refine ⟨_, runs_leaveScope.mpr ⟨vars.map C.names.name C.names.type,
    types.map C.names.name C.names.type, ?_, ?_, rfl⟩, h.withEnv ?_ ?_⟩
  · rw [h.env, C.names.environment_vars]
    exact Scopes.leave_map leaveVars
  · rw [h.env, C.names.environment_types]
    exact Scopes.leave_map leaveTypes
  · rw [h.env]
    cases s.env
    rfl
  · cases h.recorded with
    | intro all modules => exact .intro (Scopes.All.leave all leaveTypes) modules

theorem follows_setReturns {b : Bool} : C.Follows imp imp' s t id (setReturns b) (setReturns b) :=
  follows_modify fun h => { h with returns := rfl }

theorem follows_enterLoop : C.Follows imp imp' s t id enterLoop enterLoop :=
  follows_modify fun h => { h with loopDepth := congrArg (· + 1) h.loopDepth }

theorem follows_leaveLoop : C.Follows imp imp' s t id leaveLoop leaveLoop := by
  refine follows_get fun h => ?_
  rw [h.loopDepth]
  cases s.loopDepth with
  | zero => exact follows_throw
  | succ n => exact follows_modify fun h => { h with loopDepth := rfl }

theorem follows_enterBranch : C.Follows imp imp' s t id enterBranch enterBranch :=
  follows_setReturns.then <| follows_enterScope

theorem follows_leaveBranch : C.Follows imp imp' s t id leaveBranch leaveBranch := by
  refine follows_leaveScope.bind fun _ s t => follows_get fun h => ?_
  rw [h.returns]
  exact follows_setReturns.map rfl

theorem follows_enterFunction {k : CheckState → Check α} {k' : CheckState → Check β}
    (h : ∀ around around' s t, C.States around around' →
      C.Follows imp imp' s t f (k around) (k' around')) :
    C.Follows imp imp' s t f (enterFunction sig >>= k)
      (enterFunction (C.names.map.signature sig) >>= k') := by
  intro states a s' runs
  obtain ⟨around, s₁, entered, next⟩ := runs_bind.mp runs
  obtain ⟨rfl, rfl⟩ := runs_enterFunction.mp entered
  have inside : C.States (around.enterFunction sig)
      (t.enterFunction (C.names.map.signature sig)) :=
    { states.enter.declareEach sig.names sig.params with
      expected := rfl, loopDepth := rfl, returns := rfl }
  obtain ⟨t', next', h'⟩ := h around t _ _ states inside a s' next
  exact ⟨t', (runs_enterFunction.mpr ⟨rfl, rfl⟩).bind next', h'⟩

theorem follows_leaveFunction {around around' : CheckState} (states : C.States around around') :
    C.Follows imp imp' s t id (leaveFunction around sig name token)
      (leaveFunction around' (C.names.map.signature sig) name token) := by
  have rest (s t : CheckState) : C.Follows imp imp' s t id
      (do leaveScope
          modify fun s => { s with expected := around.expected, loopDepth := around.loopDepth })
      (do leaveScope
          modify fun t =>
            { t with expected := around'.expected, loopDepth := around'.loopDepth }) :=
    follows_leaveScope.then <| follows_modify fun h =>
      { h with expected := states.expected, loopDepth := states.loopDepth }
  refine follows_get fun h => ?_
  rw [h.returns, states.returns]
  refine follows_setReturns.bind fun _ s t => ?_
  have compared : C.Follows imp imp' s t id (equals sig.result .void)
      (equals (C.names.map.signature sig).result .void) := follows_equals
  exact compared.bind fun _ s t =>
    .ite (fun _ => follows_error.bind fun _ s t => rest s t) fun _ => rest s t

theorem follows_checkInLoop {keyword : String} :
    C.Follows imp imp' s t id (checkInLoop keyword token) (checkInLoop keyword token) := by
  refine follows_get fun h => ?_
  rw [h.loopDepth]
  exact .ite (fun _ => follows_error) fun _ => follows_pure rfl

end Follows

end Comparison

end FrontEnd
