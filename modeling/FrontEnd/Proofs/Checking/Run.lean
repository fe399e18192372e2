import FrontEnd.Checking.Stmts

namespace FrontEnd

namespace CheckState

variable {s : CheckState} {d : Diagnostic} {ds es : List Diagnostic}

def note (s : CheckState) (d : Diagnostic) : CheckState :=
  if s.session.config.accepts s.errors.length then { s with errors := s.errors ++ [d] } else s

def noteUnless (s : CheckState) (ok : Prop) [Decidable ok] (d : Diagnostic) : CheckState :=
  if ok then s else s.note d

def notes (s : CheckState) (ds : List Diagnostic) : CheckState :=
  { s with errors := s.errors ++ ds }

/-- All errors are recorded, however many there are. -/
def Uncapped (s : CheckState) : Prop :=
  s.session.config.maxCheckErrors = none

/-- One more error would be recorded. -/
def Room (s : CheckState) : Prop :=
  s.session.config.accepts s.errors.length = true

@[simp]
theorem notes_nil : s.notes [] = s := by
  simp [notes]

@[simp]
theorem notes_notes : (s.notes ds).notes es = s.notes (ds ++ es) := by
  simp [notes]

@[simp]
theorem notes_eq_self : s.notes ds = s ↔ ds = [] := by
  constructor
  · intro h
    simpa [notes] using congrArg CheckState.errors h
  · rintro rfl
    exact notes_nil

@[simp]
theorem self_eq_notes : s = s.notes ds ↔ ds = [] := by
  rw [eq_comm, notes_eq_self]

@[simp]
theorem notes_uncapped : (s.notes ds).Uncapped ↔ s.Uncapped :=
  Iff.rfl

theorem note_eq_notes (s : CheckState) (d : Diagnostic) : ∃ ds, s.note d = s.notes ds := by
  unfold note
  split
  · exact ⟨[d], rfl⟩
  · exact ⟨[], notes_nil.symm⟩

theorem noteUnless_eq_notes (s : CheckState) (ok : Prop) [Decidable ok] (d : Diagnostic) :
    ∃ ds, s.noteUnless ok d = s.notes ds := by
  unfold noteUnless
  split
  · exact ⟨[], notes_nil.symm⟩
  · exact note_eq_notes s d

theorem Uncapped.room (h : s.Uncapped) : s.Room := by
  unfold Uncapped at h
  simp [Room, Config.accepts, h]

theorem note_of_room (h : s.Room) : s.note d = s.notes [d] :=
  if_pos h

theorem note_cases (s : CheckState) (d : Diagnostic) :
    s.Room ∧ s.note d = s.notes [d] ∨ ¬ s.Room ∧ s.note d = s := by
  by_cases room : s.Room
  · exact .inl ⟨room, note_of_room room⟩
  · exact .inr ⟨room, if_neg room⟩

theorem room_of_notes (h : (s.notes ds).Room) : s.Room := by
  have accepts : s.session.config.accepts (s.errors ++ ds).length = true := h
  rw [List.length_append] at accepts
  unfold Room
  unfold Config.accepts at *
  cases limit : s.session.config.maxCheckErrors with
  | none => rfl
  | some n =>
    simp only [limit, decide_eq_true_eq] at accepts ⊢
    omega

theorem note_of_uncapped (h : s.Uncapped) : s.note d = s.notes [d] :=
  note_of_room h.room

def moduleOf? (s : CheckState) (e : Expr) : Option Module :=
  match e.name? with
  | some name => if s.env.vars.contains name then none else s.env.module? name
  | none => none

end CheckState

namespace Check

open CheckState

variable {α β : Type} {imp : Importer} {s s' : CheckState} {token : Token}
variable {m : Check α} {a : α} {b : β} {s₁ : CheckState} {t object written : Ty} {f : α → Check β}
  {u : Unit} {e : CheckError} {name owner : String}

/-- Part `m` of checking, begun in `s`, gives `a` and ends in `s'`. -/
def Runs (imp : Importer) (m : Check α) (s : CheckState) (a : α) (s' : CheckState) : Prop :=
  m imp s = .ok (a, s')

theorem Runs.unique {b : α} {s₂ : CheckState} (h : Runs imp m s a s₁) (h' : Runs imp m s b s₂) :
    a = b ∧ s₁ = s₂ := by
  simpa using (show (Except.ok (a, s₁) : Except Fault _) = .ok (b, s₂) from h.symm.trans h')

theorem Runs.iff {b : α} {t : CheckState} (h : Runs imp m s a t) :
    Runs imp m s b s' ↔ b = a ∧ s' = t := by
  constructor
  · intro h'
    exact h'.unique h
  · rintro ⟨rfl, rfl⟩
    exact h

@[simp]
theorem runs_pure {b : α} : Runs imp (pure a) s b s' ↔ b = a ∧ s' = s := by
  have he : (pure a : Check α) imp s = .ok (a, s) := rfl
  simp [Runs, he, eq_comm]

@[simp]
theorem runs_bind :
    Runs imp (m >>= f) s b s' ↔ ∃ a s₁, Runs imp m s a s₁ ∧ Runs imp (f a) s₁ b s' := by
  have he : (m >>= f) imp s = m imp s >>= fun p => f p.1 imp p.2 := rfl
  simp only [Runs, he]
  cases m imp s with
  | error e => simp [bind, Except.bind]
  | ok p =>
    obtain ⟨a, s₁⟩ := p
    constructor
    · intro h
      exact ⟨a, s₁, rfl, h⟩
    · rintro ⟨_, _, h, h'⟩
      cases h
      exact h'

@[simp]
theorem runs_map {f : α → β} : Runs imp (f <$> m) s b s' ↔ ∃ a, Runs imp m s a s' ∧ b = f a := by
  rw [map_eq_pure_bind]
  simp only [runs_bind, runs_pure]
  constructor
  · rintro ⟨a, _, h, rfl, rfl⟩
    exact ⟨a, h, rfl⟩
  · rintro ⟨a, h, rfl⟩
    exact ⟨a, s', h, rfl, rfl⟩

@[simp]
theorem runs_get {t : CheckState} : Runs imp get s t s' ↔ t = s ∧ s' = s := by
  have he : (get : Check CheckState) imp s = .ok (s, s) := rfl
  simp [Runs, he, eq_comm]

@[simp high]
theorem runs_get_bind {f : CheckState → Check β} :
    Runs imp (get >>= f) s b s' ↔ Runs imp (f s) s b s' :=
  Iff.rfl

@[simp]
theorem runs_read {i : Importer} : Runs imp read s i s' ↔ i = imp ∧ s' = s := by
  have he : (read : Check Importer) imp s = .ok (imp, s) := rfl
  simp [Runs, he, eq_comm]

@[simp]
theorem runs_modify {f : CheckState → CheckState} : Runs imp (modify f) s u s' ↔ s' = f s := by
  have he : (modify f : Check Unit) imp s = .ok ((), f s) := rfl
  simp [Runs, he, eq_comm]

@[simp]
theorem runs_liftM {x : Except Fault α} : Runs imp (liftM x) s a s' ↔ x = .ok a ∧ s' = s := by
  have he : (liftM x : Check α) imp s = x >>= fun a => .ok (a, s) := rfl
  simp only [Runs, he]
  cases x <;> simp [bind, Except.bind, eq_comm]

@[simp]
theorem not_runs_throw {e : Fault} : ¬ Runs imp (throw e) s a s' := by
  have he : (throw e : Check α) imp s = .error e := rfl
  simp [Runs, he]

@[simp]
theorem runs_error : Runs imp (error e token) s u s' ↔ s' = s.note ⟨.check e, token.start⟩ := by
  simp only [error, report, runs_modify]
  rfl

@[simp]
theorem runs_report {d : Diagnostic} : Runs imp (report d) s u s' ↔ s' = s.note d := by
  simp only [report, runs_modify]
  rfl

@[simp]
theorem runs_resolve {u : Ty} :
    Runs imp (resolve t) s u s' ↔ u = s.resolver.resolve t ∧ s' = s := by
  simp [resolve, and_assoc, and_comm]

theorem runs_resolve_bind {f : Ty → Check β} :
    Runs imp (resolve t >>= f) s b s' ↔ Runs imp (f (s.resolver.resolve t)) s b s' :=
  Iff.rfl

@[simp]
theorem runs_resolveSignature {sig sig' : Signature} :
    Runs imp (resolveSignature sig) s sig' s' ↔
      sig' = s.resolver.resolveSignature sig ∧ s' = s := by
  simp [resolveSignature, and_assoc, and_comm]

@[simp]
theorem runs_equals {a b : Ty} {c : Bool} :
    Runs imp (equals a b) s c s' ↔ c = a.equals s.resolver b ∧ s' = s := by
  simp [equals, and_assoc, and_comm]

theorem runs_equals_bind {a b : Ty} {f : Bool → Check β} {c : β} :
    Runs imp (equals a b >>= f) s c s' ↔ Runs imp (f (a.equals s.resolver b)) s c s' :=
  Iff.rfl

@[simp]
theorem runs_moduleOf? {e : Expr} {m : Option Module} :
    Runs imp (moduleOf? e) s m s' ↔ m = s.moduleOf? e ∧ s' = s := by
  have read : moduleOf? e = get >>= fun s => pure (s.moduleOf? e) := by
    simp only [moduleOf?, CheckState.moduleOf?]
    cases e.name? <;> rfl
  constructor
  · rw [read, runs_bind]
    rintro ⟨t, _, got, given⟩
    obtain ⟨rfl, rfl⟩ := runs_get.mp got
    exact runs_pure.mp given
  · rintro ⟨rfl, rfl⟩
    rw [read, runs_bind]
    exact ⟨s', s', runs_get.mpr ⟨rfl, rfl⟩, runs_pure.mpr ⟨rfl, rfl⟩⟩

theorem Runs.bind (h : Runs imp m s a s₁) (h' : Runs imp (f a) s₁ b s') :
    Runs imp (m >>= f) s b s' :=
  runs_bind.mpr ⟨a, s₁, h, h'⟩

theorem Runs.bind_iff (h : Runs imp m s a s₁) :
    Runs imp (m >>= f) s b s' ↔ Runs imp (f a) s₁ b s' := by
  constructor
  · intro run
    obtain ⟨_, _, first, second⟩ := runs_bind.mp run
    obtain ⟨rfl, rfl⟩ := first.unique h
    exact second
  · exact h.bind

theorem Runs.ret : Runs imp (pure a) s a s :=
  runs_pure.mpr ⟨rfl, rfl⟩

theorem Runs.error : Runs imp (error e token) s () (s.note ⟨.check e, token.start⟩) :=
  runs_error.mpr rfl

theorem runs_error_of_uncapped (uncapped : s.Uncapped) :
    Runs imp (error e token) s () (s.notes [⟨.check e, token.start⟩]) :=
  runs_error.mpr (note_of_uncapped uncapped).symm

theorem Runs.modify {f : CheckState → CheckState} : Runs imp (modify f) s () (f s) :=
  runs_modify.mpr rfl

theorem Runs.get : Runs imp get s s s :=
  runs_get.mpr ⟨rfl, rfl⟩

theorem runs_ite_error {k : Check α} {p ok : Prop} [Decidable p] [Decidable ok] (h : p ↔ ¬ ok) :
    Runs imp (if p then do error e token; k else k) s a s' ↔
      Runs imp k (s.noteUnless ok ⟨.check e, token.start⟩) a s' := by
  by_cases hok : ok
  · simp [CheckState.noteUnless, h, hok]
  · simp [CheckState.noteUnless, h, hok]
/-- A part of checking that looks at the state and reports errors. It changes nothing else and
imports nothing. -/
def Notes (m : Check α) : Prop :=
  ∀ s, ∃ a ds, ∀ imp, Runs imp m s a (s.notes ds)

theorem Notes.total (hm : Notes m) (imp : Importer) (s : CheckState) :
    ∃ a ds, Runs imp m s a (s.notes ds) := by
  obtain ⟨a, ds, h⟩ := hm s
  exact ⟨a, ds, h imp⟩

theorem Notes.state (hm : Notes m) (h : Runs imp m s a s') : ∃ ds, s' = s.notes ds := by
  obtain ⟨_, ds, h'⟩ := hm s
  exact ⟨ds, (h.unique (h' imp)).2⟩

theorem Notes.runs_of (hm : Notes m) {imp' : Importer} (h : Runs imp m s a s') :
    Runs imp' m s a s' := by
  obtain ⟨_, ds, h'⟩ := hm s
  obtain ⟨rfl, rfl⟩ := h.unique (h' imp)
  exact h' imp'

theorem notes_pure : Notes (pure a) :=
  fun _ => ⟨a, [], by simp⟩

theorem Notes.bind (hm : Notes m) (hf : ∀ a, Notes (f a)) : Notes (m >>= f) := by
  intro s
  obtain ⟨a, ds, h⟩ := hm s
  obtain ⟨b, es, h'⟩ := hf a (s.notes ds)
  exact ⟨b, ds ++ es, fun imp => runs_bind.mpr ⟨a, _, h imp, by simpa using h' imp⟩⟩

theorem Notes.map {f : α → β} (hm : Notes m) : Notes (m >>= fun a => pure (f a)) :=
  hm.bind fun _ => notes_pure

theorem Notes.ite {p : Prop} [Decidable p] {n : Check α} (hm : Notes m) (hn : Notes n) :
    Notes (if p then m else n) := by
  split
  · exact hm
  · exact hn

theorem notes_get : Notes get :=
  fun s => ⟨s, [], by simp⟩

theorem notes_report {d : Diagnostic} : Notes (report d) := by
  intro s
  obtain ⟨ds, h⟩ := note_eq_notes s d
  exact ⟨(), ds, fun _ => runs_report.mpr h.symm⟩

theorem notes_error : Notes (error e token) :=
  notes_report

theorem notes_resolve : Notes (resolve t) :=
  notes_get.map

theorem notes_equals {a b : Ty} : Notes (equals a b) :=
  notes_get.map

theorem notes_expectEqual {a b : Ty} : Notes (expectEqual a b token) :=
  notes_equals.bind fun _ => notes_error.ite notes_pure

theorem notes_resolveAll : Notes (resolveAll t token) := by
  refine notes_resolve.bind fun t => ?_
  cases t.firstRef? with
  | none => exact notes_pure
  | some ref => exact notes_error.map

theorem notes_resolveValue : Notes (resolveValue t token) := by
  refine notes_resolve.bind fun t => ?_
  cases t.element with
  | named ref => exact notes_error.map
  | _ => exact notes_pure

theorem notes_expectNumeric : Notes (expectNumeric t token) :=
  notes_pure.ite notes_error.map

theorem notes_isCaptured : Notes (isCaptured name) := by
  refine notes_get.bind fun s => ?_
  cases s.barrier <;> cases s.env.vars.depthOf? name <;> exact notes_pure

theorem notes_identType : Notes (identType name token) := by
  refine notes_get.bind fun s => ?_
  cases s.env.vars.get? name with
  | none =>
    exact Notes.ite notes_error.map notes_error.map
  | some ty =>
    exact notes_isCaptured.bind fun _ =>
      Notes.ite notes_error.map notes_resolveValue

theorem notes_binaryType {op : InfixOp} {left right : Ty} :
    Notes (binaryType op left right token) :=
  notes_resolve.bind fun _ => notes_resolve.bind fun _ => notes_expectNumeric.bind fun _ =>
    notes_expectNumeric.bind fun _ => Notes.ite notes_expectEqual.map notes_pure

theorem notes_unaryType {op : PrefixOp} : Notes (unaryType op t token) := by
  refine notes_resolve.bind fun t => ?_
  cases op with
  | not | negate | identity => exact notes_expectNumeric.map
  | reference => exact notes_pure
  | dereference =>
    cases t with
    | pointer target => exact notes_resolveValue
    | todo => exact notes_pure
    | _ => exact notes_error.map

theorem notes_elementType {base : Ty} : Notes (elementType base token) := by
  refine notes_resolve.bind fun t => ?_
  cases t with
  | array element _ => exact notes_resolveValue
  | pointer target => exact notes_resolveValue
  | todo => exact notes_pure
  | _ => exact notes_error.map

theorem notes_indexType {base index : Ty} : Notes (indexType base index token) :=
  notes_resolve.bind fun _ => notes_expectNumeric.bind fun _ => notes_elementType

theorem notes_calleeSignature {callee : Expr} : Notes (calleeSignature callee token) := by
  refine notes_resolve.bind fun t => ?_
  cases t with
  | func sig => exact notes_pure
  | todo => exact notes_pure
  | _ => exact notes_error.map

theorem notes_moduleMember {m : Module} {member : Expr} : Notes (moduleMember m member token) := by
  unfold moduleMember
  cases member.name?.map (Name.requalify · m.unit.env.id) with
  | none => exact notes_error.map
  | some qualified =>
    simp only [Option.bind_some]
    cases m.unit.env.vars.get? qualified with
    | none => exact notes_error.map
    | some ty => exact notes_resolve.map

theorem notes_accessedType : Notes (accessedType object token) := by
  refine notes_resolve.bind fun t => ?_
  cases t with
  | pointer target => exact notes_resolveValue
  | _ => exact notes_pure

theorem notes_recordField {field : Expr} : Notes (recordField object field token) := by
  cases object with
  | record decl =>
    unfold recordField
    dsimp only
    split
    · exact notes_error.map
    · split
      · exact notes_resolveValue.map
      · exact notes_error.map
  | todo => exact notes_pure
  | _ => exact notes_error.map

theorem notes_fieldAccess {field : Expr} : Notes (fieldAccess object field token) :=
  notes_accessedType.bind fun _ => notes_recordField

theorem notes_structOf {ty? : Option Ty} : Notes (structOf name ty? token) := by
  unfold structOf
  split
  · exact notes_pure
  · refine Notes.bind ?_ fun _ => notes_pure
    unfold notStruct
    split <;> exact notes_error

theorem notes_literalRecord {module? : Option String} :
    Notes (literalRecord name module? token) := by
  unfold literalRecord
  cases module? with
  | none => exact notes_resolve.bind fun _ => notes_structOf.map
  | some module =>
    refine notes_get.bind fun s => ?_
    cases s.env.module? module with
    | none => exact notes_error.map
    | some m => exact notes_structOf.map

theorem notes_checkField {decl : Record} {value : Expr} : Notes (checkField decl name value) := by
  unfold checkField
  split
  · exact notes_expectEqual
  · exact notes_error

theorem notes_castType {target source : Ty} : Notes (castType target source token) :=
  notes_resolve.bind fun _ => notes_pure.ite
    (notes_equals.bind fun _ => notes_pure.ite notes_error.map)

theorem notes_expectInteger : Notes (expectInteger t token) :=
  notes_resolve.bind fun _ => notes_error.ite notes_pure

theorem notes_expectPointer : Notes (expectPointer t token) :=
  notes_resolve.bind fun _ => notes_error.ite notes_pure

theorem notes_builtin? {args : Nat} : Notes (builtin? name args token) := by
  unfold builtin?
  cases Builtin.ofName? name with
  | none => exact notes_error.map
  | some b =>
    dsimp only
    cases b.params with
    | none => exact notes_pure
    | some n => exact notes_pure.ite notes_error.map

theorem notes_resolveTypeArgs (ts : List Ty) : Notes (resolveTypeArgs token ts) := by
  induction ts with
  | nil => exact notes_pure
  | cons t ts ih => exact notes_resolveAll.bind fun _ => ih.map

theorem notes_checkCondition : Notes (checkCondition t token) :=
  notes_resolve.bind fun _ => notes_error.ite notes_pure

theorem notes_writtenType? : Notes (writtenType? written token) :=
  notes_pure.ite notes_resolveAll.map

theorem notes_typeFor {written? : Option Ty} {value : Ty} :
    Notes (typeFor written? value token) := by
  cases written? with
  | none => exact notes_resolveValue
  | some ty => exact notes_expectEqual.map

theorem notes_declaredType {value : Ty} : Notes (declaredType written value token) :=
  notes_writtenType?.bind fun _ => notes_typeFor

theorem notes_declaredTypes {written? : Option Ty} (names : List String)
    (values : List Ty) : Notes (declaredTypes written? token names values) := by
  induction names generalizing values with
  | nil => exact notes_pure
  | cons name names ih => exact notes_typeFor.bind fun _ => (ih _).map

theorem notes_declaredAll {names : List String} {values : List Ty} :
    Notes (declaredAll token names written values) := by
  have rest : Notes (do
      let written? ← writtenType? written token
      let types ← declaredTypes written? token names values
      return (written?.getD written, types)) :=
    notes_writtenType?.bind fun _ => (notes_declaredTypes names values).map
  exact Notes.ite (notes_error.bind fun _ => rest) rest

theorem notes_expectEqualAll (targets values : List Ty) :
    Notes (expectEqualAll token targets values) := by
  induction targets generalizing values with
  | nil => exact notes_pure
  | cons target targets ih =>
    cases values with
    | nil => exact notes_pure
    | cons value values => exact notes_expectEqual.bind fun _ => ih values

theorem notes_checkAssignment {targets values : List Ty} :
    Notes (checkAssignment token targets values) :=
  notes_error.ite (notes_expectEqualAll targets values)

theorem notes_checkAssembly {code : Expr} : Notes (checkAssembly code token) := by
  unfold checkAssembly
  split
  · exact notes_pure
  · exact notes_error

theorem notes_checkInLoop {keyword : String} : Notes (checkInLoop keyword token) :=
  notes_get.bind fun _ => notes_error.ite notes_pure

theorem notes_checkContainment : Notes (checkContainment owner t token) :=
  notes_get.bind fun _ => Notes.ite notes_error.map notes_pure

theorem notes_resolveField (t : Ty) : Notes (resolveField owner token t) := by
  fun_induction resolveField owner token t with
  | case1 t n ih => exact ih.map
  | case2 => exact notes_error.map
  | case3 =>
    refine notes_resolve.bind fun t => ?_
    cases t with
    | named _ => exact notes_error.map
    | _ => exact notes_checkContainment
  | case4 => exact notes_checkContainment
  | case5 => exact notes_pure

def consField (f : Field) (rest : Check (Option (List Field))) :
    Option Ty → Check (Option (List Field))
  | none => return none
  | some ty => return (← rest).map (⟨f.name, ty⟩ :: ·)

/-- Resolves a field and those after it, when its name has been looked at. -/
def resolveFrom (owner : String) (token : Token) (seen : List String) (f : Field)
    (fields : List Field) : Check (Option (List Field)) :=
  resolveField owner token f.ty >>= consField f (resolveFields owner token (f.name :: seen) fields)

theorem resolveFields_cons (seen : List String) (f : Field) (fields : List Field) :
    resolveFields owner token seen (f :: fields) =
      if seen.contains f.name then
        error (.duplicateField f.name) token >>= fun _ => resolveFrom owner token seen f fields
      else resolveFrom owner token seen f fields :=
  rfl

theorem notes_resolveFields (seen : List String) (fields : List Field) :
    Notes (resolveFields owner token seen fields) := by
  induction fields generalizing seen with
  | nil => exact notes_pure
  | cons f fields ih =>
    have rest : Notes (resolveFrom owner token seen f fields) := by
      refine (notes_resolveField f.ty).bind fun ty? => ?_
      cases ty? with
      | none => exact notes_pure
      | some ty => exact (ih _).map
    exact Notes.ite (notes_error.bind fun _ => rest) rest

end Check

end FrontEnd
