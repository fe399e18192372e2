import FrontEnd.Proofs.Checking.Derivation
import FrontEnd.Proofs.Path

namespace FrontEnd

namespace CheckState

variable {s t u around : CheckState}

structure Stays (s t : CheckState) : Prop where
  id : t.env.id = s.env.id
  directory : t.env.directory = s.env.directory
  expected : t.expected = s.expected
  loopDepth : t.loopDepth = s.loopDepth
  barrier : t.barrier = s.barrier
  config : t.session.config = s.session.config
  loader : t.session.loader = s.session.loader
  importing : t.session.importing = s.session.importing
  errors : s.errors <+: t.errors

structure Grows (s t : CheckState) : Prop extends Stays s t where
  vars : s.env.vars.Extends t.env.vars
  types : s.env.types.Extends t.env.types

/-- What expressions do to the scopes. -/
structure Keeps (s t : CheckState) : Prop extends Stays s t where
  vars : t.env.vars = s.env.vars
  types : t.env.types = s.env.types

theorem Stays.refl (s : CheckState) : Stays s s :=
  ⟨rfl, rfl, rfl, rfl, rfl, rfl, rfl, rfl, List.prefix_refl _⟩

theorem Stays.trans (h : Stays s t) (h' : Stays t u) : Stays s u where
  id := h'.id.trans h.id
  directory := h'.directory.trans h.directory
  expected := h'.expected.trans h.expected
  loopDepth := h'.loopDepth.trans h.loopDepth
  barrier := h'.barrier.trans h.barrier
  config := h'.config.trans h.config
  loader := h'.loader.trans h.loader
  importing := h'.importing.trans h.importing
  errors := h.errors.trans h'.errors

theorem Grows.trans (h : Grows s t) (h' : Grows t u) : Grows s u :=
  ⟨h.toStays.trans h'.toStays, h.vars.trans h'.vars, h.types.trans h'.types⟩

theorem Keeps.refl (s : CheckState) : Keeps s s :=
  ⟨.refl s, rfl, rfl⟩

theorem Keeps.trans (h : Keeps s t) (h' : Keeps t u) : Keeps s u :=
  ⟨h.toStays.trans h'.toStays, h'.vars.trans h.vars, h'.types.trans h.types⟩

theorem Keeps.grows (h : Keeps s t) : Grows s t :=
  ⟨h.toStays, h.vars ▸ .refl _, h.types ▸ .refl _⟩

theorem Grows.refl (s : CheckState) : Grows s s :=
  (Keeps.refl s).grows

theorem keeps_notes (s : CheckState) (ds : List Diagnostic) : Keeps s (s.notes ds) :=
  ⟨⟨rfl, rfl, rfl, rfl, rfl, rfl, rfl, rfl, List.prefix_append _ _⟩, rfl, rfl⟩

theorem keeps_note (s : CheckState) (d : Diagnostic) : Keeps s (s.note d) := by
  obtain ⟨ds, h⟩ := note_eq_notes s d
  exact h ▸ keeps_notes s ds

theorem keeps_noteUnless (s : CheckState) (ok : Prop) [Decidable ok] (d : Diagnostic) :
    Keeps s (s.noteUnless ok d) := by
  obtain ⟨ds, h⟩ := noteUnless_eq_notes s ok d
  exact h ▸ keeps_notes s ds

theorem keeps_returns (s : CheckState) (b : Bool) : Keeps s { s with returns := b } :=
  ⟨⟨rfl, rfl, rfl, rfl, rfl, rfl, rfl, rfl, List.prefix_refl _⟩, rfl, rfl⟩

theorem grows_declare (s : CheckState) (name : String) (ty : Ty) : Grows s (s.declare name ty) :=
  ⟨⟨rfl, rfl, rfl, rfl, rfl, rfl, rfl, rfl, List.prefix_refl _⟩, Scopes.extends_add _ _ _,
    .refl _⟩

theorem grows_declareEach (s : CheckState) (names : List String) (types : List Ty) :
    Grows s (s.declareEach names types) := by
  induction names generalizing s types with
  | nil => exact .refl s
  | cons name names ih =>
    cases types with
    | nil => exact .refl s
    | cons ty types => exact (grows_declare s name ty).trans (ih _ types)

theorem grows_define (s : CheckState) (name : String) (ty : Ty) : Grows s (s.define name ty) := by
  have registered : Stays s (s.define name ty) := by
    unfold define
    split <;> exact ⟨rfl, rfl, rfl, rfl, rfl, rfl, rfl, rfl, List.prefix_refl _⟩
  exact ⟨registered, .refl _, Scopes.extends_add _ _ _⟩

theorem keeps_enterFunction {sig : Signature} {name : String} {token : Token}
    (h : Grows (s.enterFunction sig) t) : Keeps s (t.leaveFunction s sig name token) := by
  have entered := grows_declareEach s.enter sig.names sig.params
  have noted := keeps_noteUnless { t with returns := s.returns }
    (t.returns = true ∨ sig.result.equals t.resolver .void = true)
    ⟨.check (.notAllPathsReturn name), token.start⟩
  refine ⟨⟨?_, ?_, rfl, rfl, ?_, ?_, ?_, ?_, ?_⟩, rfl, rfl⟩
  · exact noted.id.trans (h.id.trans entered.id)
  · exact noted.directory.trans (h.directory.trans entered.directory)
  · exact noted.barrier.trans (h.barrier.trans entered.barrier)
  · exact noted.config.trans (h.config.trans entered.config)
  · exact noted.loader.trans (h.loader.trans entered.loader)
  · exact noted.importing.trans (h.importing.trans entered.importing)
  · exact entered.errors.trans (h.errors.trans noted.errors)

/-- There are no errors, and the first one would be recorded. -/
structure Clear (s : CheckState) : Prop where
  room : s.Room
  errors : s.errors = []

theorem Clear.accepts (c : s.Clear) : s.session.config.accepts 0 = true := by
  have room := c.room
  unfold Room at room
  rwa [c.errors] at room

theorem clear_of_accepts (accepts : s.session.config.accepts 0 = true) (errors : s.errors = []) :
    s.Clear := by
  refine ⟨?_, errors⟩
  unfold Room
  rw [errors]
  exact accepts

theorem clear_of_prefix (config : t.session.config = s.session.config)
    (errors : s.errors <+: t.errors) (c : t.Clear) : s.Clear := by
  refine clear_of_accepts ?_ (List.prefix_nil.mp (c.errors ▸ errors))
  rw [← config]
  exact c.accepts

theorem Stays.clear (h : Stays s t) (c : t.Clear) : s.Clear :=
  clear_of_prefix h.config h.errors c

theorem not_clear_note (s : CheckState) (d : Diagnostic) : ¬ (s.note d).Clear := by
  intro c
  have room := ((keeps_note s d).clear c).room
  simpa [note_of_room room, notes] using c.errors

theorem clear_noteUnless {ok : Prop} [Decidable ok] {d : Diagnostic}
    (c : (s.noteUnless ok d).Clear) : ok ∧ s.noteUnless ok d = s := by
  unfold noteUnless at *
  split at c
  case isTrue h => exact ⟨h, if_pos h⟩
  case isFalse h => exact absurd c (not_clear_note s d)

theorem clear_leaveFunction {sig : Signature} {name : String} {token : Token}
    (c : (s.leaveFunction around sig name token).Clear) :
    (s.returns = true ∨ sig.result.equals s.resolver .void = true) ∧
      s.leaveFunction around sig name token =
        { s.leave around with
          returns := around.returns
          expected := around.expected
          loopDepth := around.loopDepth } := by
  have noted : ({ s with returns := around.returns }.noteUnless
      (s.returns = true ∨ sig.result.equals s.resolver .void = true)
      ⟨.check (.notAllPathsReturn name), token.start⟩).Clear := ⟨c.room, c.errors⟩
  obtain ⟨ok, same⟩ := clear_noteUnless noted
  refine ⟨ok, ?_⟩
  unfold leaveFunction
  rw [same]
  rfl

/-- All errors are recorded, and there are none. -/
structure Quiet (s : CheckState) : Prop where
  uncapped : s.Uncapped
  errors : s.errors = []

theorem Quiet.clear (q : s.Quiet) : s.Clear :=
  ⟨q.uncapped.room, q.errors⟩

theorem Stays.quiet (h : Stays s t) (q : t.Quiet) : s.Quiet where
  uncapped := by
    have uncapped := q.uncapped
    unfold Uncapped at *
    rw [← h.config]
    exact uncapped
  errors := (h.clear q.clear).errors

theorem not_quiet_note (s : CheckState) (d : Diagnostic) : ¬ (s.note d).Quiet :=
  fun q => not_clear_note s d q.clear

theorem quiet_noteUnless {ok : Prop} [Decidable ok] {d : Diagnostic}
    (q : (s.noteUnless ok d).Quiet) : ok ∧ s.noteUnless ok d = s :=
  clear_noteUnless q.clear

end CheckState

def Importer.Steady (imp : Importer) : Prop :=
  ∀ source path typeArgs session r session',
    imp source path typeArgs session = .ok (r, session') →
      session'.config = session.config ∧ session'.loader = session.loader ∧
        session'.importing = session.importing

namespace Session

theorem begin?_eq_some {s t : Session} {p : Path} (h : s.begin? p = some t) :
    t = { s with importing := p :: s.importing } := by
  unfold begin? at h
  split at h
  · exact absurd h (by simp)
  · exact (Option.some.inj h).symm

theorem finish_importing {s t u : Session} {p : Path} (h : s.begin? p = some t)
    (hu : u.importing = t.importing) : (u.finish p).importing = s.importing := by
  rw [begin?_eq_some h] at hu
  simp [finish, hu]

end Session

namespace Check

open CheckState

variable {imp : Importer} {s s' : CheckState}
variable {α : Type} {m : Check α} {a : α} {token : Token}

theorem Notes.keeps (hm : Notes m) (h : Runs imp m s a s') : Keeps s s' := by
  obtain ⟨ds, rfl⟩ := hm.state h
  exact keeps_notes s ds

theorem Notes.clear (hm : Notes m) (h : Runs imp m s a s') (c : s'.Clear) : s' = s := by
  obtain ⟨ds, rfl⟩ := hm.state h
  have none : ds = [] := (List.append_eq_nil_iff.mp c.errors).2
  rw [none, notes_nil]

theorem Notes.quiet (hm : Notes m) (h : Runs imp m s a s') (q : s'.Quiet) : s' = s :=
  hm.clear h q.clear

theorem grows_recordDecl {decl decl' : Record} (h : Runs imp (recordDecl token decl) s decl' s') :
    Grows s s' := by
  obtain ⟨fields?, s₁, resolved, h'⟩ := runs_recordDecl.mp h
  have first := (grows_define s decl.name (.record decl)).trans
    ((notes_resolveFields _ _).keeps resolved).grows
  obtain ⟨rfl, rfl, rfl⟩ | ⟨fields, rfl, rfl, rfl⟩ := h'
  · exact first
  · exact first.trans (grows_define s₁ _ _)

theorem keeps_checkReturn {got : Ty} {u : Unit} (h : Runs imp (checkReturn token got) s u s') :
    Keeps s s' := by
  obtain ⟨_, rfl⟩ | ⟨expected, s₁, _, fits, rfl⟩ := runs_checkReturn.mp h
  · exact keeps_note s _
  · exact (notes_expectEqual.keeps fits).trans (keeps_returns s₁ true)

theorem keeps_foldl_note (s : CheckState) (ds : List Diagnostic) : Keeps s (ds.foldl note s) := by
  induction ds generalizing s with
  | nil => exact .refl s
  | cons d ds ih => exact (keeps_note s d).trans (ih _)

theorem keeps_session {session : Session} (hc : session.config = s.session.config)
    (hl : session.loader = s.session.loader) (hi : session.importing = s.session.importing) :
    Keeps s { s with session := session } :=
  ⟨⟨rfl, rfl, rfl, rfl, rfl, hc, hl, hi, List.prefix_refl _⟩, rfl, rfl⟩

theorem keeps_imports (steady : imp.Steady) {name : String} {typeArgs : List Ty} {path : String}
    (h : Imports imp token name typeArgs path s s') : Keeps s s' := by
  cases h with
  | cycle _ => exact keeps_note s _
  | @unavailable session _ begins _ =>
    have hc : session.config = s.session.config := by rw [Session.begin?_eq_some begins]
    have hl : session.loader = s.session.loader := by rw [Session.begin?_eq_some begins]
    have same : Keeps s { s with session := session.finish (importedFile s path) } :=
      keeps_session hc hl (Session.finish_importing begins rfl)
    exact same.trans (keeps_note _ _)
  | @failed session _ _ session' begins _ checked =>
    have hs := Session.begin?_eq_some begins
    obtain ⟨hc, hl, hi⟩ := steady _ _ _ _ _ _ checked
    have same : Keeps s { s with session := session'.finish (importedFile s path) } :=
      keeps_session (hc.trans (by rw [hs])) (hl.trans (by rw [hs]))
        (Session.finish_importing begins hi)
    exact same.trans ((keeps_note _ _).trans (keeps_foldl_note _ _))
  | @loaded session _ _ session' begins _ checked =>
    have hs := Session.begin?_eq_some begins
    obtain ⟨hc, hl, hi⟩ := steady _ _ _ _ _ _ checked
    exact ⟨⟨rfl, rfl, rfl, rfl, rfl, hc.trans (by rw [hs]), hl.trans (by rw [hs]),
      Session.finish_importing begins hi, List.prefix_refl _⟩, rfl, rfl⟩

theorem clear_imports {name : String} {typeArgs : List Ty} {path : String}
    (h : Imports imp token name typeArgs path s s') (c : s'.Clear) :
    ∃ session source unit session',
      s.session.begin? (importedFile s path) = some session ∧
      session.loader.read (importedFile s path) = .ok source ∧
      imp source (importedFile s path) typeArgs session = .ok (.ok unit, session') ∧
      s' = { s with
        session := session'.finish (importedFile s path)
        env := { s.env with
          modules := Table.insert s.env.modules name ⟨name, importedFile s path, unit⟩ } } := by
  cases h with
  | cycle _ | unavailable _ _ => exact absurd c (not_clear_note _ _)
  | failed _ _ _ => exact absurd ((keeps_foldl_note _ _).clear c) (not_clear_note _ _)
  | loaded begins text checked => exact ⟨_, _, _, _, begins, text, checked, rfl⟩

theorem runs_leave_loop {s₃ s₄ s₅ : CheckState} {u v : Unit} (before : Grows s.enter s₃)
    (inner : Keeps { s₃ with loopDepth := s₃.loopDepth + 1 } s₄)
    (leftLoop : Runs imp leaveLoop s₄ u s₅)
    (leftScope : Runs imp leaveScope { s₅ with returns := false } v s') :
    s' = { s₄.leave s with loopDepth := s.loopDepth, returns := false } := by
  obtain ⟨n, hn, rfl⟩ := runs_leaveLoop.mp leftLoop
  have inside : Inside s { s₄ with loopDepth := n, returns := false } :=
    ⟨inner.vars ▸ before.vars, inner.types ▸ before.types⟩
  have depth : n = s.loopDepth := by
    have within : s₄.loopDepth = s₃.loopDepth + 1 := inner.loopDepth
    have outside : s₃.loopDepth = s.loopDepth := before.loopDepth
    omega
  rw [(runs_leaveScope_of_inside inside).mp leftScope, ← depth]
  rfl

end Check

open Check CheckState

/-- What checking an item does to the scopes. -/
def Item.Change : Item → CheckState → CheckState → Prop
  | .stmt _ | .clause _ | .stmts _ | .top _ => Grows
  | _ => Keeps

theorem Item.Change.stays {i : Item} {s s' : CheckState} (h : i.Change s s') : Stays s s' := by
  cases i with
  | stmt | clause | stmts | top => exact Grows.toStays h
  | _ => exact Keeps.toStays h

theorem Checks.change {imp : Importer} {P : Law} {i : Item} {s s' : CheckState} {r : i.Result}
    (steady : imp.Steady) (h : Checks imp P i s r s') : i.Change s s' := by
  induction h with
  | expr _ _ ih => exact ih
  | ident typed => exact notes_identType.keeps typed
  | literal _ => exact Keeps.refl _
  | member _ typed => exact notes_moduleMember.keeps typed
  | field _ _ typed ih => exact ih.trans (notes_fieldAccess.keeps typed)
  | misplaced _ _ ihv iht => exact (Keeps.trans ihv iht).trans (keeps_note _ _)
  | binary _ _ _ _ typed ih₁ ih₂ =>
    exact (Keeps.trans ih₁ ih₂).trans (notes_binaryType.keeps typed)
  | unary _ typed ih => exact ih.trans (notes_unaryType.keeps typed)
  | index _ _ typed ih₁ ih₂ => exact (Keeps.trans ih₁ ih₂).trans (notes_indexType.keeps typed)
  | call _ callable _ typed ih ihs =>
    exact (((ih.trans (notes_calleeSignature.keeps callable)).trans
      (keeps_noteUnless _ _ _)).trans ihs).trans (notes_resolveValue.keeps typed)
  | uncallable _ notCallable _ ih ihs =>
    exact (ih.trans (notes_calleeSignature.keeps notCallable)).trans ihs
  | builtin known types _ ih =>
    exact ((notes_builtin?.keeps known).trans ((notes_resolveTypeArgs _).keeps types)).trans ih
  | unknown notKnown _ ih => exact (notes_builtin?.keeps notKnown).trans ih
  | structLit struct _ ih => exact (notes_literalRecord.keeps struct).trans ih
  | structless notStruct _ ih => exact (notes_literalRecord.keeps notStruct).trans ih
  | arrayLit array _ ih =>
    exact ((notes_resolveAll.keeps array).trans (keeps_noteUnless _ _ _)).trans ih
  | arrayless _ resolved _ ih => exact (notes_resolveAll.keeps resolved).trans ih
  | comma _ ih => exact ih.trans (keeps_note _ _)
  | lambda _ ih =>
    exact ⟨⟨ih.id, ih.directory, ih.expected, ih.loopDepth, rfl, ih.config, ih.loader,
      ih.importing, ih.errors⟩, ih.vars, ih.types⟩
  | exprsNil | argsNil | elementsNil | valuesNil | fieldsNil => exact Keeps.refl _
  | exprsCons _ _ ih ihs | argsMore _ _ ih ihs | valuesCons _ _ ih ihs => exact ih.trans ihs
  | argsCons _ fits _ ih ihs | elementsCons _ fits _ ih ihs =>
    exact (ih.trans (notes_expectEqual.keeps fits)).trans ihs
  | fieldsCons _ fits _ ih ihs =>
    exact (((keeps_noteUnless _ _ _).trans ih).trans (notes_checkField.keeps fits)).trans ihs
  | sizeof => exact Keeps.refl _
  | print _ _ ih => exact ih
  | unreachable => exact keeps_returns _ true
  | cast _ typed ih => exact ih.trans (notes_castType.keeps typed)
  | alloc _ typed ih => exact ih.trans (notes_expectInteger.keeps typed)
  | free _ typed ih => exact ih.trans (notes_expectPointer.keeps typed)
  | realloc _ typed _ sized ih ihn =>
    exact ((ih.trans (notes_expectPointer.keeps typed)).trans ihn).trans
      (notes_expectInteger.keeps sized)
  | codeless => exact keeps_note _ _
  | asm code _ ih => exact (notes_checkAssembly.keeps code).trans ih
  | commas _ ih | single _ _ ih => exact ih
  | condition _ typed ih => exact ih.trans (notes_checkCondition.keeps typed)
  | unguarded | nothing => exact Keeps.refl _
  | guarded _ ih | something _ ih => exact ih
  | @body _ s _ s₁ _ _ _ left ih =>
    obtain ⟨rfl, rfl⟩ := (runs_leaveBranch ⟨ih.vars, ih.types⟩).mp left
    exact ⟨⟨ih.id, ih.directory, ih.expected, ih.loopDepth, ih.barrier, ih.config, ih.loader,
      ih.importing, ih.errors⟩, rfl, rfl⟩
  | @function sig _ _ _ s _ s₁ _ _ _ left ih =>
    have entered := grows_declareEach s.enter sig.names sig.params
    have inside : Inside s s₁ := ⟨entered.vars.trans ih.vars, entered.types.trans ih.types⟩
    rw [(runs_leaveFunction inside).mp left]
    exact keeps_enterFunction ih
  | absent => exact Grows.refl _
  | present _ ih => exact ih
  | expression _ ih => exact ih.grows
  | declare _ typed ih =>
    exact (ih.trans (notes_declaredType.keeps typed)).grows.trans (grows_declare _ _ _)
  | declareAll _ typed ih =>
    exact (ih.trans (notes_declaredAll.keeps typed)).grows.trans (grows_declareEach _ _ _)
  | assign _ _ fits ihv iht =>
    exact ((Keeps.trans ihv iht).trans (notes_checkAssignment.keeps fits)).grows
  | record declared => exact grows_recordDecl declared
  | define _ ih =>
    have inner := (grows_declare _ _ _).trans ih.grows
    exact ⟨⟨inner.id, inner.directory, inner.expected, inner.loopDepth, inner.barrier,
      inner.config, inner.loader, inner.importing, inner.errors⟩, inner.vars, inner.types⟩
  | choose _ _ _ ihe ihx ihm =>
    exact (((Keeps.trans ihe ihx).trans ihm).trans (keeps_returns _ _)).grows
  | chooseElse _ _ _ _ ihe ihx ihm ihy =>
    exact ((((Keeps.trans ihe ihx).trans ihm).trans ihy).trans (keeps_returns _ _)).grows
  | loop _ _ _ _ leftLoop leftScope ihi ihe ihp ihx =>
    have before := (Grows.trans ihi (Keeps.grows ihe)).trans ihp
    rw [runs_leave_loop before ihx leftLoop leftScope]
    exact Keeps.grows ⟨⟨ihx.id.trans before.id, ihx.directory.trans before.directory,
      ihx.expected.trans before.expected, rfl, ihx.barrier.trans before.barrier,
      ihx.config.trans before.config, ihx.loader.trans before.loader,
      ihx.importing.trans before.importing, before.errors.trans ihx.errors⟩, rfl, rfl⟩
  | returned _ fits ih => exact (Keeps.trans ih (keeps_checkReturn fits)).grows
  | breaks inLoop | continues inLoop => exact (notes_checkInLoop.keeps inLoop).grows
  | external => exact grows_declare _ _ _
  | importUnit types imported =>
    exact (((notes_resolveTypeArgs _).keeps types).trans
      (keeps_imports steady (runs_importUnit.mp imported))).grows
  | generic => exact Grows.refl _
  | branchesNil => exact Keeps.refl _
  | branchesCons _ _ _ ihe ihx ihs => exact (Keeps.trans ihe ihx).trans ihs
  | stmtsNil _ | dead _ => exact Grows.refl _
  | stmtsCons _ _ _ ih ihs => exact Grows.trans ih ihs
  | topNil => exact Grows.refl _
  | topCons _ _ ih ihs => exact Grows.trans ih ihs

namespace Checks

variable {imp : Importer} {P : Law} {s s' : CheckState}
variable {xs xs' : List Stmt} {s₁ : CheckState} {returns : Bool} {token : Token}

/-- Errors stay recorded, so that a run without errors in the end had none before. -/
theorem quiet {i : Item} {r : i.Result} (steady : imp.Steady) (h : Checks imp P i s r s')
    (q : s'.Quiet) : s.Quiet :=
  (h.change steady).stays.quiet q

theorem left_body (steady : imp.Steady)
    (inner : Checks imp P (.stmts xs) { s.enter with returns := false } xs' s₁)
    (left : Runs imp leaveBranch s₁ returns s') :
    returns = s₁.returns ∧ s' = { s₁.leave s with returns := false } := by
  have grows : Grows _ s₁ := inner.change steady
  exact (runs_leaveBranch ⟨grows.vars, grows.types⟩).mp left

theorem left_function {sig : Signature} {name : String} {u : Unit} (steady : imp.Steady)
    (inner : Checks imp P (.stmts xs) (s.enterFunction sig) xs' s₁)
    (left : Runs imp (leaveFunction s sig name token) s₁ u s') :
    s' = s₁.leaveFunction s sig name token := by
  have entered := grows_declareEach s.enter sig.names sig.params
  have grows : Grows _ s₁ := inner.change steady
  exact (runs_leaveFunction
    ⟨entered.vars.trans grows.vars, entered.types.trans grows.types⟩).mp left

theorem left_loop {init post init' post' : Option Stmt} {e e' : Option Expr}
    {s₂ s₃ s₄ s₅ : CheckState} {u v : Unit} (steady : imp.Steady)
    (before : Checks imp P (.clause init) s.enter init' s₁)
    (guard : Checks imp P (.guard token e) s₁ e' s₂)
    (after : Checks imp P (.clause post) s₂ post' s₃)
    (inner : Checks imp P (.body xs) { s₃ with loopDepth := s₃.loopDepth + 1 } (xs', returns) s₄)
    (leftLoop : Runs imp leaveLoop s₄ u s₅)
    (leftScope : Runs imp leaveScope { s₅ with returns := false } v s') :
    s' = { s₄.leave s with loopDepth := s.loopDepth, returns := false } := by
  have grows : Grows s.enter s₃ := (Grows.trans (before.change steady)
    (Keeps.grows (guard.change steady))).trans (after.change steady)
  exact runs_leave_loop grows (inner.change steady) leftLoop leftScope

/-- The scope of statements that have been checked is open, so it can be left. -/
theorem body_of_stmts (inner : Checks imp P (.stmts xs) { s.enter with returns := false } xs' s₁)
    (steady : imp.Steady) :
    Checks imp P (.body xs) s (xs', s₁.returns) { s₁.leave s with returns := false } := by
  have grown : Grows _ _ := inner.change steady
  exact .body inner ((runs_leaveBranch ⟨grown.vars, grown.types⟩).mpr ⟨rfl, rfl⟩)

theorem function_of_stmts {sig : Signature}
    (inner : Checks imp P (.stmts xs) (s.enterFunction sig) xs' s₁) (steady : imp.Steady)
    (name : String) (token : Token) :
    Checks imp P (.function sig name token xs) s xs' (s₁.leaveFunction s sig name token) := by
  have grown : Grows _ _ := inner.change steady
  have entered := grows_declareEach s.enter sig.names sig.params
  have inside : Inside s s₁ := ⟨entered.vars.trans grown.vars, entered.types.trans grown.types⟩
  exact .function inner ((runs_leaveFunction (u := ()) inside).mpr rfl)

theorem loop_of_parts {init post init' post' : Option Stmt} {e e' : Option Expr}
    {s₂ s₃ s₄ : CheckState} (steady : imp.Steady)
    (before : Checks imp P (.clause init) s.enter init' s₁)
    (guard : Checks imp P (.guard token e) s₁ e' s₂)
    (after : Checks imp P (.clause post) s₂ post' s₃)
    (inner : Checks imp P (.body xs) { s₃ with loopDepth := s₃.loopDepth + 1 } (xs', returns) s₄) :
    Checks imp P (.stmt (.loop token init e post xs)) s (.loop token init' e' post' xs')
      { s₄.leave s with loopDepth := s.loopDepth, returns := false } := by
  have grown : Grows s.enter s₃ := (Grows.trans (before.change steady)
    (Keeps.grows (guard.change steady))).trans (after.change steady)
  have kept : Keeps _ s₄ := inner.change steady
  have inside : Inside s { s₄ with loopDepth := s₃.loopDepth, returns := false } :=
    ⟨kept.vars ▸ grown.vars, kept.types ▸ grown.types⟩
  have leftLoop : Runs imp leaveLoop s₄ () { s₄ with loopDepth := s₃.loopDepth } :=
    runs_leaveLoop.mpr ⟨_, kept.loopDepth, rfl⟩
  have leftScope : Runs imp leaveScope _ () _ := (runs_leaveScope_of_inside inside).mpr rfl
  rw [← left_loop steady before guard after inner leftLoop leftScope]
  exact .loop before guard after inner leftLoop leftScope

end Checks

end FrontEnd
