import FrontEnd.Proofs.Checking.Frame

namespace FrontEnd

structure Tables where
  types : Scopes Ty
  modules : List (String × Module)
  session : Session

def CheckState.tables (s : CheckState) : Tables :=
  ⟨s.env.types, s.env.modules, s.session⟩

open Check CheckState

def Stmt.Named (D : String → Prop) : Stmt → Prop
  | .record _ decl => D decl.name
  | _ => True

/-- The records that an item declares in the scope in which it is checked have names as `D`
says. -/
def Item.Named (D : String → Prop) : Item → Prop
  | .stmt x | .clause (some x) => x.Named D
  | .stmts xs | .top xs => ∀ x ∈ xs, x.Named D
  | _ => True

theorem Item.named_true (i : Item) : i.Named fun _ => True := by
  have stmt (x : Stmt) : x.Named fun _ => True := by cases x <;> trivial
  match i with
  | .stmt x | .clause (some x) => exact stmt x
  | .stmts xs | .top xs => exact fun x _ => stmt x
  | .clause none | .expr _ | .node _ | .exprs _ | .args _ _ | .elements _ _ | .values _
  | .fields _ _ _ | .builtin _ _ _ _ | .list _ | .condition _ _ | .guard _ _ | .result _ | .body _
  | .function _ _ _ _ | .branches _ _ => trivial

/-- A property of tables that checking with `imp` keeps, if the names of the types that are declared
outside all scopes are as `D` says; where a unit is imported, `imp'` gives the same. -/
structure Invariant (imp imp' : Importer) (D : String → Prop) (I : Tables → Prop) : Prop where
  enter {s : CheckState} : I s.tables → I s.enter.tables
  leave {s around : CheckState} (inside : Inside around s) :
    I s.tables → I around.tables → I (s.leave around).tables
  define {s : CheckState} (decl : Record) (named : s.env.types.depth = 0 → D decl.name) :
    I s.tables → I (s.define decl.name (.record decl)).tables
  imports {token name typeArgs path} {s s' : CheckState} : I s.tables →
    Imports imp token name typeArgs path s s' →
      Imports imp' token name typeArgs path s s' ∧ I s'.tables

variable {imp imp' : Importer} {D : String → Prop} {I : Tables → Prop} {P : Law}
  {s s' : CheckState}

theorem CheckState.tables_note (s : CheckState) (d : Diagnostic) :
    (s.note d).tables = s.tables := by
  obtain ⟨ds, h⟩ := note_eq_notes s d
  rw [h]
  rfl

theorem CheckState.tables_noteUnless (s : CheckState) (ok : Prop) [Decidable ok] (d : Diagnostic) :
    (s.noteUnless ok d).tables = s.tables := by
  obtain ⟨ds, h⟩ := noteUnless_eq_notes s ok d
  rw [h]
  rfl

theorem CheckState.tables_declareEach (s : CheckState) (names : List String) (types : List Ty) :
    (s.declareEach names types).tables = s.tables :=
  s.declareEach_same tables (fun _ _ _ => rfl) names types

theorem CheckState.tables_enterFunction (s : CheckState) (sig : Signature) :
    (s.enterFunction sig).tables = s.enter.tables :=
  tables_declareEach s.enter sig.names sig.params

theorem CheckState.tables_leaveFunction (s around : CheckState) (sig : Signature) (name : String)
    (token : Token) : (s.leaveFunction around sig name token).tables = (s.leave around).tables := by
  have noted := tables_noteUnless { s with returns := around.returns }
    (s.returns = true ∨ sig.result.equals s.resolver .void = true)
    ⟨.check (.notAllPathsReturn name), token.start⟩
  simp only [tables, Tables.mk.injEq] at noted
  simp only [CheckState.leaveFunction, tables, CheckState.leave, noted]

namespace Check

theorem Notes.tables {α : Type} {m : Check α} (hm : Notes m) {a : α} (h : Runs imp m s a s') :
    s'.tables = s.tables := by
  obtain ⟨ds, rfl⟩ := hm.state h
  rfl

theorem Notes.carry {α : Type} {m : Check α} (hm : Notes m) {a : α} (h : Runs imp m s a s')
    (hs : I s.tables) : Runs imp' m s a s' ∧ I s'.tables :=
  ⟨hm.runs_of h, hm.tables h ▸ hs⟩

theorem runs_checkReturn_of {token : Token} {got : Ty} {u : Unit}
    (h : Runs imp (checkReturn token got) s u s') : Runs imp' (checkReturn token got) s u s' := by
  obtain noted | ⟨expected, s₁, expects, fits, rfl⟩ := runs_checkReturn.mp h
  · exact runs_checkReturn.mpr (.inl noted)
  · exact runs_checkReturn.mpr (.inr ⟨expected, s₁, expects, notes_expectEqual.runs_of fits, rfl⟩)

theorem tables_checkReturn {token : Token} {got : Ty} {u : Unit}
    (h : Runs imp (checkReturn token got) s u s') : s'.tables = s.tables := by
  obtain ⟨_, rfl⟩ | ⟨_, s₁, _, fits, rfl⟩ := runs_checkReturn.mp h
  · exact tables_note s _
  · exact (notes_expectEqual.tables fits : s₁.tables = s.tables)

end Check

namespace Invariant

theorem note (hs : I s.tables) (d : Diagnostic) : I (s.note d).tables :=
  tables_note s d ▸ hs

theorem noteUnless (hs : I s.tables) (ok : Prop) [Decidable ok] (d : Diagnostic) :
    I (s.noteUnless ok d).tables :=
  tables_noteUnless s ok d ▸ hs

theorem enterFunction (inv : Invariant imp imp' D I) (hs : I s.tables) (sig : Signature) :
    I (s.enterFunction sig).tables :=
  tables_enterFunction s sig ▸ inv.enter hs

theorem recordDecl (inv : Invariant imp imp' D I) {token : Token} {decl decl' : Record}
    (h : Runs imp (recordDecl token decl) s decl' s') (named : s.env.types.depth = 0 → D decl.name)
    (hs : I s.tables) : Runs imp' (recordDecl token decl) s decl' s' ∧ I s'.tables := by
  obtain ⟨fields?, s₁, resolved, h⟩ := runs_recordDecl.mp h
  have types : s₁.env.types = s.env.types.add decl.name (.record decl) :=
    congrArg Tables.types ((notes_resolveFields _ _).tables resolved)
  have ⟨resolved, h₁⟩ : Runs imp' _ _ fields? s₁ ∧ I s₁.tables :=
    (notes_resolveFields _ _).carry resolved (inv.define decl named hs)
  refine ⟨runs_recordDecl.mpr ⟨fields?, s₁, resolved, h⟩, ?_⟩
  obtain ⟨_, _, rfl⟩ | ⟨fields, _, _, rfl⟩ := h
  · exact h₁
  · refine inv.define { decl with fields := fields } (fun closed => named ?_) h₁
    rw [types] at closed
    exact closed

end Invariant

/-- Every expression is checked in a state in which the invariant holds, and it holds in the
end. -/
theorem Checks.carry (steady : imp.Steady) (inv : Invariant imp imp' D I) {i : Item} {r : i.Result}
    (h : Checks imp P i s r s') (named : s.env.types.depth = 0 → i.Named D) (hs : I s.tables) :
    Checks imp' (fun _ s _ s' => I s.tables ∧ I s'.tables) i s r s' ∧ I s'.tables := by
  induction h with
  | expr _ _ ih =>
    obtain ⟨node, h₁⟩ := ih (fun _ => trivial) hs
    exact ⟨.expr node ⟨hs, h₁⟩, h₁⟩
  | ident typed =>
    obtain ⟨typed, h₁⟩ := notes_identType.carry typed hs
    exact ⟨.ident typed, h₁⟩
  | literal literal => exact ⟨.literal literal, hs⟩
  | member isModule typed =>
    obtain ⟨typed, h₁⟩ := notes_moduleMember.carry typed hs
    exact ⟨.member isModule typed, h₁⟩
  | field notModule _ typed ih =>
    obtain ⟨object, h₁⟩ := ih (fun _ => trivial) hs
    obtain ⟨typed, h₂⟩ := notes_fieldAccess.carry typed h₁
    exact ⟨.field notModule object typed, h₂⟩
  | misplaced _ _ ihv iht =>
    obtain ⟨value, h₁⟩ := ihv (fun _ => trivial) hs
    obtain ⟨target, h₂⟩ := iht (fun _ => trivial) h₁
    exact ⟨.misplaced value target, Invariant.note h₂ _⟩
  | binary notDot notAssign _ _ typed ih₁ ih₂ =>
    obtain ⟨first, h₁⟩ := ih₁ (fun _ => trivial) hs
    obtain ⟨second, h₂⟩ := ih₂ (fun _ => trivial) h₁
    obtain ⟨typed, h₃⟩ := notes_binaryType.carry typed h₂
    exact ⟨.binary notDot notAssign first second typed, h₃⟩
  | unary _ typed ih =>
    obtain ⟨first, h₁⟩ := ih (fun _ => trivial) hs
    obtain ⟨typed, h₂⟩ := notes_unaryType.carry typed h₁
    exact ⟨.unary first typed, h₂⟩
  | index _ _ typed ih₁ ih₂ =>
    obtain ⟨first, h₁⟩ := ih₁ (fun _ => trivial) hs
    obtain ⟨second, h₂⟩ := ih₂ (fun _ => trivial) h₁
    obtain ⟨typed, h₃⟩ := notes_indexType.carry typed h₂
    exact ⟨.index first second typed, h₃⟩
  | call _ callable _ typed ih ihs =>
    obtain ⟨called, h₁⟩ := ih (fun _ => trivial) hs
    obtain ⟨callable, h₂⟩ := notes_calleeSignature.carry callable h₁
    obtain ⟨given, h₃⟩ := ihs (fun _ => trivial) (Invariant.noteUnless h₂ _ _)
    obtain ⟨typed, h₄⟩ := notes_resolveValue.carry typed h₃
    exact ⟨.call called callable given typed, h₄⟩
  | uncallable _ notCallable _ ih ihs =>
    obtain ⟨called, h₁⟩ := ih (fun _ => trivial) hs
    obtain ⟨notCallable, h₂⟩ := notes_calleeSignature.carry notCallable h₁
    obtain ⟨given, h₃⟩ := ihs (fun _ => trivial) h₂
    exact ⟨.uncallable called notCallable given, h₃⟩
  | builtin known types _ ih =>
    obtain ⟨known, h₁⟩ := notes_builtin?.carry known hs
    obtain ⟨types, h₂⟩ := (notes_resolveTypeArgs _).carry types h₁
    obtain ⟨given, h₃⟩ := ih (fun _ => trivial) h₂
    exact ⟨.builtin known types given, h₃⟩
  | unknown notKnown _ ih =>
    obtain ⟨notKnown, h₁⟩ := notes_builtin?.carry notKnown hs
    obtain ⟨given, h₂⟩ := ih (fun _ => trivial) h₁
    exact ⟨.unknown notKnown given, h₂⟩
  | structLit struct _ ih =>
    obtain ⟨struct, h₁⟩ := notes_literalRecord.carry struct hs
    obtain ⟨given, h₂⟩ := ih (fun _ => trivial) h₁
    exact ⟨.structLit struct given, h₂⟩
  | structless notStruct _ ih =>
    obtain ⟨notStruct, h₁⟩ := notes_literalRecord.carry notStruct hs
    obtain ⟨given, h₂⟩ := ih (fun _ => trivial) h₁
    exact ⟨.structless notStruct given, h₂⟩
  | arrayLit array _ ih =>
    obtain ⟨array, h₁⟩ := notes_resolveAll.carry array hs
    obtain ⟨given, h₂⟩ := ih (fun _ => trivial) (Invariant.noteUnless h₁ _ _)
    exact ⟨.arrayLit array given, h₂⟩
  | arrayless notArray resolved _ ih =>
    obtain ⟨resolved, h₁⟩ := notes_resolveAll.carry resolved hs
    obtain ⟨given, h₂⟩ := ih (fun _ => trivial) h₁
    exact ⟨.arrayless notArray resolved given, h₂⟩
  | comma _ ih =>
    obtain ⟨given, h₁⟩ := ih (fun _ => trivial) hs
    exact ⟨.comma given, Invariant.note h₁ _⟩
  | lambda _ ih =>
    obtain ⟨inner, h₁⟩ := ih (fun _ => trivial) hs
    exact ⟨.lambda inner, h₁⟩
  | exprsNil => exact ⟨.exprsNil, hs⟩
  | exprsCons _ _ ih ihs =>
    obtain ⟨first, h₁⟩ := ih (fun _ => trivial) hs
    obtain ⟨rest, h₂⟩ := ihs (fun _ => trivial) h₁
    exact ⟨.exprsCons first rest, h₂⟩
  | argsNil => exact ⟨.argsNil, hs⟩
  | argsCons _ fits _ ih ihs =>
    obtain ⟨first, h₁⟩ := ih (fun _ => trivial) hs
    obtain ⟨fits, h₂⟩ := notes_expectEqual.carry fits h₁
    obtain ⟨rest, h₃⟩ := ihs (fun _ => trivial) h₂
    exact ⟨.argsCons first fits rest, h₃⟩
  | argsMore _ _ ih ihs =>
    obtain ⟨first, h₁⟩ := ih (fun _ => trivial) hs
    obtain ⟨rest, h₂⟩ := ihs (fun _ => trivial) h₁
    exact ⟨.argsMore first rest, h₂⟩
  | elementsNil => exact ⟨.elementsNil, hs⟩
  | elementsCons _ fits _ ih ihs =>
    obtain ⟨first, h₁⟩ := ih (fun _ => trivial) hs
    obtain ⟨fits, h₂⟩ := notes_expectEqual.carry fits h₁
    obtain ⟨rest, h₃⟩ := ihs (fun _ => trivial) h₂
    exact ⟨.elementsCons first fits rest, h₃⟩
  | valuesNil => exact ⟨.valuesNil, hs⟩
  | valuesCons _ _ ih ihs =>
    obtain ⟨first, h₁⟩ := ih (fun _ => trivial) hs
    obtain ⟨rest, h₂⟩ := ihs (fun _ => trivial) h₁
    exact ⟨.valuesCons first rest, h₂⟩
  | fieldsNil => exact ⟨.fieldsNil, hs⟩
  | fieldsCons _ fits _ ih ihs =>
    obtain ⟨first, h₁⟩ := ih (fun _ => trivial) (Invariant.noteUnless hs _ _)
    obtain ⟨fits, h₂⟩ := notes_checkField.carry fits h₁
    obtain ⟨rest, h₃⟩ := ihs (fun _ => trivial) h₂
    exact ⟨.fieldsCons first fits rest, h₃⟩
  | sizeof => exact ⟨.sizeof, hs⟩
  | print prints _ ih =>
    obtain ⟨given, h₁⟩ := ih (fun _ => trivial) hs
    exact ⟨.print prints given, h₁⟩
  | unreachable => exact ⟨.unreachable, hs⟩
  | cast _ typed ih =>
    obtain ⟨value, h₁⟩ := ih (fun _ => trivial) hs
    obtain ⟨typed, h₂⟩ := notes_castType.carry typed h₁
    exact ⟨.cast value typed, h₂⟩
  | alloc _ typed ih =>
    obtain ⟨size, h₁⟩ := ih (fun _ => trivial) hs
    obtain ⟨typed, h₂⟩ := notes_expectInteger.carry typed h₁
    exact ⟨.alloc size typed, h₂⟩
  | free _ typed ih =>
    obtain ⟨pointer, h₁⟩ := ih (fun _ => trivial) hs
    obtain ⟨typed, h₂⟩ := notes_expectPointer.carry typed h₁
    exact ⟨.free pointer typed, h₂⟩
  | realloc _ typed _ sized ih ihn =>
    obtain ⟨pointer, h₁⟩ := ih (fun _ => trivial) hs
    obtain ⟨typed, h₂⟩ := notes_expectPointer.carry typed h₁
    obtain ⟨size, h₃⟩ := ihn (fun _ => trivial) h₂
    obtain ⟨sized, h₄⟩ := notes_expectInteger.carry sized h₃
    exact ⟨.realloc pointer typed size sized, h₄⟩
  | codeless => exact ⟨.codeless, Invariant.note hs _⟩
  | asm code _ ih =>
    obtain ⟨code, h₁⟩ := notes_checkAssembly.carry code hs
    obtain ⟨given, h₂⟩ := ih (fun _ => trivial) h₁
    exact ⟨.asm code given, h₂⟩
  | commas _ ih =>
    obtain ⟨given, h₁⟩ := ih (fun _ => trivial) hs
    exact ⟨.commas given, h₁⟩
  | single noComma _ ih =>
    obtain ⟨value, h₁⟩ := ih (fun _ => trivial) hs
    exact ⟨.single noComma value, h₁⟩
  | condition _ typed ih =>
    obtain ⟨value, h₁⟩ := ih (fun _ => trivial) hs
    obtain ⟨typed, h₂⟩ := notes_checkCondition.carry typed h₁
    exact ⟨.condition value typed, h₂⟩
  | unguarded => exact ⟨.unguarded, hs⟩
  | guarded _ ih =>
    obtain ⟨value, h₁⟩ := ih (fun _ => trivial) hs
    exact ⟨.guarded value, h₁⟩
  | nothing => exact ⟨.nothing, hs⟩
  | something _ ih =>
    obtain ⟨value, h₁⟩ := ih (fun _ => trivial) hs
    exact ⟨.something value, h₁⟩
  | @body _ s _ s₁ _ _ inner left ih =>
    have grown : Grows _ s₁ := inner.change steady
    have inside : Inside s s₁ := ⟨grown.vars, grown.types⟩
    have left := (runs_leaveBranch inside).mp left
    obtain ⟨inner, h₁⟩ :=
      ih (fun closed => absurd closed s.env.types.depth_enter_ne_zero) (inv.enter hs)
    have kept : I (s₁.leave s).tables := inv.leave inside h₁ hs
    exact ⟨.body inner ((runs_leaveBranch inside).mpr left), left.2 ▸ kept⟩
  | @function sig _ _ _ s _ s₁ _ _ inner left ih =>
    have grown : Grows _ s₁ := inner.change steady
    have entered := grows_declareEach s.enter sig.names sig.params
    have inside : Inside s s₁ := ⟨entered.vars.trans grown.vars, entered.types.trans grown.types⟩
    have left := (runs_leaveFunction inside).mp left
    have types : (s.enterFunction sig).env.types = s.env.types.enter :=
      congrArg Tables.types (tables_enterFunction s sig)
    obtain ⟨inner, h₁⟩ := ih (fun closed => absurd (types ▸ closed) s.env.types.depth_enter_ne_zero)
      (inv.enterFunction hs sig)
    refine ⟨.function inner ((runs_leaveFunction (u := ()) inside).mpr left), ?_⟩
    rw [left, tables_leaveFunction]
    exact inv.leave inside h₁ hs
  | absent => exact ⟨.absent, hs⟩
  | present _ ih =>
    obtain ⟨inner, h₁⟩ := ih named hs
    exact ⟨.present inner, h₁⟩
  | expression _ ih =>
    obtain ⟨value, h₁⟩ := ih (fun _ => trivial) hs
    exact ⟨.expression value, h₁⟩
  | declare _ typed ih =>
    obtain ⟨given, h₁⟩ := ih (fun _ => trivial) hs
    obtain ⟨typed, h₂⟩ := notes_declaredType.carry typed h₁
    exact ⟨.declare given typed, h₂⟩
  | declareAll _ typed ih =>
    obtain ⟨given, h₁⟩ := ih (fun _ => trivial) hs
    obtain ⟨typed, h₂⟩ := notes_declaredAll.carry typed h₁
    exact ⟨.declareAll given typed, (tables_declareEach _ _ _).symm ▸ h₂⟩
  | assign _ _ fits ihv iht =>
    obtain ⟨given, h₁⟩ := ihv (fun _ => trivial) hs
    obtain ⟨targets, h₂⟩ := iht (fun _ => trivial) h₁
    obtain ⟨fits, h₃⟩ := notes_checkAssignment.carry fits h₂
    exact ⟨.assign given targets fits, h₃⟩
  | record declared =>
    obtain ⟨declared, h₁⟩ := inv.recordDecl declared named hs
    exact ⟨.record declared, h₁⟩
  | define _ ih =>
    obtain ⟨inner, h₁⟩ := ih (fun _ => trivial) hs
    exact ⟨.define inner, h₁⟩
  | choose _ _ _ ihe ihx ihm =>
    obtain ⟨condition, h₁⟩ := ihe (fun _ => trivial) hs
    obtain ⟨taken, h₂⟩ := ihx (fun _ => trivial) h₁
    obtain ⟨others, h₃⟩ := ihm (fun _ => trivial) h₂
    exact ⟨.choose condition taken others, h₃⟩
  | chooseElse _ _ _ _ ihe ihx ihm ihy =>
    obtain ⟨condition, h₁⟩ := ihe (fun _ => trivial) hs
    obtain ⟨taken, h₂⟩ := ihx (fun _ => trivial) h₁
    obtain ⟨others, h₃⟩ := ihm (fun _ => trivial) h₂
    obtain ⟨otherwise, h₄⟩ := ihy (fun _ => trivial) h₃
    exact ⟨.chooseElse condition taken others otherwise, h₄⟩
  | @loop _ _ _ _ _ s _ _ _ s₂ _ s₃ _ _ s₄ _ _ _ _ before guard after inner leftLoop leftScope
      ihi ihe ihp ihx =>
    have left := before.left_loop steady guard after inner leftLoop leftScope
    have grown : Grows s.enter s₂ :=
      Grows.trans (before.change steady) (Keeps.grows (guard.change steady))
    have grown₃ : Grows s.enter s₃ := grown.trans (after.change steady)
    have kept : Keeps _ s₄ := inner.change steady
    have inside : Inside s s₄ := ⟨kept.vars ▸ grown₃.vars, kept.types ▸ grown₃.types⟩
    have leftLoop := runs_leaveLoop.mp leftLoop
    have leftScope := runs_leaveScope.mp leftScope
    obtain ⟨before, h₁⟩ :=
      ihi (fun closed => absurd closed s.env.types.depth_enter_ne_zero) (inv.enter hs)
    obtain ⟨guard, h₂⟩ := ihe (fun _ => trivial) h₁
    obtain ⟨after, h₃⟩ := ihp
      (fun closed => absurd (grown.types.depth_eq ▸ closed) s.env.types.depth_enter_ne_zero) h₂
    obtain ⟨inner, h₄⟩ := ihx (fun _ => trivial) h₃
    refine ⟨.loop before guard after inner ((runs_leaveLoop (u := ())).mpr leftLoop)
      ((runs_leaveScope (u := ())).mpr leftScope), ?_⟩
    have kept := inv.leave inside h₄ hs
    exact left ▸ kept
  | returned _ fits ih =>
    obtain ⟨given, h₁⟩ := ih (fun _ => trivial) hs
    exact ⟨.returned given (runs_checkReturn_of fits), tables_checkReturn fits ▸ h₁⟩
  | breaks inLoop =>
    obtain ⟨inLoop, h₁⟩ := notes_checkInLoop.carry inLoop hs
    exact ⟨.breaks inLoop, h₁⟩
  | continues inLoop =>
    obtain ⟨inLoop, h₁⟩ := notes_checkInLoop.carry inLoop hs
    exact ⟨.continues inLoop, h₁⟩
  | external => exact ⟨.external, hs⟩
  | importUnit types imported =>
    obtain ⟨types, h₁⟩ := (notes_resolveTypeArgs _).carry types hs
    obtain ⟨imported, h₂⟩ := inv.imports h₁ (runs_importUnit.mp imported)
    exact ⟨.importUnit types ((runs_importUnit (u := ())).mpr imported), h₂⟩
  | generic => exact ⟨.generic, hs⟩
  | branchesNil => exact ⟨.branchesNil, hs⟩
  | branchesCons _ _ _ ihe ihx ihs =>
    obtain ⟨condition, h₁⟩ := ihe (fun _ => trivial) hs
    obtain ⟨taken, h₂⟩ := ihx (fun _ => trivial) h₁
    obtain ⟨others, h₃⟩ := ihs (fun _ => trivial) h₂
    exact ⟨.branchesCons condition taken others, h₃⟩
  | stmtsNil reached => exact ⟨.stmtsNil reached, hs⟩
  | stmtsCons reached first _ ih ihs =>
    have grown : Grows _ _ := first.change steady
    obtain ⟨first, h₁⟩ := ih (fun closed => named closed _ List.mem_cons_self) hs
    obtain ⟨rest, h₂⟩ := ihs (fun closed x hx =>
      named (grown.types.depth_eq ▸ closed) x (List.mem_cons_of_mem _ hx)) h₁
    exact ⟨.stmtsCons reached first rest, h₂⟩
  | dead notReached => exact ⟨.dead notReached, hs⟩
  | topNil => exact ⟨.topNil, hs⟩
  | topCons first _ ih ihs =>
    have grown : Grows _ _ := first.change steady
    obtain ⟨first, h₁⟩ := ih (fun closed => named closed _ List.mem_cons_self) hs
    obtain ⟨rest, h₂⟩ := ihs (fun closed x hx =>
      named (grown.types.depth_eq ▸ closed) x (List.mem_cons_of_mem _ hx)) h₁
    exact ⟨.topCons first rest, h₂⟩

end FrontEnd
