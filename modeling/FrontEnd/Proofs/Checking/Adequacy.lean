import FrontEnd.Proofs.Checking.Derivation

namespace FrontEnd

open Check

-- Its equations are made here once, and not by all the proofs below that ask for them.
attribute [local simp] Item.check

namespace Item

variable {imp : Importer} {s s' : CheckState}

theorem runs_condition {token : Token} {e e' : Expr} :
    Runs imp (condition token e).check s e' s' ↔
      ∃ s₁, Runs imp (Check.expr e) s e' s₁ ∧ Runs imp (checkCondition e'.ty token) s₁ () s' := by
  simp only [check, runs_bind, runs_pure]
  constructor
  · rintro ⟨_, s₁, h, _, _, h', rfl, rfl⟩
    exact ⟨s₁, h, h'⟩
  · rintro ⟨s₁, h, h'⟩
    exact ⟨e', s₁, h, (), s', h', rfl, rfl⟩

theorem runs_body {xs xs' : List Stmt} {returns : Bool} :
    Runs imp (body xs).check s (xs', returns) s' ↔
      ∃ s₁, Runs imp (Check.stmts xs) { s.enter with returns := false } xs' s₁ ∧
        Runs imp leaveBranch s₁ returns s' := by
  simp only [check, runs_bind, runs_enterBranch, runs_pure, Prod.mk.injEq]
  constructor
  · rintro ⟨_, _, rfl, _, s₁, h, _, _, h', ⟨rfl, rfl⟩, rfl⟩
    exact ⟨s₁, h, h'⟩
  · rintro ⟨s₁, h, h'⟩
    exact ⟨(), _, rfl, xs', s₁, h, returns, s', h', ⟨rfl, rfl⟩, rfl⟩

theorem runs_function {sig : Signature} {name : String} {token : Token} {xs xs' : List Stmt} :
    Runs imp (function sig name token xs).check s xs' s' ↔
      ∃ s₁, Runs imp (Check.stmts xs) (s.enterFunction sig) xs' s₁ ∧
        Runs imp (leaveFunction s sig name token) s₁ () s' := by
  simp only [check, runs_bind, runs_enterFunction, runs_pure]
  constructor
  · rintro ⟨_, _, ⟨rfl, rfl⟩, _, s₁, h, _, _, h', rfl, rfl⟩
    exact ⟨s₁, h, h'⟩
  · rintro ⟨s₁, h, h'⟩
    exact ⟨s, _, ⟨rfl, rfl⟩, xs', s₁, h, (), s', h', rfl, rfl⟩

end Item

section

variable {token : Token}
variable {ty : Ty} {e : Expr} {xs : List Stmt}

theorem builtinCall_print {b : Builtin} {es : List Expr} (prints : b = .print ∨ b = .println) :
    builtinCall b ty token es = do return (← exprs es, .void) := by
  obtain rfl | rfl := prints
  all_goals obtain _ | ⟨e, _ | ⟨e', es⟩⟩ := es <;> simp [builtinCall, exprs]

theorem builtinCall_asm {es : List Expr} :
    builtinCall .asm ty token (e :: es) = do
      checkAssembly e token
      return (← exprs (e :: es), ty) := by
  cases es <;> simp [builtinCall, exprs]

theorem stmt_declareAll {names : List String} {types : List Ty} {value : Expr} :
    stmt (.declareAll token names ty types value) = do
      let value ← (Item.list value).check
      let (ty, types) ← declaredAll token names ty value.valueTypes
      declareEach names types
      return .declareAll token names ty types value := by
  obtain ⟨node, t, tok⟩ := value
  cases node
  case comma items =>
    simp only [Item.check, bind_assoc, pure_bind]
    rfl
  all_goals rfl

theorem stmt_assign {target value : Expr} :
    stmt (.assign token target value) = do
      let value ← (Item.list value).check
      let target ← (Item.list target).check
      checkAssignment token target.valueTypes value.valueTypes
      return .assign token target value := by
  obtain ⟨node, t, tok⟩ := value
  obtain ⟨node', t', tok'⟩ := target
  cases node
  case comma items =>
    simp only [Item.check, bind_assoc, pure_bind]
    cases node'
    case comma items =>
      simp only [bind_assoc, pure_bind]
      rfl
    all_goals rfl
  all_goals
    cases node'
    case comma items =>
      simp only [Item.check, bind_assoc, pure_bind]
      rfl
    all_goals rfl

theorem stmt_choose {more : List Branch} :
    stmt (.choose token ⟨e, xs⟩ more none) = do
      let e ← (Item.condition token e).check
      let (xs, _) ← (Item.body xs).check
      let (more, _) ← branches token more
      setReturns false
      return .choose token ⟨e, xs⟩ more none := by
  simp only [Item.check, bind_assoc, pure_bind]
  rfl

theorem stmt_chooseElse {ys : List Stmt} {more : List Branch} :
    stmt (.choose token ⟨e, xs⟩ more (some ys)) = do
      let e ← (Item.condition token e).check
      let (xs, first) ← (Item.body xs).check
      let (more, all) ← branches token more
      let (ys, last) ← (Item.body ys).check
      setReturns (first && all && last)
      return .choose token ⟨e, xs⟩ more (some ys) := by
  simp only [Item.check, bind_assoc, pure_bind]
  rfl

theorem stmt_loop {init : Option Stmt} {e : Option Expr} {post : Option Stmt} :
    stmt (.loop token init e post xs) = do
      enterScope
      let init ← (Item.clause init).check
      let e ← (Item.guard token e).check
      let post ← (Item.clause post).check
      enterLoop
      let (xs, _) ← (Item.body xs).check
      leaveLoop
      setReturns false
      leaveScope
      return .loop token init e post xs := by
  cases init <;> cases e <;> cases post <;> simp only [Item.check, bind_assoc, pure_bind] <;> rfl

theorem stmt_return {value : Option Expr} :
    stmt (.return token value) = do
      let value ← (Item.result value).check
      checkReturn token (value.elim .void (·.ty))
      return .return token value := by
  cases value <;> simp only [Item.check, bind_assoc, pure_bind] <;> rfl

theorem branches_cons {bs : List Branch} :
    branches token (⟨e, xs⟩ :: bs) = do
      let e ← (Item.condition token e).check
      let (xs, first) ← (Item.body xs).check
      let (bs, all) ← branches token bs
      return (⟨e, xs⟩ :: bs, first && all) := by
  simp only [Item.check, bind_assoc, pure_bind]
  rfl

end

variable {imp : Importer} {P : Law} {i : Item} {s s' : CheckState} {r : i.Result}

theorem Checks.runs (h : Checks imp P i s r s') : Runs imp i.check s r s' := by
  induction h with
  | expr _ _ ih => exact ih
  | ident typed =>
    simp only [Item.check, Check.expr]
    exact typed.bind .ret
  | @literal e s literal =>
    obtain ⟨node, ty, token⟩ := e
    cases node <;> simp_all [Expr.isLiteral, Check.expr]
  | member isModule typed =>
    simp only [Item.check, Check.expr]
    exact (runs_moduleOf?.mpr ⟨isModule.symm, rfl⟩).bind (typed.bind .ret)
  | field notModule _ typed ih =>
    simp only [Item.check, Check.expr]
    exact (runs_moduleOf?.mpr ⟨notModule.symm, rfl⟩).bind (ih.bind (typed.bind .ret))
  | misplaced _ _ ihv iht =>
    simp only [Item.check, Check.expr]
    exact ihv.bind (iht.bind (Runs.error.bind .ret))
  | @binary op _ _ _ _ _ _ _ _ _ _ _ notDot notAssign _ _ typed ih₁ ih₂ =>
    cases op
    case dot => exact absurd rfl notDot
    case assign => exact absurd rfl notAssign
    all_goals exact ih₁.bind (ih₂.bind (typed.bind .ret))
  | unary _ typed ih =>
    simp only [Item.check, Check.expr]
    exact ih.bind (typed.bind .ret)
  | index _ _ typed ih₁ ih₂ =>
    simp only [Item.check, Check.expr]
    exact ih₁.bind (ih₂.bind (typed.bind .ret))
  | call _ callable _ typed ih ihs =>
    simp only [Item.check, Check.expr]
    exact ih.bind (callable.bind ((runs_ite_error (by simp)).mpr (ihs.bind (typed.bind .ret))))
  | uncallable _ notCallable _ ih ihs =>
    simp only [Item.check, Check.expr]
    exact ih.bind (notCallable.bind (ihs.bind .ret))
  | builtin known types _ ih =>
    simp only [Item.check, Check.expr]
    exact known.bind (types.bind (ih.bind .ret))
  | unknown notKnown _ ih =>
    simp only [Item.check, Check.expr]
    exact notKnown.bind (ih.bind .ret)
  | structLit struct _ ih =>
    simp only [Item.check, Check.expr]
    exact struct.bind (ih.bind .ret)
  | structless notStruct _ ih =>
    simp only [Item.check, Check.expr]
    exact notStruct.bind (ih.bind .ret)
  | arrayLit array _ ih =>
    simp only [Item.check, Check.expr]
    exact array.bind ((runs_ite_error (by simp)).mpr (ih.bind .ret))
  | @arrayless _ _ _ _ _ ty _ _ _ notArray resolved _ ih =>
    simp only [Item.check, Check.expr]
    refine resolved.bind ?_
    cases ty <;> first | exact ih.bind .ret | simp [Ty.isArray] at notArray
  | comma _ ih =>
    simp only [Item.check, Check.expr]
    exact ih.bind (Runs.error.bind .ret)
  | lambda _ ih =>
    obtain ⟨s₁, inner, left⟩ := Item.runs_function.mp ih
    simp only [Item.check, Check.expr]
    exact (runs_resolveSignature.mpr ⟨rfl, rfl⟩).bind (Runs.get.bind (Runs.modify.bind
      ((runs_enterFunction.mpr ⟨rfl, rfl⟩).bind (inner.bind (left.bind (Runs.modify.bind .ret))))))
  | exprsNil | argsNil | elementsNil | valuesNil | fieldsNil =>
    exact .ret
  | exprsCons _ _ ih ihs =>
    simp only [Item.check, Check.exprs]
    exact ih.bind (ihs.bind .ret)
  | argsCons _ fits _ ih ihs =>
    simp only [Item.check, Check.exprsAgainst]
    exact ih.bind (fits.bind (ihs.bind .ret))
  | argsMore _ _ ih ihs =>
    simp only [Item.check, Check.exprsAgainst]
    exact ih.bind (ihs.bind .ret)
  | elementsCons _ fits _ ih ihs =>
    simp only [Item.check, Check.elementsAgainst]
    exact ih.bind (fits.bind (ihs.bind .ret))
  | valuesCons _ _ ih ihs =>
    simp only [Item.check, Check.fieldValues]
    exact ih.bind (ihs.bind .ret)
  | fieldsCons _ fits _ ih ihs =>
    simp only [Item.check, Check.fieldsAgainst]
    exact (runs_ite_error (by simp)).mpr (ih.bind (fits.bind (ihs.bind .ret)))
  | sizeof => exact .ret
  | unreachable =>
    simp only [Item.check, Check.builtinCall]
    exact Runs.modify.bind (Runs.get.bind .ret)
  | print prints _ ih =>
    rw [Item.check, builtinCall_print prints]
    exact ih.bind .ret
  | cast _ typed ih =>
    simp only [Item.check, Check.builtinCall]
    exact ih.bind (typed.bind .ret)
  | alloc _ typed ih =>
    simp only [Item.check, Check.builtinCall]
    exact ih.bind (typed.bind .ret)
  | free _ typed ih =>
    simp only [Item.check, Check.builtinCall]
    exact ih.bind (typed.bind .ret)
  | realloc _ typed _ sized ih ihn =>
    simp only [Item.check, Check.builtinCall]
    exact ih.bind ((runs_resolve.mpr ⟨rfl, rfl⟩).bind (typed.bind (ihn.bind (sized.bind .ret))))
  | codeless =>
    simp only [Item.check, Check.builtinCall]
    exact Runs.error.bind .ret
  | asm code _ ih =>
    rw [Item.check, builtinCall_asm]
    exact code.bind (ih.bind .ret)
  | commas _ ih => exact ih.bind .ret
  | @single e _ _ _ noComma _ ih =>
    obtain ⟨node, ty, token⟩ := e
    cases node
    case comma => exact absurd rfl (noComma _)
    all_goals exact ih
  | condition _ typed ih => exact ih.bind (typed.bind .ret)
  | guarded _ ih =>
    obtain ⟨s₁, h, h'⟩ := Item.runs_condition.mp ih
    exact h.bind (h'.bind .ret)
  | unguarded | nothing | absent => exact .ret
  | something _ ih => exact ih.bind .ret
  | body _ left ih => exact Item.runs_body.mpr ⟨_, ih, left⟩
  | function _ left ih => exact Item.runs_function.mpr ⟨_, ih, left⟩
  | present _ ih => exact ih.bind .ret
  | expression _ ih => exact ih.bind .ret
  | declare _ typed ih => exact ih.bind (typed.bind (Runs.modify.bind .ret))
  | declareAll _ typed ih =>
    rw [Item.check, stmt_declareAll]
    exact ih.bind (typed.bind (((runs_declareEach (u := ())).mpr rfl).bind .ret))
  | assign _ _ fits ihv iht =>
    rw [Item.check, stmt_assign]
    exact ihv.bind (iht.bind (fits.bind .ret))
  | record declared => exact declared.bind .ret
  | define _ ih =>
    obtain ⟨s₁, inner, left⟩ := Item.runs_function.mp ih
    exact (runs_resolveSignature.mpr ⟨rfl, rfl⟩).bind (Runs.modify.bind
      ((runs_enterFunction.mpr ⟨rfl, rfl⟩).bind (inner.bind (left.bind (Runs.modify.bind .ret)))))
  | choose _ _ _ ihe ihx ihm =>
    rw [Item.check, stmt_choose]
    exact ihe.bind (ihx.bind (ihm.bind (Runs.modify.bind .ret)))
  | chooseElse _ _ _ _ ihe ihx ihm ihy =>
    rw [Item.check, stmt_chooseElse]
    exact ihe.bind (ihx.bind (ihm.bind (ihy.bind (Runs.modify.bind .ret))))
  | loop _ _ _ _ leftLoop leftScope ihi ihe ihp ihx =>
    rw [Item.check, stmt_loop]
    exact Runs.modify.bind (ihi.bind (ihe.bind (ihp.bind (Runs.modify.bind (ihx.bind
      (leftLoop.bind (Runs.modify.bind (leftScope.bind .ret))))))))
  | returned _ fits ih =>
    rw [Item.check, stmt_return]
    exact ih.bind (fits.bind .ret)
  | breaks inLoop => exact inLoop.bind .ret
  | continues inLoop => exact inLoop.bind .ret
  | external =>
    exact (runs_resolveSignature.mpr ⟨rfl, rfl⟩).bind (Runs.get.bind (Runs.modify.bind .ret))
  | importUnit types imported => exact types.bind (imported.bind .ret)
  | generic => exact .ret
  | branchesNil => exact .ret
  | branchesCons _ _ _ ihe ihx ihs =>
    rw [Item.check, branches_cons]
    exact ihe.bind (ihx.bind (ihs.bind .ret))
  | stmtsNil _ => exact .ret
  | stmtsCons reached _ _ ih ihs =>
    refine Runs.get.bind ?_
    rw [reached]
    exact ih.bind (ihs.bind .ret)
  | @dead xs s notReached =>
    cases xs with
    | nil => exact .ret
    | cons x xs =>
      refine Runs.get.bind ?_
      rw [notReached]
      exact .ret
  | topNil => exact .ret
  | topCons _ _ ih ihs => exact ih.bind (ihs.bind .ret)

end FrontEnd
