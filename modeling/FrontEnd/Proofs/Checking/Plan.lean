import FrontEnd.Proofs.Checking.Totality

namespace FrontEnd

open Check CheckState

namespace Session

/-- The limits, the loader and the chain are the same. -/
structure Keeps (s t : Session) : Prop where
  config : t.config = s.config
  loader : t.loader = s.loader
  importing : t.importing = s.importing

/-- What a step does to a session: the chain stays, a file that is not on it is put on it, or one
is taken off. -/
inductive Moves (s : Session) : Session → Prop
  | stays {t : Session} (same : s.Keeps t) : s.Moves t
  | begins {p : Path} {t : Session} (begun : s.begin? p = some t) : s.Moves t
  | finishes (p : Path) : s.Moves (s.finish p)

variable {s t u : Session}

theorem Keeps.refl (s : Session) : s.Keeps s :=
  ⟨rfl, rfl, rfl⟩

theorem Keeps.trans (h : s.Keeps t) (h' : t.Keeps u) : s.Keeps u :=
  ⟨h'.config.trans h.config, h'.loader.trans h.loader, h'.importing.trans h.importing⟩

end Session

namespace CheckState

variable {s t : CheckState}

theorem Stays.session (h : Stays s t) : s.session.Keeps t.session :=
  ⟨h.config, h.loader, h.importing⟩

end CheckState

namespace Check

variable {α β : Type}
variable {m : Check α} {token : Token}

/-- A part of checking that imports nothing: it does the same with every importer. -/
def Alone (m : Check α) : Prop :=
  ∀ imp imp' s, m imp s = m imp' s

theorem Alone.bind {f : α → Check β} (hm : Alone m) (hf : ∀ a, Alone (f a)) : Alone (m >>= f) := by
  intro imp imp' s
  change (m imp s >>= fun p => f p.1 imp p.2) = m imp' s >>= fun p => f p.1 imp' p.2
  rw [hm imp imp' s]
  exact bind_congr fun p => hf p.1 imp imp' p.2

/-- A part of checking that imports nothing and leaves the chain as it is. -/
structure Tame (m : Check α) : Prop where
  alone : Alone m
  keeps {imp s a s'} (h : Runs imp m s a s') : s.session.Keeps s'.session

theorem Notes.tame (hm : Notes m) : Tame m where
  alone imp imp' s := by
    obtain ⟨a, ds, h⟩ := hm s
    exact (h imp).trans (h imp').symm
  keeps h := (hm.keeps h).toStays.session

theorem Tame.bind {f : α → Check β} (hm : Tame m) (hf : ∀ a, Tame (f a)) : Tame (m >>= f) where
  alone := hm.alone.bind fun a => (hf a).alone
  keeps h := by
    obtain ⟨a, s₁, first, second⟩ := runs_bind.mp h
    exact (hm.keeps first).trans ((hf a).keeps second)

theorem tame_throw {fault : Fault} : Tame (throw fault : Check α) where
  alone _ _ _ := rfl
  keeps h := absurd h not_runs_throw

theorem tame_modify {f : CheckState → CheckState}
    (hf : ∀ s : CheckState, s.session.Keeps (f s).session) : Tame (modify f) where
  alone _ _ _ := rfl
  keeps h := by
    rw [runs_modify.mp h]
    exact hf _

theorem tame_modifyEnv {f : Environment → Environment} : Tame (modifyEnv f) :=
  tame_modify fun s => .refl s.session

theorem tame_setReturns {b : Bool} : Tame (setReturns b) :=
  tame_modify fun s => .refl s.session

theorem tame_declareEach (names : List String) (types : List Ty) :
    Tame (declareEach names types) := by
  induction names generalizing types with
  | nil => exact notes_pure.tame
  | cons name names ih =>
    cases types with
    | nil => exact notes_pure.tame
    | cons ty types => exact tame_modifyEnv.bind fun _ => ih types

theorem tame_leaveScope : Tame leaveScope := by
  refine notes_get.tame.bind fun s => ?_
  dsimp only
  split
  · exact tame_modifyEnv
  · exact tame_throw

theorem tame_leaveLoop : Tame leaveLoop := by
  refine notes_get.tame.bind fun s => ?_
  cases s.loopDepth with
  | zero => exact tame_throw
  | succ n => exact tame_modify fun s => .refl s.session

theorem tame_enterBranch : Tame enterBranch :=
  tame_setReturns.bind fun _ => tame_modifyEnv

theorem tame_leaveBranch : Tame leaveBranch :=
  tame_leaveScope.bind fun _ => notes_get.tame.bind fun _ => tame_setReturns.bind fun _ =>
    notes_pure.tame

theorem tame_enterFunction {sig : Signature} : Tame (enterFunction sig) := by
  refine notes_get.tame.bind fun _ => tame_modifyEnv.bind fun _ => ?_
  refine (tame_declareEach _ _).bind fun _ => Tame.bind ?_ fun _ => notes_pure.tame
  exact tame_modify fun s => .refl s.session

theorem tame_leaveFunction {around : CheckState} {sig : Signature} {name : String} :
    Tame (leaveFunction around sig name token) := by
  have left : Tame (do
      leaveScope
      modify fun s => { s with expected := around.expected, loopDepth := around.loopDepth }) :=
    tame_leaveScope.bind fun _ => tame_modify fun s => .refl s.session
  refine notes_get.tame.bind fun _ => tame_setReturns.bind fun _ => ?_
  refine notes_equals.tame.bind fun _ => ?_
  split
  · exact notes_error.tame.bind fun _ => left
  · exact left

theorem tame_defineType {name : String} {ty : Ty} : Tame (defineType name ty) :=
  tame_modify fun s => (grows_define s name ty).toStays.session

theorem tame_recordDecl {decl : Record} : Tame (recordDecl token decl) := by
  refine tame_defineType.bind fun _ => (notes_resolveFields _ _).tame.bind fun fields? => ?_
  cases fields? with
  | none => exact notes_pure.tame
  | some fields => exact tame_defineType.bind fun _ => notes_pure.tame

theorem tame_checkReturn {got : Ty} : Tame (checkReturn token got) := by
  refine notes_get.tame.bind fun s => ?_
  cases s.expected with
  | none => exact notes_error.tame
  | some expected => exact notes_expectEqual.tame.bind fun _ => tame_setReturns

theorem notes_moduleOf? {e : Expr} : Notes (moduleOf? e) :=
  fun s => ⟨s.moduleOf? e, [], fun _ => by simp⟩

theorem notes_reportAll (ds : List Diagnostic) : Notes (reportAll ds) := by
  induction ds with
  | nil => exact notes_pure
  | cons d ds ih => exact notes_report.bind fun _ => ih

/-- Puts a file on the chain, and says whether it was not on it before. -/
def begins (file : Path) : Check Bool := do
  match (← get).session.begin? file with
  | none => return false
  | some session =>
    modify fun s => { s with session := session }
    return true

def finishes (file : Path) : Check Unit :=
  modify fun s => { s with session := s.session.finish file }

/-- A step of checking. It imports nothing, so that the chain does not change in between. -/
structure Step (α : Type) where
  check : Check α
  alone : Alone check
  moves {imp s a s'} (h : Runs imp check s a s') : s.session.Moves s'.session

namespace Step

def tame (m : Check α) (h : Tame m) : Step α :=
  ⟨m, h.alone, fun ran => .stays (h.keeps ran)⟩

def begins (file : Path) : Step Bool where
  check := Check.begins file
  alone := by
    refine notes_get.tame.alone.bind fun s => ?_
    cases s.session.begin? file <;> exact fun _ _ _ => rfl
  moves {imp s a s'} h := by
    simp only [Check.begins, runs_get_bind] at h
    split at h
    · obtain ⟨-, rfl⟩ := runs_pure.mp h
      exact .stays (.refl _)
    · next session begun =>
      simp only [runs_bind, runs_modify, runs_pure] at h
      obtain ⟨_, _, rfl, -, rfl⟩ := h
      exact .begins begun

def finishes (file : Path) : Step Unit where
  check := Check.finishes file
  alone _ _ _ := rfl
  moves {imp s a s'} h := by
    rw [runs_modify.mp h]
    exact .finishes file

end Step

end Check

/-- What is done one after the other, and what comes out. -/
inductive Plan (α : Type) : Type 1
  | done (a : α)
  | step {β : Type} (m : Step β) (next : β → Plan α)
  /-- An item inside is checked. -/
  | part (i : Item) (sure : i.isSure = true) (next : i.Result → Plan α)
  /-- The unit under a path that is on the chain by now is read and checked. -/
  | ask (file : Path) (typeArgs : List Ty)
      (next : Except String (Except (List Diagnostic) CheckedUnit) → Plan α)

namespace Plan

variable {α β : Type}

def bind : Plan α → (α → Plan β) → Plan β
  | done a, f => f a
  | step m next, f => step m fun b => (next b).bind f
  | part i sure next, f => part i sure fun r => (next r).bind f
  | ask file typeArgs next, f => ask file typeArgs fun r => (next r).bind f

instance : Monad Plan where
  pure := done
  bind := bind

def run : Plan α → Check α
  | done a => pure a
  | step m next => do (next (← m.check)).run
  | part i _ next => do (next (← i.check)).run
  | ask file typeArgs next => do (next (← importFrom file typeArgs)).run

def note (m : Check α) (h : Notes m) : Plan α :=
  step (.tame m h.tame) done

def change (m : Check α) (h : Tame m) : Plan α :=
  step (.tame m h) done

def begins (file : Path) : Plan Bool :=
  step (.begins file) done

def finishes (file : Path) : Plan Unit :=
  step (.finishes file) done

def imported (file : Path) (typeArgs : List Ty) :
    Plan (Except String (Except (List Diagnostic) CheckedUnit)) :=
  ask file typeArgs done

def error (e : CheckError) (token : Token) : Plan Unit :=
  note (Check.error e token) notes_error

def fail (fault : Fault) : Plan α :=
  change (throw fault) tame_throw

def check (i : Item) (sure : i.isSure = true := by rfl) : Plan i.Result :=
  part i sure done

def builtinCall (b : Builtin) (ty : Ty) (token : Token) : List Expr → Plan (List Expr × Ty)
  | [] =>
    match b with
    | .sizeof => return ([], .int 32)
    | .print | .println => return ([], .void)
    | .unreachable => do
      change (setReturns true) tame_setReturns
      return ([], (← note get notes_get).expected.getD .void)
    | .asm => do
      error (.builtinArguments "asm" "a string literal with the assembly") token
      return ([], .todo)
    | _ => fail .missingArgument
  | [e] => do
    match b with
    | .cast =>
      let e ← check (.expr e)
      return ([e], ← note (castType ty e.ty token) notes_castType)
    | .alloc =>
      let e ← check (.expr e)
      note (expectInteger e.ty token) notes_expectInteger
      return ([e], .pointer ty)
    | .free =>
      let e ← check (.expr e)
      note (expectPointer e.ty token) notes_expectPointer
      return ([e], .void)
    | .print | .println => return ([← check (.expr e)], .void)
    | .asm =>
      note (checkAssembly e token) notes_checkAssembly
      return ([← check (.expr e)], ty)
    | _ => fail .missingArgument
  | e :: e' :: es => do
    match b with
    | .realloc =>
      let e ← check (.expr e)
      let pointer ← note (resolve e.ty) notes_resolve
      note (expectPointer pointer token) notes_expectPointer
      let e' ← check (.expr e')
      note (expectInteger e'.ty token) notes_expectInteger
      return (e :: e' :: es, pointer)
    | .print | .println => return (← check (.exprs (e :: e' :: es)), .void)
    | .asm =>
      note (checkAssembly e token) notes_checkAssembly
      return (← check (.exprs (e :: e' :: es)), ty)
    | _ => fail .missingArgument

def expr : Expr → Plan Expr
  | ⟨.ident name, _, token⟩ =>
    return ⟨.ident name, ← note (identType name token) notes_identType, token⟩
  | ⟨.integer value, ty, token⟩ => return ⟨.integer value, ty, token⟩
  | ⟨.float value, ty, token⟩ => return ⟨.float value, ty, token⟩
  | ⟨.string value, ty, token⟩ => return ⟨.string value, ty, token⟩
  | ⟨.binary .dot left right, _, token⟩ => do
    match ← note (Check.moduleOf? left) notes_moduleOf? with
    | some m =>
      let (right, ty) ← note (moduleMember m right token) notes_moduleMember
      return ⟨.binary .dot ⟨left.node, .module (left.name?.getD ""), left.token⟩ right, ty, token⟩
    | none =>
      let left ← check (.expr left)
      let (right, ty) ← note (fieldAccess left.ty right token) notes_fieldAccess
      return ⟨.binary .dot left right, ty, token⟩
  | ⟨.binary .assign left right, _, token⟩ => do
    let right ← check (.expr right)
    let left ← check (.expr left)
    error .assignmentInExpression token
    return todo (.binary .assign left right) token
  | ⟨.binary op left right, _, token⟩ => do
    let left ← check (.expr left)
    let right ← check (.expr right)
    let ty ← note (binaryType op left.ty right.ty token) notes_binaryType
    return ⟨.binary op left right, ty, token⟩
  | ⟨.unary op operand, _, token⟩ => do
    let operand ← check (.expr operand)
    return ⟨.unary op operand, ← note (unaryType op operand.ty token) notes_unaryType, token⟩
  | ⟨.index base index, _, token⟩ => do
    let base ← check (.expr base)
    let index ← check (.expr index)
    return ⟨.index base index, ← note (indexType base.ty index.ty token) notes_indexType, token⟩
  | ⟨.call callee args, _, token⟩ => do
    let callee ← check (.expr callee)
    match ← note (calleeSignature callee token) notes_calleeSignature with
    | none => return todo (.call callee (← check (.exprs args))) token
    | some sig =>
      if args.length ≠ sig.params.length then
        error (.argumentCount sig.params.length args.length) token
      let args ← check (.args sig.params args)
      return ⟨.call callee args, ← note (resolveValue sig.result token) notes_resolveValue, token⟩
  | ⟨.builtin name typeArgs args, _, token⟩ => do
    match ← note (builtin? name args.length token) notes_builtin? with
    | none => return todo (.builtin name typeArgs (← check (.exprs args))) token
    | some b =>
      let typeArgs ← note (resolveTypeArgs token typeArgs) (notes_resolveTypeArgs _)
      let (args, ty) ← builtinCall b (typeArgs.headD .todo) token args
      return ⟨.builtin name typeArgs args, ty, token⟩
  | ⟨.structLit name module? fields, _, token⟩ => do
    match ← note (literalRecord name module? token) notes_literalRecord with
    | (name, none) => return todo (.structLit name module? (← check (.values fields))) token
    | (name, some decl) =>
      let fields ← check (.fields decl [] fields)
      return ⟨.structLit name module? fields, .record decl, token⟩
  | ⟨.arrayLit ty elements, _, token⟩ => do
    let ty ← note (resolveAll ty token) notes_resolveAll
    match ty with
    | .array element length =>
      if length < elements.length then
        error (.arrayLiteralTooLong length elements.length) token
      return ⟨.arrayLit ty (← check (.elements element elements)), ty, token⟩
    | _ => return ⟨.arrayLit ty (← check (.exprs elements)), ty, token⟩
  | ⟨.comma items, _, token⟩ => do
    let items ← check (.exprs items)
    error .unexpectedComma token
    return todo (.comma items) token
  | ⟨.function sig body, _, token⟩ => do
    let s ← note get notes_get
    let sig := s.resolver.resolveSignature sig
    change (modify fun s => { s with barrier := some s.env.vars.depth })
      (tame_modify fun s => .refl s.session)
    let body ← check (.function sig "<anonymous>" token body)
    change (modify fun t => { t with barrier := s.barrier }) (tame_modify fun s => .refl s.session)
    return ⟨.function sig body, .func sig, token⟩

def stmt : Stmt → Plan Stmt
  | .expression token e => return .expression token (← check (.expr e))
  | .declare token name ty value => do
    let value ← check (.expr value)
    let ty ← note (declaredType ty value.ty token) notes_declaredType
    change (declare name ty) tame_modifyEnv
    return .declare token name ty value
  | .declareAll token names ty _ value => do
    let value ← check (.list value)
    let (ty, types) ← note (declaredAll token names ty value.valueTypes) notes_declaredAll
    change (declareEach names types) (tame_declareEach _ _)
    return .declareAll token names ty types value
  | .assign token target value => do
    let value ← check (.list value)
    let target ← check (.list target)
    note (checkAssignment token target.valueTypes value.valueTypes) notes_checkAssignment
    return .assign token target value
  | .record token decl => return .record token (← change (recordDecl token decl) tame_recordDecl)
  | .function token sig body => do
    let s ← note get notes_get
    let sig := s.resolver.resolveSignature sig
    change (declare sig.name (.func sig)) tame_modifyEnv
    let body ← check (.function sig (Name.bare sig.name) token body)
    change (modifyEnv fun e =>
      { e with functions := Table.insert e.functions sig.name ⟨token, sig, body⟩ }) tame_modifyEnv
    return .function token sig body
  | .choose token ⟨condition, body⟩ more none => do
    let condition ← check (.condition token condition)
    let (body, _) ← check (.body body)
    let (more, _) ← check (.branches token more)
    change (setReturns false) tame_setReturns
    return .choose token ⟨condition, body⟩ more none
  | .choose token ⟨condition, body⟩ more (some block) => do
    let condition ← check (.condition token condition)
    let (body, first) ← check (.body body)
    let (more, all) ← check (.branches token more)
    let (block, last) ← check (.body block)
    change (setReturns (first && all && last)) tame_setReturns
    return .choose token ⟨condition, body⟩ more (some block)
  | .loop token init condition post body => do
    change enterScope tame_modifyEnv
    let init ← check (.clause init)
    let condition ← check (.guard token condition)
    let post ← check (.clause post)
    change enterLoop (tame_modify fun s => .refl s.session)
    let (body, _) ← check (.body body)
    change leaveLoop tame_leaveLoop
    change (setReturns false) tame_setReturns
    change leaveScope tame_leaveScope
    return .loop token init condition post body
  | .return token value => do
    let value ← check (.result value)
    change (checkReturn token (value.elim .void (·.ty))) tame_checkReturn
    return .return token value
  | .break token => do
    note (checkInLoop "break" token) notes_checkInLoop
    return .break token
  | .continue token => do
    note (checkInLoop "continue" token) notes_checkInLoop
    return .continue token
  | .external token sig => do
    let s ← note get notes_get
    let sig := s.resolver.resolveSignature sig
    change (declare (Name.qualify sig.name s.env.id) (.func sig)) tame_modifyEnv
    return .external token sig
  | .importUnit token name typeArgs path => do
    let typeArgs ← note (resolveTypeArgs token typeArgs) (notes_resolveTypeArgs _)
    let s ← note get notes_get
    let file := importedFile s path
    if ← begins file then
      let result ← imported file typeArgs
      finishes file
      match result with
      | .error reason => error (.importUnavailable path reason) token
      | .ok (.error ds) =>
        error (.importFailed path ds.length) token
        note (reportAll ds) (notes_reportAll ds)
      | .ok (.ok unit) =>
        change (modifyEnv fun e =>
          { e with modules := Table.insert e.modules name ⟨name, file, unit⟩ }) tame_modifyEnv
    else
      let chain := s.session.chain ++ [file]
      error (.importCycle (" -> ".intercalate (chain.map (·.text)))) token
    return .importUnit token name typeArgs path
  | .generic token name ty => return .generic token name ty

def of : (i : Item) → Plan i.Result
  | .expr e | .node e => expr e
  | .exprs [] | .args _ [] | .elements _ [] | .values [] | .fields _ _ [] => return []
  | .exprs (e :: es) => do
    let e ← check (.expr e)
    return e :: (← check (.exprs es))
  | .args params (e :: es) => do
    let e ← check (.expr e)
    match params with
    | param :: _ => note (expectEqual param e.ty e.token) notes_expectEqual
    | [] => pure ()
    return e :: (← check (.args params.tail es))
  | .elements element (e :: es) => do
    let e ← check (.expr e)
    note (expectEqual element e.ty e.token) notes_expectEqual
    return e :: (← check (.elements element es))
  | .values (⟨name, value⟩ :: fields) => do
    let value ← check (.expr value)
    return ⟨name, value⟩ :: (← check (.values fields))
  | .fields decl seen (⟨name, value⟩ :: fields) => do
    if seen.contains name then error (.duplicateField name) value.token
    let value ← check (.expr value)
    note (checkField decl name value) notes_checkField
    return ⟨name, value⟩ :: (← check (.fields decl (name :: seen) fields))
  | .builtin b ty token es => builtinCall b ty token es
  | .list ⟨.comma items, _, token⟩ => return ⟨.comma (← check (.exprs items)), .void, token⟩
  | .list e => check (.expr e)
  | .condition token e => do
    let e ← check (.expr e)
    note (checkCondition e.ty token) notes_checkCondition
    return e
  | .guard token (some e) => return some (← check (.condition token e))
  | .guard _ none | .result none | .clause none => return none
  | .result (some e) => return some (← check (.expr e))
  | .body xs => do
    change enterBranch tame_enterBranch
    let xs ← check (.stmts xs)
    return (xs, ← change leaveBranch tame_leaveBranch)
  | .function sig name token xs => do
    let around ← change (enterFunction sig) tame_enterFunction
    let xs ← check (.stmts xs)
    change (leaveFunction around sig name token) tame_leaveFunction
    return xs
  | .stmt x => stmt x
  | .clause (some x) => return some (← check (.stmt x))
  | .stmts [] | .top [] => return []
  | .stmts (x :: xs) => do
    if (← note get notes_get).returns then return x :: xs
    let x ← check (.stmt x)
    return x :: (← check (.stmts xs))
  | .branches _ [] => return ([], true)
  | .branches token (⟨condition, body⟩ :: more) => do
    let condition ← check (.condition token condition)
    let (body, first) ← check (.body body)
    let (more, all) ← check (.branches token more)
    return (⟨condition, body⟩ :: more, first && all)
  | .top (x :: xs) => do
    let x ← check (.stmt x)
    return x :: (← check (.top xs))

theorem expr_function {sig : Signature} {body : List Stmt} {t : Ty} {token : Token} :
    Check.expr ⟨.function sig body, t, token⟩ = do
      let s ← get
      let sig := s.resolver.resolveSignature sig
      modify fun s => { s with barrier := some s.env.vars.depth }
      let body ← (Item.function sig "<anonymous>" token body).check
      modify fun t => { t with barrier := s.barrier }
      return ⟨.function sig body, .func sig, token⟩ := by
  simp only [Item.check, bind_assoc, pure_bind]
  rfl

theorem stmt_function {token : Token} {sig : Signature} {body : List Stmt} :
    Check.stmt (.function token sig body) = do
      let s ← get
      let sig := s.resolver.resolveSignature sig
      declare sig.name (.func sig)
      let body ← (Item.function sig (Name.bare sig.name) token body).check
      modifyEnv fun e =>
        { e with functions := Table.insert e.functions sig.name ⟨token, sig, body⟩ }
      return .function token sig body := by
  simp only [Item.check, bind_assoc, pure_bind]
  rfl

theorem begins_bind {file : Path} {k : Bool → Check α} :
    Check.begins file >>= k = (do match (← get).session.begin? file with
      | none => k false
      | some session =>
        modify fun s => { s with session := session }
        k true) := by
  simp only [Check.begins, bind_assoc]
  refine bind_congr fun s => ?_
  cases s.session.begin? file <;> rfl

theorem importUnit_eq {token : Token} {name : String} {typeArgs : List Ty} {path : String} :
    importUnit token name typeArgs path = (do
      let s ← get
      let file := importedFile s path
      if ← Check.begins file then
        let result ← importFrom file typeArgs
        Check.finishes file
        match result with
        | .error reason => Check.error (.importUnavailable path reason) token
        | .ok (.error ds) =>
          Check.error (.importFailed path ds.length) token
          reportAll ds
        | .ok (.ok unit) =>
          modifyEnv fun e => { e with modules := Table.insert e.modules name ⟨name, file, unit⟩ }
      else
        let chain := s.session.chain ++ [file]
        Check.error (.importCycle (" -> ".intercalate (chain.map (·.text)))) token) := by
  simp only [begins_bind]
  -- On the right the state is looked at twice, with nothing in between.
  funext imp s
  change (match s.session.begin? (importedFile s path) with
    | none => _
    | some session => _ : Check Unit) imp s =
    (match s.session.begin? (importedFile s path) with
    | none => _
    | some session => _ : Check Unit) imp s
  cases s.session.begin? (importedFile s path) <;> rfl

theorem run_builtinCall (b : Builtin) (ty : Ty) (token : Token) (es : List Expr) :
    (builtinCall b ty token es).run = Check.builtinCall b ty token es := by
  obtain _ | ⟨e, _ | ⟨e', es⟩⟩ := es
  case cons.cons =>
    cases b with
    | print =>
      rw [builtinCall_print (.inl rfl)]
      rfl
    | println =>
      rw [builtinCall_print (.inr rfl)]
      rfl
    | asm =>
      rw [builtinCall_asm]
      rfl
    | _ => rfl
  all_goals cases b <;> rfl

theorem run_bind (p : Plan α) (f : α → Plan β) : (p >>= f).run = p.run >>= fun a => (f a).run := by
  change (p.bind f).run = _
  induction p with
  | done a => simp [bind, run]
  | step m next ih => simp [bind, run, ih]
  | part i sure next ih => simp [bind, run, ih]
  | ask file typeArgs next ih => simp [bind, run, ih]

theorem run_expr (e : Expr) : (expr e).run = Check.expr e := by
  obtain ⟨node, t, token⟩ := e
  cases node with
  | ident name => rfl
  | integer value => rfl
  | float value => rfl
  | string value => rfl
  | binary op left right =>
    cases op
    case dot =>
      refine bind_congr fun m => ?_
      cases m <;> rfl
    all_goals rfl
  | unary op operand => rfl
  | index base index => rfl
  | call callee args =>
    refine bind_congr fun callee => bind_congr fun sig? => ?_
    cases sig? with
    | none => rfl
    | some sig => exact apply_ite run _ _ _
  | builtin name typeArgs args =>
    refine bind_congr fun b => ?_
    cases b with
    | none => rfl
    | some b =>
      refine bind_congr fun typeArgs => ?_
      refine (run_bind (builtinCall b (typeArgs.headD .todo) token args) _).trans ?_
      rw [run_builtinCall]
      rfl
  | structLit name module? fields =>
    refine bind_congr fun struct => ?_
    obtain ⟨name, _ | decl⟩ := struct <;> rfl
  | arrayLit ty elements =>
    refine bind_congr fun ty => ?_
    cases ty
    case array element length => exact apply_ite run _ _ _
    all_goals rfl
  | comma items => rfl
  | function sig body =>
    rw [expr_function]
    rfl

theorem run_stmt (x : Stmt) : (stmt x).run = Check.stmt x := by
  cases x with
  | expression token e => rfl
  | declare token name ty value => rfl
  | declareAll token names ty types value =>
    rw [stmt_declareAll]
    rfl
  | assign token target value =>
    rw [stmt_assign]
    rfl
  | record token decl => rfl
  | function token sig body =>
    rw [stmt_function]
    rfl
  | choose token first more otherwise =>
    obtain ⟨condition, body⟩ := first
    cases otherwise with
    | none =>
      rw [stmt_choose]
      rfl
    | some block =>
      rw [stmt_chooseElse]
      rfl
  | loop token init condition post body =>
    rw [stmt_loop]
    rfl
  | «return» token value =>
    rw [stmt_return]
    rfl
  | «break» token => rfl
  | «continue» token => rfl
  | external token sig => rfl
  | importUnit token name typeArgs path =>
    refine bind_congr fun typeArgs => ?_
    rw [importUnit_eq, bind_assoc]
    refine bind_congr fun s => ?_
    dsimp only
    rw [bind_assoc]
    refine bind_congr fun new => ?_
    cases new with
    | false => rfl
    | true =>
      simp only [if_true, bind_assoc]
      refine bind_congr fun result => bind_congr fun _ => ?_
      match result with
      | .error reason => rfl
      | .ok (.error ds) =>
        simp only [bind_assoc]
        rfl
      | .ok (.ok unit) => rfl
  | generic token name ty => rfl

theorem run_of (i : Item) : (of i).run = i.check := by
  match i with
  | .expr e | .node e => exact run_expr e
  | .exprs [] | .args _ [] | .elements _ [] | .values [] | .fields _ _ [] => rfl
  | .exprs (e :: es) => rfl
  | .args (param :: params) (e :: es) => rfl
  | .args [] (e :: es) => rfl
  | .elements element (e :: es) => rfl
  | .values (⟨name, value⟩ :: fields) => rfl
  | .fields decl seen (⟨name, value⟩ :: fields) => exact apply_ite run _ _ _
  | .builtin b ty token es => exact run_builtinCall b ty token es
  | .list e =>
    obtain ⟨node, t, token⟩ := e
    cases node
    case comma items => rfl
    all_goals exact bind_pure _
  | .condition token e => rfl
  | .guard token (some e) =>
    have guarded : (Item.guard token (some e)).check =
        (Item.condition token e).check >>= fun e => pure (some e) := by
      simp only [Item.check, bind_assoc, pure_bind]
    exact guarded.symm
  | .guard _ none | .result none | .clause none => rfl
  | .result (some e) => rfl
  | .body xs => rfl
  | .function sig name token xs => rfl
  | .stmt x => exact run_stmt x
  | .clause (some x) => rfl
  | .stmts [] | .top [] => rfl
  | .stmts (x :: xs) => exact bind_congr fun s => apply_ite run _ _ _
  | .branches _ [] => rfl
  | .branches token (⟨condition, body⟩ :: more) => exact branches_cons.symm
  | .top (x :: xs) => rfl

end Plan

end FrontEnd
