import FrontEnd.Checking.Imports
import FrontEnd.Checking.Records

namespace FrontEnd.Check

def todo (node : Node) (token : Token) : Expr :=
  ⟨node, .todo, token⟩

mutual

def expr : Expr → Check Expr
  | ⟨.ident name, _, token⟩ => return ⟨.ident name, ← identType name token, token⟩
  | ⟨.integer value, ty, token⟩ => return ⟨.integer value, ty, token⟩
  | ⟨.float value, ty, token⟩ => return ⟨.float value, ty, token⟩
  | ⟨.string value, ty, token⟩ => return ⟨.string value, ty, token⟩
  | ⟨.binary .dot left right, _, token⟩ => do
    match ← moduleOf? left with
    | some m =>
      let (right, ty) ← moduleMember m right token
      return ⟨.binary .dot ⟨left.node, .module (left.name?.getD ""), left.token⟩ right, ty, token⟩
    | none =>
      let left ← expr left
      let (right, ty) ← fieldAccess left.ty right token
      return ⟨.binary .dot left right, ty, token⟩
  | ⟨.binary .assign left right, _, token⟩ => do
    let right ← expr right
    let left ← expr left
    error .assignmentInExpression token
    return todo (.binary .assign left right) token
  | ⟨.binary op left right, _, token⟩ => do
    let left ← expr left
    let right ← expr right
    return ⟨.binary op left right, ← binaryType op left.ty right.ty token, token⟩
  | ⟨.unary op operand, _, token⟩ => do
    let operand ← expr operand
    return ⟨.unary op operand, ← unaryType op operand.ty token, token⟩
  | ⟨.index base index, _, token⟩ => do
    let base ← expr base
    let index ← expr index
    return ⟨.index base index, ← indexType base.ty index.ty token, token⟩
  | ⟨.call callee args, _, token⟩ => do
    let callee ← expr callee
    match ← calleeSignature callee token with
    | none => return todo (.call callee (← exprs args)) token
    | some sig =>
      if args.length ≠ sig.params.length then
        error (.argumentCount sig.params.length args.length) token
      let args ← exprsAgainst sig.params args
      return ⟨.call callee args, ← resolveValue sig.result token, token⟩
  | ⟨.builtin name typeArgs args, _, token⟩ => do
    match ← builtin? name args.length token with
    | none => return todo (.builtin name typeArgs (← exprs args)) token
    | some b =>
      let typeArgs ← resolveTypeArgs token typeArgs
      let (args, ty) ← builtinCall b (typeArgs.headD .todo) token args
      return ⟨.builtin name typeArgs args, ty, token⟩
  | ⟨.structLit name module? fields, _, token⟩ => do
    match ← literalRecord name module? token with
    | (name, none) => return todo (.structLit name module? (← fieldValues fields)) token
    | (name, some decl) =>
      let fields ← fieldsAgainst decl [] fields
      return ⟨.structLit name module? fields, .record decl, token⟩
  | ⟨.arrayLit ty elements, _, token⟩ => do
    let ty ← resolveAll ty token
    match ty with
    | .array element length =>
      if length < elements.length then
        error (.arrayLiteralTooLong length elements.length) token
      return ⟨.arrayLit ty (← elementsAgainst element elements), ty, token⟩
    | _ => return ⟨.arrayLit ty (← exprs elements), ty, token⟩
  | ⟨.comma items, _, token⟩ => do
    let items ← exprs items
    error .unexpectedComma token
    return todo (.comma items) token
  | ⟨.function sig body, _, token⟩ => do
    let sig ← resolveSignature sig
    let barrier := (← get).barrier
    modify fun s => { s with barrier := some s.env.vars.depth }
    let around ← enterFunction sig
    let body ← stmts body
    leaveFunction around sig "<anonymous>" token
    modify fun s => { s with barrier := barrier }
    return ⟨.function sig body, .func sig, token⟩

def exprs : List Expr → Check (List Expr)
  | [] => return []
  | e :: es => do
    let e ← expr e
    return e :: (← exprs es)

def exprsAgainst (params : List Ty) : List Expr → Check (List Expr)
  | [] => return []
  | e :: es => do
    let e ← expr e
    match params with
    | param :: _ => expectEqual param e.ty e.token
    | [] => pure ()
    return e :: (← exprsAgainst params.tail es)

def elementsAgainst (element : Ty) : List Expr → Check (List Expr)
  | [] => return []
  | e :: es => do
    let e ← expr e
    expectEqual element e.ty e.token
    return e :: (← elementsAgainst element es)

def fieldValues : List FieldInit → Check (List FieldInit)
  | [] => return []
  | ⟨name, value⟩ :: fields => do
    let value ← expr value
    return ⟨name, value⟩ :: (← fieldValues fields)

def fieldsAgainst (decl : Record) (seen : List String) :
    List FieldInit → Check (List FieldInit)
  | [] => return []
  | ⟨name, value⟩ :: fields => do
    if seen.contains name then error (.duplicateField name) value.token
    let value ← expr value
    checkField decl name value
    return ⟨name, value⟩ :: (← fieldsAgainst decl (name :: seen) fields)

def builtinCall (b : Builtin) (ty : Ty) (token : Token) : List Expr → Check (List Expr × Ty)
  | [] =>
    match b with
    | .sizeof => return ([], .int 32)
    | .print | .println => return ([], .void)
    | .unreachable => do
      setReturns true
      return ([], (← get).expected.getD .void)
    | .asm => do
      error (.builtinArguments "asm" "a string literal with the assembly") token
      return ([], .todo)
    | _ => throw .missingArgument
  | [e] => do
    match b with
    | .cast =>
      let e ← expr e
      return ([e], ← castType ty e.ty token)
    | .alloc =>
      let e ← expr e
      expectInteger e.ty token
      return ([e], .pointer ty)
    | .free =>
      let e ← expr e
      expectPointer e.ty token
      return ([e], .void)
    | .print | .println => return ([← expr e], .void)
    | .asm =>
      checkAssembly e token
      return ([← expr e], ty)
    | _ => throw .missingArgument
  | e :: e' :: es => do
    match b with
    | .realloc =>
      let e ← expr e
      let pointer ← resolve e.ty
      expectPointer pointer token
      let e' ← expr e'
      expectInteger e'.ty token
      return (e :: e' :: es, pointer)
    | .print | .println =>
      let e ← expr e
      let e' ← expr e'
      return (e :: e' :: (← exprs es), .void)
    | .asm =>
      checkAssembly e token
      let e ← expr e
      let e' ← expr e'
      return (e :: e' :: (← exprs es), ty)
    | _ => throw .missingArgument

def stmt : Stmt → Check Stmt
  | .expression token e => return .expression token (← expr e)
  | .declare token name ty value => do
    let value ← expr value
    let ty ← declaredType ty value.ty token
    declare name ty
    return .declare token name ty value
  | .declareAll token names ty _ value => do
    let value ← match value with
      | ⟨.comma items, _, t⟩ => do pure ⟨.comma (← exprs items), .void, t⟩
      | e => expr e
    let (ty, types) ← declaredAll token names ty value.valueTypes
    -- All values are known before any name is bound.
    declareEach names types
    return .declareAll token names ty types value
  | .assign token target value => do
    let value ← match value with
      | ⟨.comma items, _, t⟩ => do pure ⟨.comma (← exprs items), .void, t⟩
      | e => expr e
    let target ← match target with
      | ⟨.comma items, _, t⟩ => do pure ⟨.comma (← exprs items), .void, t⟩
      | e => expr e
    checkAssignment token target.valueTypes value.valueTypes
    return .assign token target value
  | .record token decl => return .record token (← recordDecl token decl)
  | .function token sig body => do
    let sig ← resolveSignature sig
    declare sig.name (.func sig)
    let around ← enterFunction sig
    let body ← stmts body
    leaveFunction around sig (Name.bare sig.name) token
    modifyEnv fun e =>
      { e with functions := Table.insert e.functions sig.name ⟨token, sig, body⟩ }
    return .function token sig body
  | .choose token ⟨condition, body⟩ more otherwise => do
    let condition ← expr condition
    checkCondition condition.ty token
    enterBranch
    let body ← stmts body
    let first ← leaveBranch
    let (more, all) ← branches token more
    match otherwise with
    | none =>
      setReturns false
      return .choose token ⟨condition, body⟩ more none
    | some block =>
      enterBranch
      let block ← stmts block
      let last ← leaveBranch
      setReturns (first && all && last)
      return .choose token ⟨condition, body⟩ more (some block)
  | .loop token init condition post body => do
    enterScope
    let init ← match init with
      | some s => do pure (some (← stmt s))
      | none => pure none
    let condition ← match condition with
      | some e => do
        let e ← expr e
        checkCondition e.ty token
        pure (some e)
      | none => pure none
    let post ← match post with
      | some s => do pure (some (← stmt s))
      | none => pure none
    enterLoop
    enterBranch
    let body ← stmts body
    let _ ← leaveBranch
    leaveLoop
    setReturns false
    leaveScope
    return .loop token init condition post body
  | .return token value => do
    let value ← match value with
      | some e => do pure (some (← expr e))
      | none => pure none
    checkReturn token (value.elim .void (·.ty))
    return .return token value
  | .break token => do
    checkInLoop "break" token
    return .break token
  | .continue token => do
    checkInLoop "continue" token
    return .continue token
  | .external token sig => do
    let sig ← resolveSignature sig
    declare (Name.qualify sig.name (← get).env.id) (.func sig)
    return .external token sig
  | .importUnit token name typeArgs path => do
    let typeArgs ← resolveTypeArgs token typeArgs
    importUnit token name typeArgs path
    return .importUnit token name typeArgs path
  | .generic token name ty => return .generic token name ty

def branches (token : Token) : List Branch → Check (List Branch × Bool)
  | [] => return ([], true)
  | ⟨condition, body⟩ :: more => do
    let condition ← expr condition
    checkCondition condition.ty token
    enterBranch
    let body ← stmts body
    let first ← leaveBranch
    let (more, all) ← branches token more
    return (⟨condition, body⟩ :: more, first && all)

/-- Statements in order. Nothing that follows a return on every path is checked. -/
def stmts : List Stmt → Check (List Stmt)
  | [] => return []
  | s :: ss => do
    if (← get).returns then return s :: ss
    let s ← stmt s
    return s :: (← stmts ss)

end

def topLevel : List Stmt → Check (List Stmt)
  | [] => return []
  | s :: ss => do
    let s ← stmt s
    return s :: (← topLevel ss)

def program (p : Program) : Check Program :=
  return ⟨p.id, ← topLevel p.statements⟩

end FrontEnd.Check
