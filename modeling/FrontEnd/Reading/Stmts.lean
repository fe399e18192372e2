import FrontEnd.Reading.Exprs

namespace FrontEnd

mutual

def Expr.isAssignable : Expr → Bool
  | ⟨.ident _, _, _⟩ => true
  | ⟨.index _ _, _, _⟩ => true
  | ⟨.binary .dot _ _, _, _⟩ => true
  | ⟨.unary .dereference _, _, _⟩ => true
  | ⟨.comma items, _, _⟩ => Expr.areAssignable items
  | _ => false

def Expr.areAssignable : List Expr → Bool
  | [] => true
  | e :: es => e.isAssignable && Expr.areAssignable es

end

namespace Parse

def statementOf (token : Token) (e : Expr) : Parse Stmt :=
  match e.node with
  | .binary .assign target value =>
    if target.isAssignable then return .assign token target value
    else failAt .invalidAssignment e.token.start
  | _ => return .expression token e

def declaredType : Parse Ty := do
  if (← kind) = .assignment then return .todo else type

def declaredNames : List Expr → Parse (List String)
  | [] => return []
  | e :: es =>
    match e.node with
    | .ident name => return name :: (← declaredNames es)
    | _ => failAt .invalidAssignment e.token.start

def fields : Parse (List Field) := do
  let _ ← expect .openCurly
  let fields ← loop (fun fields => do
    if (← kind) = .closeCurly then
      return .inr fields.reverse
    let name ← expect .identifier
    let ty ← type
    skip [.comma, .semicolon]
    return .inl (⟨name.value, ty⟩ :: fields)) []
  let _ ← expect .closeCurly
  return fields

def recordDecl (k : RecordKind) : Parse Stmt := do
  let token ← advance
  let name ← expect .identifier
  let fields ← fields
  return .record token ⟨k, ← qualify name.value, fields, ← freshId⟩

/-- `extern func name(a T) R`. The name is not qualified: it belongs to no unit. -/
def externalDecl : Parse Stmt := do
  let token ← advance
  let _ ← expect .kwFunc
  let name ← expect .identifier
  let (ps, close) ← params
  let result ← resultAfter type close
  return .external token (signatureOf name.value ps result)

def importDecl : Parse Stmt := do
  let token ← advance
  let name ← expect .identifier
  let typeArgs ← loop (fun types => do
    let _ ← expect .comma
    if (← kind) = .string then return .inr types.reverse
    return .inl ((← type) :: types)) []
  let path ← expect .string
  return .importUnit token (← qualify name.value) typeArgs path.value

def genericDecl : Parse Stmt := do
  let token ← advance
  let name ← expect .identifier
  let ty ← match ← nextTypeArg with
    | some ty => pure ty
    | none => do
      record ⟨.parse (.missingGenericArgument name.value), name.start⟩
      pure .todo
  defineGeneric name.value ty
  return .generic token name.value ty

end Parse

namespace Nested

open Parse

def declaration (g : Nested) : Parse Stmt := do
  let token ← expect .identifier
  let _ ← expect .colon
  let ty ← declaredType
  let _ ← expect .assignment
  let value ← g.expr .default
  return .declare token (← qualify token.value) ty value

/-- `: T = x, y` after the names. They are looked at last, so that a wrong one does not leave the
rest of the statement behind. -/
def declareAll (g : Nested) (token : Token) (items : List Expr) : Parse Stmt := do
  let _ ← expect .colon
  let ty ← declaredType
  let _ ← expect .assignment
  let value ← g.expr .default
  let names ← declaredNames items
  return .declareAll token names ty (names.map fun _ => ty) value

def body (g : Nested) : Parse (List Stmt) := do
  if (← kind) = .openCurly then g.block else return [← g.stmt]

def branch (g : Nested) : Parse Branch := do
  let condition ← g.expr .default
  return ⟨condition, ← g.body⟩

def choose (g : Nested) : Parse Stmt := do
  let token ← advance
  let first ← g.branch
  let (more, otherwise) ← loop (fun more => do
    if (← kind) ≠ .kwElse then
      return .inr (more.reverse, none)
    let _ ← advance
    if (← kind) ≠ .kwIf then
      return .inr (more.reverse, some (← g.body))
    let _ ← advance
    return .inl ((← g.branch) :: more)) []
  return .choose token first more otherwise

def loopCondition (g : Nested) : Parse (Option Expr) := do
  if (← kind) = .semicolon then return none else return some (← g.expr .default)

def loopPost (g : Nested) : Parse (Option Stmt) := do
  if (← kind) ≠ .semicolon then return none
  let _ ← advance
  if (← kind) = .openCurly then return none else return some (← g.stmt)

def loopClauses (g : Nested) (token : Token) (init : Stmt) : Parse Stmt := do
  let _ ← advance
  let condition ← g.loopCondition
  let post ← g.loopPost
  skipSemicolons
  return .loop token (some init) condition post (← g.block)

/-- `for { ... }`, `for cond { ... }`, `for init; cond; post { ... }` or `for stmt`, told apart by
what follows the first statement. -/
def loopStmt (g : Nested) : Parse Stmt := do
  let token ← advance
  if (← kind) = .openCurly then
    return .loop token none none none (← g.block)
  let first ← g.stmt
  match ← kind with
  | .openCurly =>
    match first with
    | .expression _ condition => return .loop token none (some condition) none (← g.block)
    | _ => unexpected Kind.semicolon.name
  | .semicolon => g.loopClauses token first
  | _ => return .loop token none none none [first]

def functionDecl (g : Nested) : Parse Stmt := do
  let token ← advance
  let name ← expect .identifier
  let (ps, _) ← params
  let result ← resultBeforeBody
  let body ← g.block
  return .function token (signatureOf (← qualify name.value) ps result) body

def returnStmt (g : Nested) : Parse Stmt := do
  let token ← advance
  match ← kind with
  | .semicolon | .closeCurly | .eof => return .return token none
  | _ => return .return token (some (← g.expr .default))

def exprStmt (g : Nested) : Parse Stmt := do
  let token ← current
  let e ← g.expr .default
  match e.node, ← kind with
  | .comma items, .colon => g.declareAll e.token items
  | _, _ => statementOf token e

/-- A statement. A function without a name is not a declaration, but begins an expression. -/
def statement (g : Nested) : Parse Stmt := do
  let r ← get
  let form? := if r.kind = .kwFunc ∧ r.peek.kind = .openParen then none else r.kind.stmtForm?
  match form? with
  | some .choose => g.choose
  | some .loop => g.loopStmt
  | some (.record k) => recordDecl k
  | some .function => g.functionDecl
  | some .return => g.returnStmt
  | some .importUnit => importDecl
  | some .break => return .break (← advance)
  | some .continue => return .continue (← advance)
  | some .external => externalDecl
  | some .generic => genericDecl
  | none =>
    if r.kind = .identifier ∧ r.peek.kind = .colon then g.declaration else g.exprStmt

def within : Nat → Nested
  | 0 => ⟨fun _ => unexpected "expression", unexpected "statement"⟩
  | n + 1 =>
    ⟨fun power => ExceptT.mk fun r => ((within n).expression power).run r,
     ExceptT.mk fun r => (within n).statement.run r⟩

end Nested

namespace Parse

/-- The readers for all that the tokens left can hold: a statement may begin with an expression,
and otherwise what is nested begins after a token of what is around it. -/
def nested : Parse Nested :=
  return Nested.within (2 * (← get).tokens.length + 2)

def expression (power : Power) : Parse Expr := do
  (← nested).expr power

def statement : Parse Stmt := do
  (← nested).stmt

def block : Parse (List Stmt) := do
  (← nested).block

def statements (closing : Kind) : Parse (List Stmt) := do
  (← nested).statements closing

/-- Reads all statements. When the errors reach their limit before the end, that is the last
error. -/
def program : Parse Program := do
  let stmts ← statements .eof
  modify fun r =>
    if r.isSaturated ∧ r.hasTokens then
      { r with errors :=
          r.errors ++ [⟨.parse (.tooManyErrors r.errors.length), r.current.start⟩] }
    else r
  return ⟨(← get).unit, stmts⟩

end Parse

structure ReadResult where
  program : Program
  errors : List Diagnostic
  nextId : Nat

def Program.read (c : Cursor) (o : ReadOptions) : ReadResult :=
  match Parse.program.run (Reader.ofCursor c o) with
  | (.ok p, r) => ⟨p, r.errors, r.nextId⟩
  | (.error d, r) => ⟨⟨o.unit, []⟩, r.errors ++ [d], r.nextId⟩

/-- All tokens of a text, or the first that is illegal. -/
def tokenize (c : Cursor) : Except Diagnostic (List Token) :=
  match c.tokens.find? fun t => t.kind = .illegal with
  | some t => .error ⟨.parse (.unrecognisedToken t.value), t.start⟩
  | none => .ok c.tokens

end FrontEnd
