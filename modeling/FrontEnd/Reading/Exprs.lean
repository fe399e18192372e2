import FrontEnd.Reading.Types
import FrontEnd.Syntax.Builtin
import FrontEnd.Syntax.Power

namespace FrontEnd

/-- The readers for the expressions and statements inside the one that is being read. -/
structure Nested where
  expr : Power → Parse Expr
  stmt : Parse Stmt

namespace Parse

/-- Records that no expression begins here, and goes on after the token as if a literal stood
there. -/
def unknownExpr : Parse Expr := do
  let token ← current
  let e : ParseError :=
    if token.kind = .illegal then .unrecognisedToken token.value else .unknownPrefix token.text
  record ⟨.parse e, token.start⟩
  let _ ← advance
  return ⟨.integer 1, .int 32, token⟩

def literal : Parse Expr := do
  let token ← advance
  match token.kind with
  | .float => return ⟨.float (Literal.float token), .float 64, token⟩
  | .string => return ⟨.string token.value, .pointer (.int 8), token⟩
  | .kwTrue => return ⟨.integer 1, .bool, token⟩
  | .kwFalse => return ⟨.integer 0, .bool, token⟩
  | .identifier => return .untyped (.ident (← qualify token.value)) token
  | _ =>
    match Literal.integer? token with
    | some n => return ⟨.integer n, .int 32, token⟩
    | none => failAt (.numberParseError token.value) token.start

def builtinTypes (name : String) (expected : Nat) : Nat → Parse (List Ty)
  | 0 => return []
  | n + 1 => do
    let token ← current
    if token.kind = .closeParen then
      failAt (.missingTypeArguments name expected) token.start
    let ty ← type
    if (← kind) = .comma then
      let _ ← advance
    return ty :: (← builtinTypes name expected n)

end Parse

namespace Nested

open Parse

def arguments (g : Nested) (closing : Kind) : Parse (List Expr) := do
  let item : Parse Expr := do
    if ← hasTokens then g.expr .comma else unexpected closing.name
  return (← commaList closing item).1

/-- Statements up to the kind, which is not taken, or the end of the file. A statement that fails
is recorded, and reading goes on at least one token after its start. -/
def statements (g : Nested) (closing : Kind) : Parse (List Stmt) := do
  skipSemicolons
  loop (fun stmts => do
    let r ← get
    if r.kind = .eof ∨ r.kind = closing ∨ r.isSaturated then
      return .inr stmts.reverse
    match ← attempt g.stmt with
    | .ok stmt =>
      skipSemicolons
      return .inl (stmt :: stmts)
    | .error d =>
      record d
      if (← current).start.offset = r.current.start.offset then
        let _ ← advance
      skipSemicolons
      return .inl stmts) []

def block (g : Nested) : Parse (List Stmt) := do
  let _ ← expect .openCurly
  let stmts ← g.statements .closeCurly
  let _ ← expect .closeCurly
  return stmts

def fieldInit (g : Nested) : Parse FieldInit := do
  let name ← expect .identifier
  let _ ← expect .colon
  return ⟨name.value, ← g.expr .comma⟩

def structLit (g : Nested) (name : Token) : Parse Expr := do
  let _ ← expect .openCurly
  let fields ← loop (fun fields => do
    if (← kind) = .closeCurly then
      return .inr fields.reverse
    let field ← g.fieldInit
    match ← kind with
    | .comma | .semicolon =>
      let _ ← advance
    | .closeCurly => pure ()
    | _ => unexpected Kind.closeCurly.name
    return .inl (field :: fields)) []
  let _ ← expect .closeCurly
  return .untyped (.structLit (← qualify name.value) none fields) name

def builtinCall (g : Nested) (token name : Token) : Parse Expr := do
  match Builtin.ofName? name.value with
  | none => failAt (.unknownBuiltin name.value) name.start
  | some b =>
    let _ ← expect .openParen
    let typeArgs ← builtinTypes name.value b.typeArgs b.typeArgs
    let args ← g.arguments .closeParen
    return .untyped (.builtin name.value typeArgs args) token

def atExpr (g : Nested) : Parse Expr := do
  let token ← advance
  let name ← expect .identifier
  if (← kind) = .openCurly then g.structLit name else g.builtinCall token name

def arrayLit (g : Nested) : Parse Expr := do
  let token ← current
  let ty ← type
  let _ ← expect .openCurly
  let elements ← g.arguments .closeCurly
  return ⟨.arrayLit ty elements, ty, token⟩

def functionLit (g : Nested) : Parse Expr := do
  let token ← expect .kwFunc
  let (ps, _) ← params
  let result ← resultBeforeBody
  let body ← g.block
  return .untyped (.function (signatureOf "" ps result) body) token

def first (g : Nested) : Parse Expr := do
  match (← kind).prefixForm? with
  | none => unknownExpr
  | some .literal => literal
  | some (.operator op) =>
    let token ← advance
    return .untyped (.unary op (← g.expr .unary)) token
  | some .group =>
    let _ ← advance
    let e ← g.expr .default
    let _ ← expect .closeParen
    return e
  | some .at => g.atExpr
  | some .array => g.arrayLit
  | some .function => g.functionLit

def memberOf (left : Expr) (operator : Token) (member : Expr) : Expr :=
  match left.node, member.node with
  | .ident module, .structLit name _ fields =>
    ⟨.structLit name (some module) fields, member.ty, member.token⟩
  | _, _ => .untyped (.binary .dot left member) operator

def extend (g : Nested) (left : Expr) : InfixForm → Parse Expr
  | .operator op => do
    let token ← advance
    return .untyped (.binary op left (← g.expr op.power)) token
  | .comma => do
    let items ← loop (fun items => do
      if (← kind) = .comma then
        let _ ← advance
        return .inl ((← g.expr .comma) :: items)
      else return .inr items.reverse) [left]
    return .untyped (.comma items) left.token
  | .cast => do
    let token ← advance
    return .untyped (.builtin "cast" [← type] [left]) token
  | .call => do
    let token ← advance
    return .untyped (.call left (← g.arguments .closeParen)) token
  | .index => do
    let token ← advance
    let index ← g.expr .default
    let _ ← expect .closeBracket
    return .untyped (.index left index) token
  | .member => do
    let token ← advance
    return memberOf left token (← g.expr .member)

def expression (g : Nested) (power : Power) : Parse Expr := do
  let left ← g.first
  loop (fun left => do
    match (← kind).infixForm? with
    | some form =>
      if power < form.power then return .inl (← g.extend left form) else return .inr left
    | none => return .inr left) left

end Nested

end FrontEnd
