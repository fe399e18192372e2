import FrontEnd.Number.Double
import FrontEnd.Syntax.Operator
import FrontEnd.Ty.Basic

namespace FrontEnd

mutual

structure Expr where
  node : Node
  ty : Ty
  token : Token

inductive Node where
  | ident (name : String)
  | integer (value : Nat)
  | float (value : Double)
  | string (value : String)
  | binary (op : InfixOp) (left right : Expr)
  | unary (op : PrefixOp) (operand : Expr)
  | index (base index : Expr)
  | call (callee : Expr) (args : List Expr)
  | builtin (name : String) (typeArgs : List Ty) (args : List Expr)
  | structLit (name : String) (module? : Option String) (fields : List FieldInit)
  | arrayLit (ty : Ty) (elements : List Expr)
  | comma (items : List Expr)
  | function (sig : Signature) (body : List Stmt)

structure FieldInit where
  name : String
  value : Expr

structure Branch where
  condition : Expr
  body : List Stmt

inductive Stmt where
  | expression (token : Token) (expr : Expr)
  /-- `name : T = value`, or `name := value` when the type is `todo`. -/
  | declare (token : Token) (name : String) (ty : Ty) (value : Expr)
  /-- `a, b : T = x, y`. Besides the type as written there is one type for each name. -/
  | declareAll (token : Token) (names : List String) (ty : Ty) (types : List Ty) (value : Expr)
  | assign (token : Token) (target value : Expr)
  | record (token : Token) (decl : Record)
  | function (token : Token) (sig : Signature) (body : List Stmt)
  | choose (token : Token) (first : Branch) (more : List Branch) (otherwise : Option (List Stmt))
  | loop (token : Token) (init : Option Stmt) (condition : Option Expr) (post : Option Stmt)
    (body : List Stmt)
  | return (token : Token) (value : Option Expr)
  | break (token : Token)
  | continue (token : Token)
  | external (token : Token) (sig : Signature)
  | importUnit (token : Token) (name : String) (typeArgs : List Ty) (path : String)
  /-- `type T` names the next type that the importer of the unit gives. -/
  | generic (token : Token) (name : String) (ty : Ty)

end

namespace Expr

def untyped (node : Node) (token : Token) : Expr :=
  ⟨node, .todo, token⟩

def name? (e : Expr) : Option String :=
  match e.node with
  | .ident name => some name
  | _ => none

end Expr

def Stmt.token : Stmt → Token
  | .expression token _ | .declare token _ _ _ | .declareAll token _ _ _ _ | .assign token _ _
  | .record token _ | .function token _ _ | .choose token _ _ _ | .loop token _ _ _ _
  | .return token _ | .break token | .continue token | .external token _
  | .importUnit token _ _ _ | .generic token _ _ => token

structure Program where
  id : String
  statements : List Stmt

end FrontEnd
