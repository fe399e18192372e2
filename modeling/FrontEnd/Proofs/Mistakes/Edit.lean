import FrontEnd.Proofs.Checking.Derivation

namespace FrontEnd

mutual

/-- The tokens of the identifiers that are looked up while an expression is checked, in that
order. What follows a dot is looked up elsewhere. -/
def Expr.lookups : Expr → List Token
  | ⟨.ident _, _, token⟩ => [token]
  | ⟨.binary .dot left _, _, _⟩ => left.lookups
  | ⟨.binary .assign left right, _, _⟩ => right.lookups ++ left.lookups
  | ⟨.binary _ left right, _, _⟩ => left.lookups ++ right.lookups
  | ⟨.unary _ operand, _, _⟩ => operand.lookups
  | ⟨.index base index, _, _⟩ => base.lookups ++ index.lookups
  | ⟨.call callee args, _, _⟩ => callee.lookups ++ Expr.allLookups args
  | ⟨.builtin _ _ args, _, _⟩ => Expr.allLookups args
  | ⟨.structLit _ _ fields, _, _⟩ => Expr.fieldLookups fields
  | ⟨.arrayLit _ elements, _, _⟩ => Expr.allLookups elements
  | ⟨.comma items, _, _⟩ => Expr.allLookups items
  | ⟨.function _ body, _, _⟩ => Stmt.blockLookups body
  | ⟨.integer _, _, _⟩ | ⟨.float _, _, _⟩ | ⟨.string _, _, _⟩ => []

def Expr.allLookups : List Expr → List Token
  | [] => []
  | e :: es => e.lookups ++ Expr.allLookups es

def Expr.fieldLookups : List FieldInit → List Token
  | [] => []
  | ⟨_, e⟩ :: fs => e.lookups ++ Expr.fieldLookups fs

def Stmt.lookups : Stmt → List Token
  | .expression _ e => e.lookups
  | .declare _ _ _ value => value.lookups
  | .declareAll _ _ _ _ value => value.lookups
  | .assign _ target value => value.lookups ++ target.lookups
  | .function _ _ body => Stmt.blockLookups body
  | .choose _ ⟨condition, body⟩ more otherwise =>
    condition.lookups ++ (Stmt.blockLookups body ++ (Stmt.branchLookups more ++
      match otherwise with
      | some xs => Stmt.blockLookups xs
      | none => []))
  | .loop _ init condition post body =>
    (match init with
      | some x => x.lookups
      | none => []) ++
    ((match condition with
      | some e => e.lookups
      | none => []) ++
    ((match post with
      | some x => x.lookups
      | none => []) ++ Stmt.blockLookups body))
  | .return _ value =>
    match value with
    | some e => e.lookups
    | none => []
  | .record _ _ | .break _ | .continue _ | .external _ _ | .importUnit _ _ _ _
  | .generic _ _ _ => []

/-- Nothing is looked up after a statement that returns on every path. -/
def Stmt.blockLookups : List Stmt → List Token
  | [] => []
  | x :: xs => x.lookups ++ if x.returns then [] else Stmt.blockLookups xs

def Stmt.branchLookups : List Branch → List Token
  | [] => []
  | ⟨condition, body⟩ :: bs =>
    condition.lookups ++ (Stmt.blockLookups body ++ Stmt.branchLookups bs)

end

theorem Expr.lookups_binary {op : InfixOp} (notDot : op ≠ .dot) (notAssign : op ≠ .assign)
    (left right : Expr) (ty : Ty) (token : Token) :
    Expr.lookups ⟨.binary op left right, ty, token⟩ = left.lookups ++ right.lookups := by
  cases op with
  | dot => exact absurd rfl notDot
  | assign => exact absurd rfl notAssign
  | _ => rfl

theorem Expr.allLookups_single (e : Expr) : Expr.allLookups [e] = e.lookups :=
  List.append_nil e.lookups

theorem Stmt.lookups_loop (token : Token) (init : Option Stmt) (condition : Option Expr)
    (post : Option Stmt) (body : List Stmt) :
    Stmt.lookups (.loop token init condition post body) =
      init.elim [] Stmt.lookups ++ (condition.elim [] Expr.lookups ++
        (post.elim [] Stmt.lookups ++ Stmt.blockLookups body)) := by
  cases init <;> cases condition <;> cases post <;> rfl

theorem Stmt.lookups_return (token : Token) (value : Option Expr) :
    Stmt.lookups (.return token value) = value.elim [] Expr.lookups := by
  cases value <;> rfl

def Stmt.topLookups : List Stmt → List Token
  | [] => []
  | x :: xs => x.lookups ++ Stmt.topLookups xs

structure Edit where
  /-- The token that stands in the place of a token. -/
  token : Token → Token
  /-- The name that the identifier with a token is given, if it is replaced. -/
  name? : Token → Option String

namespace Edit

mutual

def expr (d : Edit) : Expr → Expr
  | ⟨.ident name, ty, token⟩ => ⟨.ident ((d.name? token).getD name), ty, d.token token⟩
  | ⟨.integer value, ty, token⟩ => ⟨.integer value, ty, d.token token⟩
  | ⟨.float value, ty, token⟩ => ⟨.float value, ty, d.token token⟩
  | ⟨.string value, ty, token⟩ => ⟨.string value, ty, d.token token⟩
  -- A field or a member is not replaced.
  | ⟨.binary .dot left ⟨.ident name, ty', token'⟩, ty, token⟩ =>
    ⟨.binary .dot (d.expr left) ⟨.ident name, ty', d.token token'⟩, ty, d.token token⟩
  | ⟨.binary op left right, ty, token⟩ =>
    ⟨.binary op (d.expr left) (d.expr right), ty, d.token token⟩
  | ⟨.unary op operand, ty, token⟩ => ⟨.unary op (d.expr operand), ty, d.token token⟩
  | ⟨.index base index, ty, token⟩ => ⟨.index (d.expr base) (d.expr index), ty, d.token token⟩
  | ⟨.call callee args, ty, token⟩ => ⟨.call (d.expr callee) (d.exprs args), ty, d.token token⟩
  | ⟨.builtin name typeArgs args, ty, token⟩ =>
    ⟨.builtin name typeArgs (d.exprs args), ty, d.token token⟩
  | ⟨.structLit name module? fields, ty, token⟩ =>
    ⟨.structLit name module? (d.fields fields), ty, d.token token⟩
  | ⟨.arrayLit type elements, ty, token⟩ => ⟨.arrayLit type (d.exprs elements), ty, d.token token⟩
  | ⟨.comma items, ty, token⟩ => ⟨.comma (d.exprs items), ty, d.token token⟩
  | ⟨.function sig body, ty, token⟩ => ⟨.function sig (d.stmts body), ty, d.token token⟩

def exprs (d : Edit) : List Expr → List Expr
  | [] => []
  | e :: es => d.expr e :: d.exprs es

def fields (d : Edit) : List FieldInit → List FieldInit
  | [] => []
  | ⟨name, value⟩ :: fs => ⟨name, d.expr value⟩ :: d.fields fs

def stmt (d : Edit) : Stmt → Stmt
  | .expression token e => .expression (d.token token) (d.expr e)
  | .declare token name ty value => .declare (d.token token) name ty (d.expr value)
  | .declareAll token names ty types value =>
    .declareAll (d.token token) names ty types (d.expr value)
  | .assign token target value => .assign (d.token token) (d.expr target) (d.expr value)
  | .record token decl => .record (d.token token) decl
  | .function token sig body => .function (d.token token) sig (d.stmts body)
  | .choose token ⟨condition, body⟩ more otherwise =>
    .choose (d.token token) ⟨d.expr condition, d.stmts body⟩ (d.branches more)
      (match otherwise with
        | some xs => some (d.stmts xs)
        | none => none)
  | .loop token init condition post body =>
    .loop (d.token token)
      (match init with
        | some x => some (d.stmt x)
        | none => none)
      (match condition with
        | some e => some (d.expr e)
        | none => none)
      (match post with
        | some x => some (d.stmt x)
        | none => none)
      (d.stmts body)
  | .return token value =>
    .return (d.token token)
      (match value with
        | some e => some (d.expr e)
        | none => none)
  | .break token => .break (d.token token)
  | .continue token => .continue (d.token token)
  | .external token sig => .external (d.token token) sig
  | .importUnit token name typeArgs path => .importUnit (d.token token) name typeArgs path
  | .generic token name ty => .generic (d.token token) name ty

def stmts (d : Edit) : List Stmt → List Stmt
  | [] => []
  | x :: xs => d.stmt x :: d.stmts xs

def branches (d : Edit) : List Branch → List Branch
  | [] => []
  | ⟨condition, body⟩ :: bs => ⟨d.expr condition, d.stmts body⟩ :: d.branches bs

end

/-- What follows a dot: a name is not replaced there. -/
def member (d : Edit) : Expr → Expr
  | ⟨.ident name, ty, token⟩ => ⟨.ident name, ty, d.token token⟩
  | e => d.expr e

/-- The errors that are expected at tokens which are looked up: one for each that is replaced. -/
def mistakes (d : Edit) (tokens : List Token) : List Diagnostic :=
  tokens.filterMap fun token =>
    (d.name? token).map fun name =>
      ⟨.check (.undefinedVariable (Name.bare name)), (d.token token).start⟩

variable (d : Edit)

theorem mistakes_nil : d.mistakes [] = [] :=
  rfl

theorem mistakes_append (ks ls : List Token) :
    d.mistakes (ks ++ ls) = d.mistakes ks ++ d.mistakes ls :=
  List.filterMap_append

theorem mistakes_of_none {token : Token} (kept : d.name? token = none) :
    d.mistakes [token] = [] := by
  simp [mistakes, kept]

theorem mistakes_of_some {token : Token} {name : String} (replaced : d.name? token = some name) :
    d.mistakes [token] =
      [⟨.check (.undefinedVariable (Name.bare name)), (d.token token).start⟩] := by
  simp [mistakes, replaced]

@[simp]
theorem length_exprs (es : List Expr) : (d.exprs es).length = es.length := by
  induction es with
  | nil => rfl
  | cons e es ih => simp [exprs, ih]

theorem expr_dot (left right : Expr) (ty : Ty) (token : Token) :
    d.expr ⟨.binary .dot left right, ty, token⟩ =
      ⟨.binary .dot (d.expr left) (d.member right), ty, d.token token⟩ := by
  obtain ⟨node, ty', token'⟩ := right
  cases node <;> simp [expr, member]

theorem expr_binary {op : InfixOp} (notDot : op ≠ .dot) (left right : Expr) (ty : Ty)
    (token : Token) :
    d.expr ⟨.binary op left right, ty, token⟩ =
      ⟨.binary op (d.expr left) (d.expr right), ty, d.token token⟩ := by
  rw [expr]
  intro name ty' token' isDot
  exact absurd isDot notDot

theorem exists_expr_binary (op : InfixOp) (left right : Expr) (ty : Ty) (token : Token) :
    ∃ right', d.expr ⟨.binary op left right, ty, token⟩ =
      ⟨.binary op (d.expr left) right', ty, d.token token⟩ := by
  by_cases isDot : op = .dot
  · subst isDot
    exact ⟨_, d.expr_dot left right ty token⟩
  · exact ⟨_, d.expr_binary isDot left right ty token⟩

theorem token_expr (e : Expr) : (d.expr e).token = d.token e.token := by
  obtain ⟨node, ty, token⟩ := e
  cases node with
  | binary op left right =>
    obtain ⟨right', same⟩ := d.exists_expr_binary op left right ty token
    rw [same]
  | _ => rfl

theorem stmt_loop (token : Token) (init : Option Stmt) (condition : Option Expr)
    (post : Option Stmt) (body : List Stmt) :
    d.stmt (.loop token init condition post body) =
      .loop (d.token token) (init.map d.stmt) (condition.map d.expr) (post.map d.stmt)
        (d.stmts body) := by
  cases init <;> cases condition <;> cases post <;> rfl

theorem stmt_return (token : Token) (value : Option Expr) :
    d.stmt (.return token value) = .return (d.token token) (value.map d.expr) := by
  cases value <;> rfl

theorem name?_expr {e : Expr} (noName : e.name? = none) : (d.expr e).name? = none := by
  obtain ⟨node, ty, token⟩ := e
  cases node with
  | ident name => simp [Expr.name?] at noName
  | binary op left right =>
    obtain ⟨right', same⟩ := d.exists_expr_binary op left right ty token
    rw [same]
    rfl
  | _ => rfl

theorem name?_member (e : Expr) : (d.member e).name? = e.name? := by
  obtain ⟨node, ty, token⟩ := e
  cases node with
  | ident name => rfl
  | _ => exact d.name?_expr rfl

theorem isLiteral_expr {e : Expr} (literal : e.isLiteral = true) :
    (d.expr e).isLiteral = true ∧ (d.expr e).ty = e.ty ∧ e.lookups = [] := by
  obtain ⟨node, ty, token⟩ := e
  cases node with
  | integer _ | float _ | string _ => exact ⟨rfl, rfl, rfl⟩
  | _ => simp [Expr.isLiteral] at literal

theorem node_expr_string {e : Expr} {value : String} (string : e.node = .string value) :
    (d.expr e).node = .string value := by
  obtain ⟨node, ty, token⟩ := e
  obtain rfl := string
  rfl

theorem not_comma_expr {e : Expr} (noComma : ∀ items, e.node ≠ .comma items) (items : List Expr) :
    (d.expr e).node ≠ .comma items := by
  obtain ⟨node, ty, token⟩ := e
  cases node with
  | comma items => exact absurd rfl (noComma items)
  | binary op left right =>
    obtain ⟨right', same⟩ := d.exists_expr_binary op left right ty token
    rw [same]
    exact nofun
  | _ => exact nofun

end Edit

end FrontEnd
