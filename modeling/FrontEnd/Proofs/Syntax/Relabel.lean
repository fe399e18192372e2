import FrontEnd.Syntax.Basic
import Mathlib.Data.List.Forall2

namespace FrontEnd

structure Relabelling where
  /-- The names that a unit qualifies. -/
  name : String → String
  /-- The types that are part of the program. -/
  type : Ty → Ty
  record : Record → Record
  signature : Signature → Signature
  /-- The types that checking gives to expressions. -/
  annotation : Ty → Ty
  token : Token → Token

namespace Relabelling

mutual

def expr (d : Relabelling) : Expr → Expr
  | ⟨.ident name, ty, token⟩ => ⟨.ident (d.name name), d.annotation ty, d.token token⟩
  | ⟨.integer value, ty, token⟩ => ⟨.integer value, d.annotation ty, d.token token⟩
  | ⟨.float value, ty, token⟩ => ⟨.float value, d.annotation ty, d.token token⟩
  | ⟨.string value, ty, token⟩ => ⟨.string value, d.annotation ty, d.token token⟩
  | ⟨.binary op left right, ty, token⟩ =>
    ⟨.binary op (d.expr left) (d.expr right), d.annotation ty, d.token token⟩
  | ⟨.unary op operand, ty, token⟩ => ⟨.unary op (d.expr operand), d.annotation ty, d.token token⟩
  | ⟨.index base index, ty, token⟩ =>
    ⟨.index (d.expr base) (d.expr index), d.annotation ty, d.token token⟩
  | ⟨.call callee args, ty, token⟩ =>
    ⟨.call (d.expr callee) (d.exprs args), d.annotation ty, d.token token⟩
  | ⟨.builtin name typeArgs args, ty, token⟩ =>
    ⟨.builtin name (typeArgs.map d.type) (d.exprs args), d.annotation ty, d.token token⟩
  | ⟨.structLit name module? fields, ty, token⟩ =>
    ⟨.structLit (d.name name) (module?.map d.name) (d.fields fields), d.annotation ty,
      d.token token⟩
  | ⟨.arrayLit type elements, ty, token⟩ =>
    ⟨.arrayLit (d.type type) (d.exprs elements), d.annotation ty, d.token token⟩
  | ⟨.comma items, ty, token⟩ => ⟨.comma (d.exprs items), d.annotation ty, d.token token⟩
  | ⟨.function sig body, ty, token⟩ =>
    ⟨.function (d.signature sig) (d.stmts body), d.annotation ty, d.token token⟩

def exprs (d : Relabelling) : List Expr → List Expr
  | [] => []
  | e :: es => d.expr e :: d.exprs es

def fields (d : Relabelling) : List FieldInit → List FieldInit
  | [] => []
  | ⟨name, value⟩ :: fs => ⟨name, d.expr value⟩ :: d.fields fs

def stmt (d : Relabelling) : Stmt → Stmt
  | .expression token e => .expression (d.token token) (d.expr e)
  | .declare token name ty value =>
    .declare (d.token token) (d.name name) (d.type ty) (d.expr value)
  | .declareAll token names ty types value =>
    .declareAll (d.token token) (names.map d.name) (d.type ty) (types.map d.type) (d.expr value)
  | .assign token target value => .assign (d.token token) (d.expr target) (d.expr value)
  | .record token decl => .record (d.token token) (d.record decl)
  | .function token sig body => .function (d.token token) (d.signature sig) (d.stmts body)
  | .choose token ⟨condition, body⟩ more otherwise =>
    .choose (d.token token) ⟨d.expr condition, d.stmts body⟩ (d.branches more)
      (match otherwise with
        | some xs => some (d.stmts xs)
        | none => none)
  | .loop token init condition post body =>
    .loop (d.token token)
      (match init with
        | some x => some (d.stmt x)
        | none => none)
      (match condition with
        | some e => some (d.expr e)
        | none => none)
      (match post with
        | some x => some (d.stmt x)
        | none => none)
      (d.stmts body)
  | .return token value =>
    .return (d.token token)
      (match value with
        | some e => some (d.expr e)
        | none => none)
  | .break token => .break (d.token token)
  | .continue token => .continue (d.token token)
  | .external token sig => .external (d.token token) (d.signature sig)
  | .importUnit token name typeArgs path =>
    .importUnit (d.token token) (d.name name) (typeArgs.map d.type) path
  | .generic token name ty => .generic (d.token token) name (d.type ty)

def stmts (d : Relabelling) : List Stmt → List Stmt
  | [] => []
  | x :: xs => d.stmt x :: d.stmts xs

def branches (d : Relabelling) : List Branch → List Branch
  | [] => []
  | ⟨condition, body⟩ :: bs => ⟨d.expr condition, d.stmts body⟩ :: d.branches bs

end

variable (d : Relabelling)

theorem exprs_eq_map (es : List Expr) : d.exprs es = es.map d.expr := by
  induction es with
  | nil => rfl
  | cons e es ih => rw [exprs, ih, List.map_cons]

theorem fields_eq_map (fs : List FieldInit) :
    d.fields fs = fs.map fun f => ⟨f.name, d.expr f.value⟩ := by
  induction fs with
  | nil => rfl
  | cons f fs ih =>
    obtain ⟨name, value⟩ := f
    rw [fields, ih, List.map_cons]

theorem stmts_eq_map (xs : List Stmt) : d.stmts xs = xs.map d.stmt := by
  induction xs with
  | nil => rfl
  | cons x xs ih => rw [stmts, ih, List.map_cons]

def branch (b : Branch) : Branch :=
  ⟨d.expr b.condition, d.stmts b.body⟩

theorem branches_eq_map (bs : List Branch) : d.branches bs = bs.map d.branch := by
  induction bs with
  | nil => rfl
  | cons b bs ih =>
    obtain ⟨condition, body⟩ := b
    rw [branches, ih, List.map_cons, branch]

theorem stmt_choose (token : Token) (first : Branch) (more : List Branch)
    (otherwise : Option (List Stmt)) :
    d.stmt (.choose token first more otherwise) =
      .choose (d.token token) (d.branch first) (d.branches more) (otherwise.map d.stmts) := by
  obtain ⟨condition, body⟩ := first
  cases otherwise <;> rfl

theorem stmt_loop (token : Token) (init : Option Stmt) (condition : Option Expr)
    (post : Option Stmt) (body : List Stmt) :
    d.stmt (.loop token init condition post body) =
      .loop (d.token token) (init.map d.stmt) (condition.map d.expr) (post.map d.stmt)
        (d.stmts body) := by
  cases init <;> cases condition <;> cases post <;> rfl

theorem stmt_return (token : Token) (value : Option Expr) :
    d.stmt (.return token value) = .return (d.token token) (value.map d.expr) := by
  cases value <;> rfl

theorem token_expr (e : Expr) : (d.expr e).token = d.token e.token := by
  obtain ⟨node, ty, token⟩ := e
  cases node <;> rfl

theorem ty_expr (e : Expr) : (d.expr e).ty = d.annotation e.ty := by
  obtain ⟨node, ty, token⟩ := e
  cases node <;> rfl

theorem name?_expr (e : Expr) : (d.expr e).name? = e.name?.map d.name := by
  obtain ⟨node, ty, token⟩ := e
  cases node <;> rfl

/-- Forgets the tokens, and the types that checking gives to expressions. -/
def erasure : Relabelling where
  name := id
  type := id
  record := id
  signature := id
  annotation := fun _ => .todo
  token := fun _ => ⟨.eof, "", ⟨.nowhere, .nowhere⟩⟩

@[simp]
theorem erasure_annotation (t : Ty) : erasure.annotation t = .todo :=
  rfl

@[simp]
theorem erasure_token (t : Token) : erasure.token t = ⟨.eof, "", ⟨.nowhere, .nowhere⟩⟩ :=
  rfl

end Relabelling

/-- Two expressions are the same tree up to tokens and annotated types. -/
def Expr.Alike (e e' : Expr) : Prop :=
  Relabelling.erasure.expr e = Relabelling.erasure.expr e'

namespace Expr.Alike

attribute [local simp] Alike Relabelling.expr Relabelling.exprs Relabelling.fields

variable {left left' right right' : Expr} {es es' : List Expr} {fs fs' : List FieldInit}
  {ty ty' : Ty} {token token' : Token}

theorem node_eq_ident {name : String} (h : left.Alike ⟨.ident name, ty, token⟩) :
    left.node = .ident name := by
  obtain ⟨node, _, _⟩ := left
  have same := congrArg Expr.node h
  cases node with
  | ident name' =>
    cases same
    rfl
  | _ => cases same

theorem binary (op : InfixOp) (hl : left.Alike left') (hr : right.Alike right') :
    Alike ⟨.binary op left right, ty, token⟩ ⟨.binary op left' right', ty', token'⟩ := by
  simpa using ⟨hl, hr⟩

theorem unary (op : PrefixOp) (h : left.Alike left') :
    Alike ⟨.unary op left, ty, token⟩ ⟨.unary op left', ty', token'⟩ := by
  simpa using h

theorem index (hl : left.Alike left') (hr : right.Alike right') :
    Alike ⟨.index left right, ty, token⟩ ⟨.index left' right', ty', token'⟩ := by
  simpa using ⟨hl, hr⟩

theorem exprs (h : List.Forall₂ Alike es es') :
    Relabelling.erasure.exprs es = Relabelling.erasure.exprs es' := by
  induction h with
  | nil => rfl
  | cons alike _ ih => simpa using ⟨alike, ih⟩

theorem call (hl : left.Alike left') (hs : List.Forall₂ Alike es es') :
    Alike ⟨.call left es, ty, token⟩ ⟨.call left' es', ty', token'⟩ := by
  simpa using ⟨hl, exprs hs⟩

theorem builtin (name : String) (typeArgs : List Ty) (hs : List.Forall₂ Alike es es') :
    Alike ⟨.builtin name typeArgs es, ty, token⟩ ⟨.builtin name typeArgs es', ty', token'⟩ := by
  simpa using exprs hs

theorem arrayLit (t : Ty) (hs : List.Forall₂ Alike es es') :
    Alike ⟨.arrayLit t es, ty, token⟩ ⟨.arrayLit t es', ty', token'⟩ := by
  simpa using exprs hs

theorem fields (h : List.Forall₂ (fun f f' => f.name = f'.name ∧ f.value.Alike f'.value) fs fs') :
    Relabelling.erasure.fields fs = Relabelling.erasure.fields fs' := by
  induction h with
  | nil => rfl
  | @cons f f' _ _ same _ ih =>
    obtain ⟨name, value⟩ := f
    obtain ⟨name', value'⟩ := f'
    simpa using ⟨same, ih⟩

theorem structLit (name : String) (module? : Option String)
    (h : List.Forall₂ (fun f f' => f.name = f'.name ∧ f.value.Alike f'.value) fs fs') :
    Alike ⟨.structLit name module? fs, ty, token⟩ ⟨.structLit name module? fs', ty', token'⟩ := by
  simpa using fields h

end Expr.Alike

end FrontEnd
