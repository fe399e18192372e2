import FrontEnd.Proofs.Syntax.Relabel

namespace FrontEnd

inductive Label where
  | token (t : Token)
  | type (t : Ty)
  | record (decl : Record)
  | signature (sig : Signature)
  /-- The type that checking gives to an expression. -/
  | inferred (t : Ty)

mutual

def Expr.labels : Expr → List Label
  | ⟨node, ty, token⟩ => .token token :: .inferred ty :: node.labels

def Node.labels : Node → List Label
  | .ident _ | .integer _ | .float _ | .string _ => []
  | .binary _ left right => left.labels ++ right.labels
  | .unary _ operand => operand.labels
  | .index base index => base.labels ++ index.labels
  | .call callee args => callee.labels ++ Expr.labelsOf args
  | .builtin _ typeArgs args => typeArgs.map .type ++ Expr.labelsOf args
  | .structLit _ _ fields => Expr.labelsOfFields fields
  | .arrayLit ty elements => .type ty :: Expr.labelsOf elements
  | .comma items => Expr.labelsOf items
  | .function sig body => .signature sig :: Stmt.labelsOf body

def Expr.labelsOf : List Expr → List Label
  | [] => []
  | e :: es => e.labels ++ Expr.labelsOf es

def Expr.labelsOfFields : List FieldInit → List Label
  | [] => []
  | ⟨_, e⟩ :: fs => e.labels ++ Expr.labelsOfFields fs

def Stmt.labels : Stmt → List Label
  | .expression token e => .token token :: e.labels
  | .declare token _ ty value => .token token :: .type ty :: value.labels
  | .declareAll token _ ty types value =>
    .token token :: .type ty :: types.map .type ++ value.labels
  | .assign token target value => .token token :: target.labels ++ value.labels
  | .record token decl => [.token token, .record decl]
  | .function token sig body => .token token :: .signature sig :: Stmt.labelsOf body
  | .choose token ⟨condition, body⟩ more otherwise =>
    .token token :: condition.labels ++ Stmt.labelsOf body ++ Stmt.labelsOfBranches more ++
      match otherwise with
      | some xs => Stmt.labelsOf xs
      | none => []
  | .loop token init condition post body =>
    .token token ::
      (match init with
        | some x => x.labels
        | none => []) ++
      (match condition with
        | some e => e.labels
        | none => []) ++
      (match post with
        | some x => x.labels
        | none => []) ++ Stmt.labelsOf body
  | .return token value =>
    .token token ::
      match value with
      | some e => e.labels
      | none => []
  | .break token | .continue token => [.token token]
  | .external token sig => [.token token, .signature sig]
  | .importUnit token _ typeArgs _ => .token token :: typeArgs.map .type
  | .generic token _ ty => [.token token, .type ty]

def Stmt.labelsOf : List Stmt → List Label
  | [] => []
  | x :: xs => x.labels ++ Stmt.labelsOf xs

def Stmt.labelsOfBranches : List Branch → List Label
  | [] => []
  | ⟨condition, body⟩ :: bs => condition.labels ++ Stmt.labelsOf body ++ Stmt.labelsOfBranches bs

end

attribute [local simp] Expr.labels Node.labels Expr.labelsOf Expr.labelsOfFields Stmt.labels
  Stmt.labelsOf Stmt.labelsOfBranches

theorem Stmt.labels_choose {token : Token} {condition : Expr} {body : List Stmt}
    {more : List Branch} {otherwise : Option (List Stmt)} :
    (Stmt.choose token ⟨condition, body⟩ more otherwise).labels =
      .token token :: (condition.labels ++ Stmt.labelsOf body ++ Stmt.labelsOfBranches more ++
        otherwise.elim [] Stmt.labelsOf) := by
  cases otherwise <;> simp

theorem Stmt.labels_loop {token : Token} {init : Option Stmt} {condition : Option Expr}
    {post : Option Stmt} {body : List Stmt} :
    (Stmt.loop token init condition post body).labels =
      .token token :: (init.elim [] Stmt.labels ++ condition.elim [] Expr.labels ++
        post.elim [] Stmt.labels ++ Stmt.labelsOf body) := by
  cases init <;> cases condition <;> cases post <;> simp

theorem Stmt.labels_return {token : Token} {value : Option Expr} :
    (Stmt.return token value).labels = .token token :: value.elim [] Expr.labels := by
  cases value <;> simp

namespace Relabelling

variable (d : Relabelling)

def label : Label → Label
  | .token t => .token (d.token t)
  | .type t => .type (d.type t)
  | .record decl => .record (d.record decl)
  | .signature sig => .signature (d.signature sig)
  | .inferred t => .inferred <| d.annotation t

attribute [local simp] expr exprs fields stmt stmts branches label

mutual

theorem labels_expr : ∀ e : Expr, (d.expr e).labels = e.labels.map d.label
  | ⟨.ident _, _, _⟩ | ⟨.integer _, _, _⟩ | ⟨.float _, _, _⟩ | ⟨.string _, _, _⟩ => rfl
  | ⟨.binary _ left right, _, _⟩ => by simp [labels_expr left, labels_expr right]
  | ⟨.unary _ operand, _, _⟩ => by simp [labels_expr operand]
  | ⟨.index base index, _, _⟩ => by simp [labels_expr base, labels_expr index]
  | ⟨.call callee args, _, _⟩ => by simp [labels_expr callee, labels_exprs args]
  | ⟨.builtin _ _ args, _, _⟩ => by simp [labels_exprs args]
  | ⟨.structLit _ _ fs, _, _⟩ => by simp [labels_fields fs]
  | ⟨.arrayLit _ elements, _, _⟩ => by simp [labels_exprs elements]
  | ⟨.comma items, _, _⟩ => by simp [labels_exprs items]
  | ⟨.function _ body, _, _⟩ => by simp [labels_stmts body]

theorem labels_exprs : ∀ es : List Expr, Expr.labelsOf (d.exprs es) = (Expr.labelsOf es).map d.label
  | [] => rfl
  | e :: es => by simp [labels_expr e, labels_exprs es]

theorem labels_fields :
    ∀ fs : List FieldInit, Expr.labelsOfFields (d.fields fs) = (Expr.labelsOfFields fs).map d.label
  | [] => rfl
  | ⟨_, e⟩ :: fs => by simp [labels_expr e, labels_fields fs]

theorem labels_stmt : ∀ x : Stmt, (d.stmt x).labels = x.labels.map d.label
  | .expression _ e => by simp [labels_expr e]
  | .declare _ _ _ value => by simp [labels_expr value]
  | .declareAll _ _ _ _ value => by simp [labels_expr value]
  | .assign _ target value => by simp [labels_expr target, labels_expr value]
  | .function _ _ body => by simp [labels_stmts body]
  | .choose _ ⟨condition, body⟩ more none => by
    simp [labels_expr condition, labels_stmts body, labels_branches more]
  | .choose _ ⟨condition, body⟩ more (some xs) => by
    simp [labels_expr condition, labels_stmts body, labels_branches more, labels_stmts xs]
  | .loop _ init condition post body => by
    cases init <;> cases condition <;> cases post <;>
      simp [labels_stmt, labels_expr, labels_stmts body]
  | .return _ none => rfl
  | .return _ (some e) => by simp [labels_expr e]
  | .importUnit _ _ _ _ => by simp
  | .record _ _ | .break _ | .continue _ | .external _ _ | .generic _ _ _ => rfl

theorem labels_stmts : ∀ xs : List Stmt, Stmt.labelsOf (d.stmts xs) = (Stmt.labelsOf xs).map d.label
  | [] => rfl
  | x :: xs => by simp [labels_stmt x, labels_stmts xs]

theorem labels_branches : ∀ bs : List Branch,
    Stmt.labelsOfBranches (d.branches bs) = (Stmt.labelsOfBranches bs).map d.label
  | [] => rfl
  | ⟨condition, body⟩ :: bs => by
    simp [labels_expr condition, labels_stmts body, labels_branches bs]

end

theorem label_of_stmts {xs : List Stmt} (same : d.stmts xs = xs) :
    ∀ l ∈ Stmt.labelsOf xs, d.label l = l := by
  have labels := d.labels_stmts xs
  rw [same] at labels
  exact List.map_inj_left.mp (labels.symm.trans (List.map_id _).symm)

end Relabelling

end FrontEnd
