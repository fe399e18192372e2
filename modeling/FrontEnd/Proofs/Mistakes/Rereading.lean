import FrontEnd.Proofs.Mistakes.Tracks

namespace FrontEnd

namespace Edit

variable (d : Edit)

mutual

theorem isAssignable_expr : ∀ e : Expr, (d.expr e).isAssignable = e.isAssignable
  | ⟨.comma items, _, _⟩ => by
    rw [expr, Expr.isAssignable, Expr.isAssignable]
    exact areAssignable_exprs items
  | ⟨.binary op left right, ty, token⟩ => by
    obtain ⟨right', same⟩ := d.exists_expr_binary op left right ty token
    rw [same]
    cases op <;> rfl
  | ⟨.unary op _, _, _⟩ => by cases op <;> rfl
  | ⟨.ident _, _, _⟩ | ⟨.integer _, _, _⟩ | ⟨.float _, _, _⟩ | ⟨.string _, _, _⟩
  | ⟨.index _ _, _, _⟩ | ⟨.call _ _, _, _⟩ | ⟨.builtin _ _ _, _, _⟩ | ⟨.structLit _ _ _, _, _⟩
  | ⟨.arrayLit _ _, _, _⟩ | ⟨.function _ _, _, _⟩ => rfl

theorem areAssignable_exprs :
    ∀ es : List Expr, Expr.areAssignable (d.exprs es) = Expr.areAssignable es
  | [] => rfl
  | e :: es => by
    rw [exprs, Expr.areAssignable, Expr.areAssignable, isAssignable_expr e, areAssignable_exprs es]

end

end Edit

namespace Editable

variable (d : Edit) (old : Token)

attribute [simp] Edit.expr Edit.stmt Expr.lookups Stmt.lookups Expr.untyped

@[simp]
theorem edit_exprs (es : List Expr) : d.exprs es = edit d es := by
  induction es with
  | nil => rfl
  | cons e es ih => exact congrArg _ ih

@[simp]
theorem edit_fields (fs : List FieldInit) : d.fields fs = edit d fs := by
  induction fs with
  | nil => rfl
  | cons f fs ih =>
    obtain ⟨name, value⟩ := f
    exact congrArg _ ih

@[simp]
theorem edit_stmts (xs : List Stmt) : d.stmts xs = edit d xs := by
  induction xs with
  | nil => rfl
  | cons x xs ih => exact congrArg _ ih

@[simp]
theorem edit_branches (bs : List Branch) : d.branches bs = edit d bs := by
  induction bs with
  | nil => rfl
  | cons b bs ih =>
    obtain ⟨condition, body⟩ := b
    exact congrArg _ ih

@[simp]
theorem uses_exprs (es : List Expr) : (Expr.allLookups es).count old = uses old es := by
  induction es with
  | nil => rfl
  | cons e es ih =>
    rw [uses_cons, ← ih, Expr.allLookups, List.count_append]
    rfl

@[simp]
theorem uses_fields (fs : List FieldInit) : (Expr.fieldLookups fs).count old = uses old fs := by
  induction fs with
  | nil => rfl
  | cons f fs ih =>
    obtain ⟨name, value⟩ := f
    rw [uses_cons, ← ih, Expr.fieldLookups, List.count_append]
    rfl

theorem uses_branches (bs : List Branch) : (Stmt.branchLookups bs).count old = uses old bs := by
  induction bs with
  | nil => rfl
  | cons b bs ih =>
    obtain ⟨condition, body⟩ := b
    rw [uses_cons, ← ih, Stmt.branchLookups, List.count_append, List.count_append]
    exact (Nat.add_assoc _ _ _).symm

theorem uses_stmts (xs : List Stmt) : (Stmt.topLookups xs).count old = uses old xs := by
  induction xs with
  | nil => rfl
  | cons x xs ih =>
    rw [uses_cons, ← ih, Stmt.topLookups, List.count_append]
    rfl

theorem block_le_uses (xs : List Stmt) : (Stmt.blockLookups xs).count old ≤ uses old xs := by
  induction xs with
  | nil => exact Nat.le_refl 0
  | cons x xs ih =>
    have first : uses old x = x.lookups.count old := rfl
    rw [uses_cons, Stmt.blockLookups, List.count_append, first]
    split
    · rw [List.count_nil]
      omega
    · omega

@[simp]
theorem edit_token (t : Token) : edit d t = d.token t :=
  rfl

@[simp]
theorem edit_expr (e : Expr) : edit d e = d.expr e :=
  rfl

@[simp]
theorem uses_expr (e : Expr) : uses old e = e.lookups.count old :=
  rfl

@[simp]
theorem edit_stmt (x : Stmt) : edit d x = d.stmt x :=
  rfl

@[simp]
theorem uses_stmt (x : Stmt) : uses old x = x.lookups.count old :=
  rfl

@[simp]
theorem edit_branch (b : Branch) : edit d b = ⟨d.expr b.condition, edit d b.body⟩ := by
  rw [← edit_stmts]
  rfl

theorem uses_ident (name : String) (ty : Ty) (token : Token) :
    uses old (⟨.ident name, ty, token⟩ : Expr) = uses old token := by
  simp [uses, List.count_singleton]

theorem uses_function_le (sig : Signature) (body : List Stmt) (ty : Ty) (token : Token) :
    uses old (⟨.function sig body, ty, token⟩ : Expr) ≤ uses old body :=
  block_le_uses old body

variable (token : Token)

theorem uses_functionDecl_le (sig : Signature) (body : List Stmt) :
    uses old (Stmt.function token sig body) ≤ uses old body :=
  block_le_uses old body

theorem uses_branch_le (condition : Expr) (body : List Stmt) :
    uses old (⟨condition, body⟩ : Branch) ≤ uses old condition + uses old body :=
  Nat.add_le_add_left (block_le_uses old body) _

@[simp high]
theorem edit_choose (first : Branch) (more : List Branch) (otherwise : Option (List Stmt)) :
    edit d (Stmt.choose token first more otherwise) =
      .choose (edit d token) (edit d first) (edit d more) (edit d otherwise) := by
  obtain ⟨condition, body⟩ := first
  cases otherwise <;> simp

theorem uses_choose_le (first : Branch) (more : List Branch) (otherwise : Option (List Stmt)) :
    uses old (Stmt.choose token first more otherwise) ≤
      uses old first + uses old more + uses old otherwise := by
  obtain ⟨condition, body⟩ := first
  have branch : uses old (⟨condition, body⟩ : Branch) =
      condition.lookups.count old + (Stmt.blockLookups body).count old := rfl
  rw [branch, ← uses_branches]
  cases otherwise with
  | none =>
    simp
    omega
  | some xs =>
    have last := block_le_uses old xs
    simp
    omega

@[simp high]
theorem edit_loop (init : Option Stmt) (condition : Option Expr) (post : Option Stmt)
    (body : List Stmt) :
    edit d (Stmt.loop token init condition post body) =
      .loop (edit d token) (edit d init) (edit d condition) (edit d post) (edit d body) := by
  rw [← edit_stmts]
  exact d.stmt_loop token init condition post body

theorem uses_loop_le (init : Option Stmt) (condition : Option Expr) (post : Option Stmt)
    (body : List Stmt) :
    uses old (Stmt.loop token init condition post body) ≤
      uses old init + uses old condition + uses old post + uses old body := by
  have last := block_le_uses old body
  cases init <;> cases condition <;> cases post <;> simp <;> omega

@[simp high]
theorem edit_return (value : Option Expr) :
    edit d (Stmt.return token value) = .return (edit d token) (edit d value) :=
  d.stmt_return token value

@[simp high]
theorem uses_return (value : Option Expr) :
    uses old (Stmt.return token value) = uses old value := by
  cases value <;> rfl

end Editable

namespace Parse

open Editable

variable {c : Replacement} {k : Nat} {r : Reader}

theorem tracks_dottedName {first : String} :
    Tracks c 0 r (dottedName first) (dottedName first) := by
  refine tracks_loop (fun words r => ?_) [first]
  refine tracks_kind (tracks_peekKind (.ite (fun _ => ?_) fun _ => ?_))
  · refine tracks_advance.bind fun _ _ => tracks_advance.bind fun t _ => ?_
    generalize hv : (edit c.edit t).value = v
    apply tracks_value hv
    exact tracks_pure (by simp)
  · exact tracks_pure (by simp)

theorem tracks_namedType : Tracks c 0 r namedType namedType := by
  refine tracks_expect.bind fun t r => tracks_get ?_
  generalize hv : (edit c.edit t).value = v
  apply tracks_value hv
  have generic : (c.reader r).generic? t.value = r.generic? t.value := rfl
  rw [generic]
  cases Ty.primitive? t.value with
  | some ty => exact tracks_pure (by simp)
  | none =>
    cases r.generic? t.value with
    | some ty => exact tracks_pure (by simp)
    | none =>
      exact tracks_dottedName.bind fun words r => tracks_get (tracks_pure (by simp))

theorem natural?_move {t : Token} (other : t ≠ c.old) :
    Literal.natural? (c.move t) = Literal.natural? t := by
  simp only [Literal.natural?, c.kind, c.value t other]

theorem tracks_arrayLength : Tracks c 0 r arrayLength arrayLength := by
  refine tracks_advance.bind fun t r => ?_
  cases length : Literal.length? t with
  | none => exact tracks_failAt
  | some n =>
    refine tracks_token (tracks_pure ⟨by simp, rfl⟩) fun other => ?_
    have same : Literal.length? (edit c.edit t) = some n := by
      rw [← length, Literal.length?, Literal.length?, Literal.below?, Literal.below?,
        ← natural?_move other]
      rfl
    rw [same]
    exact tracks_pure (by simp)

theorem tracks_resultAfter {type type' : Parse Ty} {close : Token}
    (h : ∀ r, Tracks c 0 r type type') :
    Tracks c 0 r (resultAfter type close) (resultAfter type' (c.move close)) := by
  refine tracks_current ?_
  rw [c.kind, c.line, c.line]
  exact .ite (fun _ => h r) fun _ => tracks_pure (by simp)

theorem tracks_typeWithin (bound : List Token) (r : Reader) :
    Tracks c 0 r (typeWithin bound) (typeWithin (bound.map c.move)) := by
  induction bound generalizing r with
  | nil => exact tracks_unexpected
  | cons token bound ih =>
    refine tracks_kind ?_
    cases r.kind with
    | identifier => exact tracks_namedType
    | star =>
      exact tracks_advance.bind fun _ r => (ih r).bind fun ty _ =>
        tracks_pure (by simp)
    | openBracket =>
      exact tracks_advance.bind fun _ _ => tracks_arrayLength.bind fun n _ =>
        tracks_expect.bind fun _ r => (ih r).bind fun ty _ => tracks_pure (by simp)
    | kwFunc =>
      refine tracks_advance.bind fun _ _ => tracks_expect.bind fun _ _ =>
        (tracks_commaList ih).bind fun params _ => ?_
      exact (tracks_resultAfter ih).bind fun result _ => tracks_pure (by simp)
    | _ => exact tracks_unexpected

theorem tracks_type : Tracks c 0 r type type :=
  tracks_get (tracks_typeWithin r.tokens r)

theorem tracks_param : Tracks c 0 r param param := by
  refine tracks_expect.bind fun t r => ?_
  generalize hv : (edit c.edit t).value = v
  apply tracks_value hv
  exact tracks_qualify (tracks_type.bind fun ty _ => tracks_pure (by simp))

theorem tracks_params : Tracks c 0 r params params :=
  tracks_expect.bind fun _ _ => (tracks_commaList fun _ => tracks_param).mono (by simp)

theorem tracks_resultBeforeBody : Tracks c 0 r resultBeforeBody resultBeforeBody :=
  tracks_kind (.ite (fun _ => tracks_pure (by simp)) fun _ => tracks_type)

theorem tracks_unknownExpr : Tracks c 0 r unknownExpr unknownExpr := by
  have goesOn (token : Token) (r : Reader) :
      Tracks c 0 r (advance >>= fun _ => pure (⟨.integer 1, .int 32, token⟩ : Expr))
        (advance >>= fun _ => pure (⟨.integer 1, .int 32, c.move token⟩ : Expr)) :=
    tracks_advance.bind fun _ _ => tracks_pure ⟨by simp, rfl⟩
  exact tracks_current (goesOn _ _).reports.tracks

theorem edit_ident_of_ne {t : Token} (other : t ≠ c.old) (name : String) (ty : Ty) :
    edit c.edit (⟨.ident name, ty, t⟩ : Expr) = ⟨.ident name, ty, c.move t⟩ := by
  have edited : edit c.edit (⟨.ident name, ty, t⟩ : Expr) =
      ⟨.ident ((c.edit.name? t).getD name), ty, c.move t⟩ := rfl
  rw [edited, c.edit_name?, if_neg other]
  rfl

theorem edit_ident (fit : r.Fits c.unit) (ty : Ty) (t : Token) :
    edit c.edit (⟨.ident (r.qualify t.value), ty, t⟩ : Expr) =
      ⟨.ident (r.qualify (c.move t).value), ty, c.move t⟩ := by
  by_cases same : t = c.old
  · have edited : edit c.edit (⟨.ident (r.qualify t.value), ty, t⟩ : Expr) =
        ⟨.ident ((c.edit.name? t).getD (r.qualify t.value)), ty, c.move t⟩ := rfl
    rw [edited, c.edit_name?, if_pos same, same, Option.getD_some, Replacement.name, ← fit.unit]
    rfl
  · rw [edit_ident_of_ne same, c.value t same]

theorem tracks_literal : Tracks c 0 r literal literal := by
  refine tracks_advance.bind fun t r => ?_
  have kind : (edit c.edit t).kind = t.kind := c.kind t
  rw [kind]
  cases t.kind with
  | float =>
    refine tracks_token (tracks_pure ⟨by simp, rfl⟩) fun other => ?_
    exact tracks_pure ⟨by simp, by simp [Literal.float, c.value t other]⟩
  | string =>
    generalize hv : (edit c.edit t).value = v
    apply tracks_value hv
    exact tracks_pure (by simp)
  | kwTrue | kwFalse => exact tracks_pure (by simp)
  | identifier =>
    refine tracks_of_fits fun fit => tracks_qualify (tracks_pure ⟨(uses_ident ..).le, ?_⟩)
    rw [Expr.untyped, Expr.untyped, edit_ident fit]
    rfl
  | _ =>
    cases number : Literal.integer? t with
    | none => exact tracks_failAt
    | some n =>
      refine tracks_token (tracks_pure ⟨by simp, rfl⟩) fun other => ?_
      have same : Literal.integer? (edit c.edit t) = some n := by
        rw [← number, Literal.integer?, Literal.integer?, Literal.below?, Literal.below?,
          ← natural?_move other]
        rfl
      rw [same]
      exact tracks_pure (by simp)

theorem tracks_builtinTypes {name : String} {expected : Nat} (n : Nat) (r : Reader) :
    Tracks c 0 r (builtinTypes name expected n) (builtinTypes name expected n) := by
  induction n generalizing r with
  | zero => exact tracks_pure (by simp)
  | succ n ih =>
    unfold builtinTypes
    refine tracks_current ?_
    rw [c.kind]
    refine .ite (fun _ => tracks_failAt_bind) fun _ => tracks_type.bind fun ty r => ?_
    have rest (r : Reader) : Tracks c 0 r (do return ty :: (← builtinTypes name expected n))
        (do return ty :: (← builtinTypes name expected n)) :=
      (ih r).bind fun types _ => tracks_pure (by simp)
    refine tracks_kind (.ite (fun _ => ?_) fun _ => rest r)
    exact tracks_advance.bind fun _ r => (rest r).mono (by simp)

end Parse

/-- Readers for what is nested that give the edited tree for the edited tokens. -/
structure Nested.Tracked (c : Replacement) (g : Nested) : Prop where
  expr : ∀ power r, Parse.Tracks c 0 r (g.expr power) (g.expr power)
  stmt : ∀ r, Parse.Tracks c 0 r g.stmt g.stmt

namespace Nested.Tracked

open Parse Editable

variable {c : Replacement} {g : Nested} {r : Reader} (h : g.Tracked c)

include h

theorem arguments {closing : Kind} : Tracks c 0 r (g.arguments closing) (g.arguments closing) := by
  refine (tracks_commaList fun r => ?_).bind fun x r => ?_
  · exact tracks_hasTokens (.ite (fun _ => h.expr .comma r) fun _ => tracks_unexpected)
  · obtain ⟨items, close⟩ := x
    exact tracks_pure ⟨by simp, rfl⟩

theorem statements {closing : Kind} :
    Tracks c 0 r (g.statements closing) (g.statements closing) := by
  refine tracks_skip.bind fun _ r => ?_
  refine tracks_loop (fun xs r => tracks_get ?_) ([] : List Stmt)
  have saturated : (c.reader r).isSaturated = r.isSaturated := rfl
  rw [c.reader_kind, saturated]
  refine .ite (fun _ => tracks_pure (by simp)) fun _ => ?_
  refine (h.stmt r).attempt_bind (fun x r => ?_) fun d r => ?_
  · exact tracks_skip.bind fun _ _ => tracks_pure (by simp)
  · -- The statement is left out, and whether a token is skipped does not matter any more.
    have rest (r : Reader) : Tracks c (uses c.old xs) r
        (skipSemicolons >>= fun _ => pure (.inl xs : List Stmt ⊕ List Stmt))
        (skipSemicolons >>= fun _ => pure (.inl (edit c.edit xs))) :=
      tracks_skip.bind fun _ _ => tracks_pure ⟨by simp, rfl⟩
    exact Tracks.reports (.current_first (.skip_first rest))

theorem block : Tracks c 0 r g.block g.block :=
  tracks_expect.bind fun _ _ => h.statements.bind fun xs _ => tracks_expect.bind fun _ _ =>
    tracks_pure ⟨by simp; omega, rfl⟩

theorem fieldInit : Tracks c 0 r g.fieldInit g.fieldInit := by
  refine tracks_expect.bind fun t r => ?_
  generalize hv : (edit c.edit t).value = v
  apply tracks_value hv
  exact tracks_expect.bind fun _ r => (h.expr .comma r).bind fun e _ =>
    tracks_pure ⟨Nat.le_add_right _ _, rfl⟩

theorem structLit {name : Token} :
    Tracks c (uses c.old name) r (g.structLit name) (g.structLit (c.move name)) := by
  unfold Nested.structLit
  have moved : c.move name = edit c.edit name := rfl
  rw [moved]
  generalize hv : (edit c.edit name).value = v
  apply tracks_value (k := 0) hv
  refine tracks_expect.bind fun _ r =>
    Tracks.bind (tracks_loop (fun fs r => ?_) ([] : List FieldInit))
    fun fs _ => tracks_expect.bind fun _ _ => tracks_qualify
      (tracks_pure ⟨by simp; omega, by simp⟩)
  refine tracks_kind (.ite (fun _ => tracks_pure (by simp)) fun _ => ?_)
  refine h.fieldInit.bind fun f r => tracks_kind ?_
  cases r.kind with
  | comma | semicolon => exact tracks_advance.bind fun _ _ => tracks_pure (by simp)
  | closeCurly => exact tracks_pure (by simp)
  | _ => exact tracks_unexpected_bind

theorem builtinCall {token name : Token} : Tracks c (uses c.old name) r (g.builtinCall token name)
      (g.builtinCall (c.move token) (c.move name)) := by
  unfold Nested.builtinCall
  have moved : c.move name = edit c.edit name := rfl
  rw [moved]
  generalize hv : (edit c.edit name).value = v
  apply tracks_value (k := 0) hv
  cases Builtin.ofName? name.value with
  | none => exact tracks_failAt
  | some b =>
    refine tracks_expect.bind fun _ r => (tracks_builtinTypes b.typeArgs r).bind fun types _ => ?_
    exact h.arguments.bind fun args _ =>
      tracks_pure (by simp)

theorem atExpr : Tracks c 0 r g.atExpr g.atExpr :=
  tracks_advance.bind fun _ _ => tracks_expect.bind fun _ _ => tracks_kind (.ite
    (fun _ => h.structLit.mono (by simp)) fun _ => h.builtinCall.mono (by simp))

theorem arrayLit : Tracks c 0 r g.arrayLit g.arrayLit :=
  tracks_current (tracks_type.bind fun _ _ => tracks_expect.bind fun _ _ =>
    h.arguments.bind fun _ _ => tracks_pure (by simp))

theorem functionLit : Tracks c 0 r g.functionLit g.functionLit := by
  refine tracks_expect.bind fun _ _ => tracks_params.bind fun ps _ =>
    tracks_resultBeforeBody.bind fun result _ => h.block.bind fun body _ => ?_
  obtain ⟨ps, close⟩ := ps
  refine tracks_pure ⟨?_, by simp⟩
  exact Nat.le_trans (uses_function_le _ _ _ _ _) (by omega)

theorem first : Tracks c 0 r g.first g.first := by
  refine tracks_kind ?_
  cases r.kind.prefixForm? with
  | none => exact tracks_unknownExpr
  | some form =>
    cases form with
    | literal => exact tracks_literal
    | operator op =>
      exact tracks_advance.bind fun _ r => (h.expr .unary r).bind fun _ _ =>
        tracks_pure (by simp)
    | group =>
      exact tracks_advance.bind fun _ r => (h.expr .default r).bind fun _ _ =>
        tracks_expect.bind fun _ _ => tracks_pure ⟨by omega, rfl⟩
    | «at» => exact h.atExpr
    | array => exact h.arrayLit
    | function => exact h.functionLit

omit h in
theorem edit_binary (op : InfixOp) (left right : Expr) (ty : Ty) (token : Token) :
    uses c.old (⟨.binary op left right, ty, token⟩ : Expr) ≤ uses c.old left + uses c.old right ∧
      (uses c.old (⟨.binary op left right, ty, token⟩ : Expr) < uses c.old left + uses c.old right ∨
        (⟨.binary op (edit c.edit left) (edit c.edit right), ty, edit c.edit token⟩ : Expr) =
          edit c.edit (⟨.binary op left right, ty, token⟩ : Expr)) := by
  by_cases isDot : op = .dot
  · subst isDot
    have left_only : uses c.old (⟨.binary .dot left right, ty, token⟩ : Expr) = uses c.old left :=
      rfl
    have dot : edit c.edit (⟨.binary .dot left right, ty, token⟩ : Expr) =
        ⟨.binary .dot (edit c.edit left) (c.edit.member right), ty, edit c.edit token⟩ :=
      c.edit.expr_dot left right ty token
    rw [left_only, dot]
    refine ⟨by omega, ?_⟩
    obtain ⟨node, ty', token'⟩ := right
    cases node with
    | ident name =>
      by_cases same : token' = c.old
      · left
        rw [uses_ident, same]
        simp [uses]
      · right
        rw [edit_ident_of_ne same]
        rfl
    | _ => exact .inr rfl
  · have both : uses c.old (⟨.binary op left right, ty, token⟩ : Expr) =
        uses c.old left + uses c.old right := by
      by_cases isAssign : op = .assign
      · subst isAssign
        exact List.count_append.trans (Nat.add_comm _ _)
      · have lookups := Expr.lookups_binary isDot isAssign left right ty token
        exact (congrArg (List.count c.old) lookups).trans List.count_append
    exact ⟨Nat.le_of_eq both, .inr (c.edit.expr_binary isDot left right ty token).symm⟩

omit h in
theorem edit_memberOf (left member : Expr) (operator : Token) :
    uses c.old (memberOf left operator member) ≤ uses c.old left + uses c.old member ∧
      (uses c.old (memberOf left operator member) < uses c.old left + uses c.old member ∨
        memberOf (edit c.edit left) (edit c.edit operator) (edit c.edit member) =
          edit c.edit (memberOf left operator member)) := by
  have dot := edit_binary (c := c) .dot left member .todo operator
  obtain ⟨node, ty, token⟩ := left
  cases node with
  | ident module =>
    obtain ⟨node', ty', token'⟩ := member
    cases node' with
    | structLit name module? fields =>
      have taken : memberOf ⟨.ident module, ty, token⟩ operator
          ⟨.structLit name module? fields, ty', token'⟩ =
            ⟨.structLit name (some module) fields, ty', token'⟩ := rfl
      rw [taken]
      rw [uses_ident]
      refine ⟨by simp, ?_⟩
      by_cases same : token = c.old
      · left
        simp [uses, same]
      · right
        rw [edit_ident_of_ne same]
        simp [memberOf]
    | binary op l m =>
      obtain ⟨m', same⟩ := c.edit.exists_expr_binary op l m ty' token'
      have edited : edit c.edit (⟨.binary op l m, ty', token'⟩ : Expr) =
        ⟨.binary op (edit c.edit l) m', ty', c.move token'⟩ := same
      rw [edited] at dot ⊢
      exact dot
    | _ => exact dot
  | binary op l m =>
    obtain ⟨m', same⟩ := c.edit.exists_expr_binary op l m ty token
    have edited : edit c.edit (⟨.binary op l m, ty, token⟩ : Expr) =
      ⟨.binary op (edit c.edit l) m', ty, c.move token⟩ := same
    rw [edited] at dot ⊢
    exact dot
  | _ => exact dot

theorem extend {left : Expr} (form : InfixForm) :
    Tracks c (uses c.old left) r (g.extend left form) (g.extend (edit c.edit left) form) := by
  cases form with
  | operator op =>
    refine tracks_advance.bind fun token r => (h.expr _ r).bind fun right _ => ?_
    obtain ⟨le, same⟩ := edit_binary (c := c) op left right .todo token
    refine tracks_pure_of ?_ (same.imp (fun less => ?_) id)
    · exact Nat.le_trans le (by omega)
    · exact Nat.lt_of_lt_of_le less (by omega)
  | comma =>
    refine (Tracks.pass (tracks_loop (fun items r => ?_) [left]) fun items _ => ?_).mono (by simp)
    · refine tracks_kind (.ite (fun _ => ?_) fun _ => tracks_pure (by simp))
      exact tracks_advance.bind fun _ r => (h.expr .comma r).bind fun _ _ => tracks_pure (by simp)
    · exact tracks_pure ⟨by simp, by simp [c.edit.token_expr left]⟩
  | cast =>
    exact tracks_advance.bind fun _ _ => tracks_type.bind fun ty _ =>
      tracks_pure (by simp)
  | call =>
    exact tracks_advance.bind fun _ _ => h.arguments.bind fun args _ =>
      tracks_pure ⟨by simp; omega, by simp⟩
  | index =>
    exact tracks_advance.bind fun _ r => (h.expr .default r).bind fun index _ =>
      tracks_expect.bind fun _ _ => tracks_pure ⟨by simp; omega, by simp⟩
  | member =>
    refine tracks_advance.bind fun token r => (h.expr .member r).bind fun member _ => ?_
    obtain ⟨le, same⟩ := edit_memberOf (c := c) left member token
    exact tracks_pure_of (by omega) (same.imp (fun _ => by omega) id)

theorem expression (power : Power) : Tracks c 0 r (g.expression power) (g.expression power) := by
  refine h.first.bind fun left r => (tracks_loop (fun e r => tracks_kind ?_) left).mono (by simp)
  cases r.kind.infixForm? with
  | none => exact tracks_pure (by simp)
  | some form =>
    refine .ite (fun _ => ?_) fun _ => tracks_pure (by simp)
    exact (h.extend form).pass fun e _ => tracks_pure (by simp)

end Nested.Tracked

namespace Parse

open Editable

variable {c : Replacement} {r : Reader}

theorem tracks_statementOf {token : Token} {e : Expr} :
    Tracks c (uses c.old e) r (statementOf token e)
      (statementOf (c.move token) (edit c.edit e)) := by
  obtain ⟨node, ty, token'⟩ := e
  cases node with
  | binary op left right =>
    by_cases isAssign : op = .assign
    · subst isAssign
      have edited : edit c.edit (⟨.binary .assign left right, ty, token'⟩ : Expr) =
          ⟨.binary .assign (edit c.edit left) (edit c.edit right), ty, c.move token'⟩ :=
        c.edit.expr_binary (by decide) left right ty token'
      have target : (edit c.edit left).isAssignable = left.isAssignable :=
        c.edit.isAssignable_expr left
      simp only [edited, statementOf, target]
      exact .ite (fun _ => tracks_pure ⟨Nat.le_refl _, rfl⟩) fun _ => tracks_failAt
    · obtain ⟨right', edited⟩ := c.edit.exists_expr_binary op left right ty token'
      have same : edit c.edit (⟨.binary op left right, ty, token'⟩ : Expr) = _ := edited
      rw [same, statementOf_binary isAssign, statementOf_binary isAssign, ← edited]
      exact tracks_pure ⟨Nat.le_refl _, rfl⟩
  | _ => exact tracks_pure ⟨Nat.le_refl _, rfl⟩

theorem tracks_declaredType : Tracks c 0 r declaredType declaredType :=
  tracks_kind (.ite (fun _ => tracks_pure (by simp)) fun _ => tracks_type)

theorem tracks_declaredNames (items : List Expr) (r : Reader) :
    Tracks c (uses c.old items) r (declaredNames items) (declaredNames (edit c.edit items)) := by
  induction items generalizing r with
  | nil => exact tracks_pure (by simp)
  | cons e es ih =>
    obtain ⟨node, ty, token⟩ := e
    cases node with
    | ident name =>
      have rest : Tracks c (uses c.old es) r (do return name :: (← declaredNames es))
          (do return name :: (← declaredNames (edit c.edit es))) :=
        (ih r).pass fun names _ => tracks_pure (by simp)
      rw [uses_cons, uses_ident]
      refine tracks_token rest fun other => ?_
      rw [edit_cons, edit_ident_of_ne other]
      exact rest
    | _ => exact tracks_failAt

theorem tracks_fields : Tracks c 0 r fields fields := by
  refine tracks_expect.bind fun _ r => Tracks.bind (tracks_loop (fun fs r => ?_) ([] : List Field))
    fun fs _ => tracks_expect.bind fun _ _ => tracks_pure (by simp)
  refine tracks_kind (.ite (fun _ => tracks_pure (by simp)) fun _ => ?_)
  refine tracks_expect.bind fun t r => ?_
  generalize hv : (edit c.edit t).value = v
  apply tracks_value hv
  exact tracks_type.bind fun ty _ => tracks_skip.bind fun _ _ => tracks_pure (by simp)

theorem tracks_recordDecl {kind : RecordKind} :
    Tracks c 0 r (recordDecl kind) (recordDecl kind) := by
  refine tracks_advance.bind fun token _ => tracks_expect.bind fun t r => ?_
  generalize hv : (edit c.edit t).value = v
  apply tracks_value hv
  exact tracks_fields.bind fun fs _ => tracks_qualify (tracks_freshId.bind fun id _ =>
    tracks_pure (by simp))

theorem tracks_externalDecl : Tracks c 0 r externalDecl externalDecl := by
  refine tracks_advance.bind fun token _ => tracks_expect.bind fun _ _ =>
    tracks_expect.bind fun t r => ?_
  generalize hv : (edit c.edit t).value = v
  apply tracks_value hv
  refine tracks_params.bind fun ps _ => ?_
  obtain ⟨ps, close⟩ := ps
  exact (tracks_resultAfter fun _ => tracks_type).bind fun result _ =>
    tracks_pure (by simp)

theorem tracks_importDecl : Tracks c 0 r importDecl importDecl := by
  refine tracks_advance.bind fun token _ => tracks_expect.bind fun t r => ?_
  generalize hv : (edit c.edit t).value = v
  apply tracks_value hv
  refine Tracks.bind (tracks_loop (fun types r => ?_) ([] : List Ty)) fun types r => ?_
  · refine tracks_expect.bind fun _ _ => tracks_kind (.ite (fun _ => ?_) fun _ => ?_)
    · exact tracks_pure (by simp)
    · exact tracks_type.bind fun ty _ => tracks_pure (by simp)
  · refine tracks_expect.bind fun path r => ?_
    generalize hp : (edit c.edit path).value = w
    apply tracks_value hp
    exact tracks_qualify (tracks_pure (by simp))

theorem tracks_defineGeneric {k : Nat} {name : String} {ty : Ty} :
    Tracks c k r (defineGeneric name ty) (defineGeneric name ty) :=
  tracks_modify (fun fit => ⟨fit.unit, fit.eof, fit.limit⟩) id (Nat.le_refl _) rfl

theorem tracks_genericDecl : Tracks c 0 r genericDecl genericDecl := by
  refine tracks_advance.bind fun token _ => tracks_expect.bind fun t r => ?_
  generalize hv : edit c.edit t = t'
  have declare (ty : Ty) (r : Reader) :
      Tracks c (uses c.old t + (uses c.old token + 0)) r
        (defineGeneric t.value ty >>= fun _ => pure (Stmt.generic token t.value ty))
        (defineGeneric t'.value ty >>=
          fun _ => pure (Stmt.generic (edit c.edit token) t'.value ty)) := by
    generalize ht : t'.value = v
    rw [← hv] at ht
    apply tracks_value ht
    exact tracks_defineGeneric.bind fun _ _ => tracks_pure (by simp)
  refine tracks_nextTypeArg.bind fun ty? r => ?_
  cases ty? with
  | some ty => exact (declare ty r).mono (by simp)
  | none => exact (declare .todo _).reports.tracks

end Parse

namespace Nested.Tracked

open Parse Editable

variable {c : Replacement} {g : Nested} {r : Reader} (h : g.Tracked c)

include h

theorem declaration : Tracks c 0 r g.declaration g.declaration := by
  refine tracks_expect.bind fun t r => ?_
  generalize hv : (edit c.edit t).value = v
  apply tracks_value hv
  exact tracks_expect.bind fun _ _ => tracks_declaredType.bind fun ty _ =>
    tracks_expect.bind fun _ r => (h.expr .default r).bind fun value _ =>
      tracks_qualify (tracks_pure (by simp))

theorem declareAll {token : Token} {items : List Expr} :
    Tracks c (uses c.old items) r (g.declareAll token items)
      (g.declareAll (c.move token) (edit c.edit items)) := by
  refine tracks_expect.bind fun _ _ => tracks_declaredType.bind fun ty _ =>
    tracks_expect.bind fun _ r => (h.expr .default r).bind fun value r => ?_
  refine Tracks.mono (k := uses c.old items + uses c.old value) ?_ (by simp; omega)
  exact (tracks_declaredNames items r).bind_of fun names _ =>
    tracks_pure (by simp)

theorem body : Tracks c 0 r g.body g.body :=
  tracks_kind (.ite (fun _ => h.block) fun _ => (h.stmt r).bind fun _ _ =>
    tracks_pure ⟨by simp, rfl⟩)

theorem branch : Tracks c 0 r g.branch g.branch :=
  (h.expr .default r).bind fun condition _ => h.body.bind fun body _ =>
    tracks_pure ⟨Nat.le_trans (uses_branch_le _ _ _) (by omega), by simp⟩

theorem choose : Tracks c 0 r g.choose g.choose := by
  refine tracks_advance.bind fun token _ => h.branch.bind fun first r => ?_
  refine Tracks.bind (tracks_loop (fun more r => ?_) ([] : List Branch)) fun x _ => ?_
  · refine tracks_kind (.ite (fun _ => tracks_pure (by simp)) fun _ => ?_)
    refine tracks_advance.bind fun _ r => tracks_kind (.ite (fun _ => ?_) fun _ => ?_)
    · exact h.body.bind fun body _ => tracks_pure ⟨by simp; omega, by simp⟩
    · exact tracks_advance.bind fun _ _ => h.branch.bind fun b _ =>
        tracks_pure ⟨by simp; omega, by simp⟩
  · obtain ⟨more, otherwise⟩ := x
    exact tracks_pure ⟨Nat.le_trans (uses_choose_le _ _ _ _ _) (by simp; omega), by simp⟩

theorem loopCondition : Tracks c 0 r g.loopCondition g.loopCondition :=
  tracks_kind (.ite (fun _ => tracks_pure (by simp)) fun _ =>
    (h.expr .default r).bind fun _ _ => tracks_pure (by simp))

theorem loopPost : Tracks c 0 r g.loopPost g.loopPost := by
  refine tracks_kind (.ite (fun _ => tracks_pure (by simp)) fun _ => ?_)
  refine tracks_advance.bind fun _ r => tracks_kind (.ite (fun _ => ?_) fun _ => ?_)
  · exact tracks_pure (by simp)
  · exact (h.stmt r).bind fun _ _ => tracks_pure (by simp)

theorem loopClauses {token : Token} {init : Stmt} :
    Tracks c (uses c.old init) r (g.loopClauses token init)
      (g.loopClauses (c.move token) (edit c.edit init)) := by
  refine tracks_advance.bind fun _ _ => h.loopCondition.bind fun condition _ =>
    h.loopPost.bind fun post _ => tracks_skip.bind fun _ _ => h.block.bind fun body _ => ?_
  exact tracks_pure ⟨Nat.le_trans (uses_loop_le _ _ _ _ _ _) (by simp; omega), by simp⟩

theorem loopStmt : Tracks c 0 r g.loopStmt g.loopStmt := by
  refine tracks_advance.bind fun token r => tracks_kind (.ite (fun _ => ?_) fun _ => ?_)
  · exact h.block.bind fun body _ =>
      tracks_pure ⟨Nat.le_trans (uses_loop_le _ _ _ _ _ _) (by simp), by simp⟩
  · refine (h.stmt r).bind fun first r => tracks_kind ?_
    cases r.kind with
    | openCurly =>
      cases first with
      | expression _ condition =>
        exact h.block.bind fun body _ =>
          tracks_pure ⟨Nat.le_trans (uses_loop_le _ _ _ _ _ _) (by simp; omega), by simp⟩
      | _ => exact tracks_unexpected
    | semicolon => exact h.loopClauses.mono (by simp)
    | _ => exact tracks_pure ⟨Nat.le_trans (uses_loop_le _ _ _ _ _ _) (by simp), by simp⟩

theorem functionDecl : Tracks c 0 r g.functionDecl g.functionDecl := by
  refine tracks_advance.bind fun token _ => tracks_expect.bind fun t r => ?_
  generalize hv : (edit c.edit t).value = v
  apply tracks_value hv
  refine tracks_params.bind fun ps _ => tracks_resultBeforeBody.bind fun result _ =>
    h.block.bind fun body _ => tracks_qualify ?_
  obtain ⟨ps, close⟩ := ps
  exact tracks_pure ⟨Nat.le_trans (uses_functionDecl_le _ _ _ _) (by omega), by simp⟩

theorem returnStmt : Tracks c 0 r g.returnStmt g.returnStmt := by
  refine tracks_advance.bind fun token r => tracks_kind ?_
  cases r.kind with
  | semicolon | closeCurly | eof => exact tracks_pure (by simp)
  | _ => exact (h.expr .default r).bind fun _ _ => tracks_pure (by simp)

theorem exprStmt : Tracks c 0 r g.exprStmt g.exprStmt := by
  refine tracks_current ((h.expr .default r).bind fun e r₁ => tracks_kind ?_)
  have alone : Tracks c (uses c.old e + 0) r₁ (statementOf r.current e)
      (statementOf (c.move r.current) (edit c.edit e)) := tracks_statementOf
  obtain ⟨node, ty, token⟩ := e
  generalize r₁.kind = kind
  cases node with
  | comma items =>
    cases kind with
    | colon =>
      have edited : edit c.edit (⟨.comma items, ty, token⟩ : Expr) =
        ⟨.comma (edit c.edit items), ty, c.move token⟩ := by simp
      rw [edited]
      exact h.declareAll.mono (by simp)
    | _ => exact alone
  | binary op left right =>
    obtain ⟨right', same⟩ := c.edit.exists_expr_binary op left right ty token
    have edited : edit c.edit (⟨.binary op left right, ty, token⟩ : Expr) = _ := same
    rw [edited] at alone ⊢
    exact alone
  | _ => exact alone

theorem statement : Tracks c 0 r g.statement g.statement := by
  refine tracks_get ?_
  simp only [c.reader_kind, c.reader_peek_kind]
  split
  · exact h.choose
  · exact h.loopStmt
  · exact tracks_recordDecl
  · exact h.functionDecl
  · exact h.returnStmt
  · exact tracks_importDecl
  · exact tracks_advance.bind fun _ _ => tracks_pure ⟨by simp [uses, Stmt.lookups], rfl⟩
  · exact tracks_advance.bind fun _ _ => tracks_pure ⟨by simp [uses, Stmt.lookups], rfl⟩
  · exact tracks_externalDecl
  · exact tracks_genericDecl
  · exact .ite (fun _ => h.declaration) fun _ => h.exprStmt

end Nested.Tracked

namespace Nested

theorem tracked_within (c : Replacement) (n : Nat) : (within n).Tracked c := by
  induction n with
  | zero => exact ⟨fun _ _ => Parse.tracks_unexpected, fun _ => Parse.tracks_unexpected⟩
  | succ n ih => exact ⟨fun power _ => ih.expression power, fun _ => ih.statement⟩

end Nested

end FrontEnd
