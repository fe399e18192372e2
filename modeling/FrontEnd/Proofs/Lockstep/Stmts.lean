import FrontEnd.Proofs.Lockstep.Types

namespace FrontEnd.Comparison

open Check CheckState

variable {C : Comparison} {imp imp' : Importer} {s t : CheckState}

/-- What two units come to: both fail, or the second is the first under other ids. -/
inductive Results (C : Comparison) :
    Except (List Diagnostic) CheckedUnit → Except (List Diagnostic) CheckedUnit → Prop
  | failed {ds es : List Diagnostic} (given : C.reports.given ds es) :
      Results C (.error ds) (.error es)
  | checked {unit : CheckedUnit} (recorded : unit.env.Recorded) :
      Results C (.ok unit) (.ok (C.names.checkedUnit unit))

def Importers (C : Comparison) (imp imp' : Importer) : Prop :=
  ∀ source path typeArgs s t r s', C.Sessions s t → imp source path typeArgs s = .ok (r, s') →
    ∃ r' t', imp' source path (typeArgs.map C.names.type) t = .ok (r', t') ∧ C.Results r r' ∧
      C.Sessions s' t'

theorem follows_importUnit (h : C.Importers imp imp') {token : Token} {name : String}
    {typeArgs : List Ty} {path : String} :
    C.Follows imp imp' s t id (importUnit token name typeArgs path)
      (importUnit token (C.names.name name) (typeArgs.map C.names.type) path) := by
  intro states u s' runs
  have file : importedFile t path = importedFile s path := by
    rw [importedFile, importedFile, states.env, C.names.environment_directory]
  have loader {session session' : Session} (sessions : C.Sessions session session') {r}
      (read : session.loader.read (importedFile s path) = r) :
      session'.loader.read (importedFile t path) = r := by
    rw [sessions.loader, file, read]
  cases runs_importUnit.mp runs with
  | cycle begins =>
    have begins' := states.session.begin?_none begins
    rw [← file] at begins'
    refine ⟨_, runs_importUnit.mpr (.cycle begins'), states.note ?_⟩
    rw [file, Session.chain, Session.chain, states.session.importing]
    exact C.reports.same_refl _
  | unavailable begins noText =>
    obtain ⟨session', begins', sessions⟩ := states.session.begin?_some begins
    have noText' := loader sessions noText
    rw [← file] at begins'
    refine ⟨_, runs_importUnit.mpr (.unavailable begins' noText'), ?_⟩
    rw [file]
    exact (states.withSession (sessions.finish _)).note_self _
  | failed begins text checked =>
    obtain ⟨session', begins', sessions⟩ := states.session.begin?_some begins
    have text' := loader sessions text
    obtain ⟨r', after, checked', results, sessions'⟩ := h _ _ _ _ _ _ _ sessions checked
    cases results with
    | failed given =>
      rw [← file] at begins' checked'
      refine ⟨_, runs_importUnit.mpr (.failed begins' text' checked'), ?_⟩
      rw [file]
      have left := states.withSession (sessions'.finish (importedFile s path))
      exact (left.note (C.reports.same_failed given path token.start)).foldl_note given
  | loaded begins text checked =>
    obtain ⟨session', begins', sessions⟩ := states.session.begin?_some begins
    have text' := loader sessions text
    obtain ⟨r', after, checked', results, sessions'⟩ := h _ _ _ _ _ _ _ sessions checked
    cases results with
    | checked recorded =>
      rw [← file] at begins' checked'
      refine ⟨_, runs_importUnit.mpr (.loaded begins' text' checked'), ?_⟩
      rw [file]
      exact (states.withSession (sessions'.finish _)).insertModule name recorded

theorem follows_condition {token : Token} {e : Expr}
    (he : ∀ {s t}, C.Follows imp imp' s t C.names.map.tree.expr (expr e)
      (expr (C.names.map.tree.expr e))) :
    C.Follows imp imp' s t C.names.map.tree.expr (Item.condition token e).check
      (Item.condition token (C.names.map.tree.expr e)).check := by
  refine he.bind fun e s t => ?_
  rw [C.names.ty_expr]
  exact follows_checkCondition.map rfl

theorem follows_body {xs : List Stmt}
    (hx : ∀ {s t}, C.Follows imp imp' s t C.names.map.tree.stmts (stmts xs)
      (stmts (C.names.map.tree.stmts xs))) :
    C.Follows imp imp' s t (Prod.map C.names.map.tree.stmts id) (Item.body xs).check
      (Item.body (C.names.map.tree.stmts xs)).check :=
  follows_enterBranch.then <| hx.then <| follows_leaveBranch.map rfl

mutual

theorem follows_expr (h : C.Importers imp imp') : ∀ (e : Expr) {s t : CheckState},
    C.Follows imp imp' s t C.names.map.tree.expr (expr e) (expr (C.names.map.tree.expr e))
  | ⟨.ident name, _, token⟩, _, _ => follows_identType.map rfl
  | ⟨.integer _, _, _⟩, _, _ | ⟨.float _, _, _⟩, _, _ | ⟨.string _, _, _⟩, _, _ => follows_pure rfl
  | ⟨.binary op left right, _, token⟩, _, _ => by
    cases op with
    | dot =>
      refine follows_moduleOf?.bind fun m? s t => ?_
      cases m? with
      | some m =>
        refine follows_moduleMember.bind fun p _ _ => follows_pure ?_
        have name : (C.names.map.tree.expr left).name?.getD "" =
            C.names.name (left.name?.getD "") := by
          rw [C.names.name?_expr]
          cases left.name? with
          | none => exact (C.names.plain (by simp)).symm
          | some name => rfl
        rw [name]
        exact congrArg (fun left => Expr.mk (.binary .dot left _) _ token)
          (C.names.expr_withType left (.module (left.name?.getD "")))
      | none =>
        refine (follows_expr h left).bind fun left s t => ?_
        rw [C.names.ty_expr]
        exact follows_fieldAccess.bind fun p _ _ => follows_pure rfl
    | assign =>
      exact (follows_expr h right).then <| (follows_expr h left).then <| follows_failed rfl rfl
    | _ =>
      refine (follows_expr h left).bind fun left _ _ =>
        (follows_expr h right).bind fun right s t => ?_
      rw [C.names.ty_expr, C.names.ty_expr]
      exact follows_binaryType.map rfl
  | ⟨.unary op operand, _, token⟩, _, _ => by
    refine (follows_expr h operand).bind fun operand s t => ?_
    rw [C.names.ty_expr]
    exact follows_unaryType.map rfl
  | ⟨.index base index, _, token⟩, _, _ => by
    refine (follows_expr h base).bind fun base _ _ =>
      (follows_expr h index).bind fun index s t => ?_
    rw [C.names.ty_expr, C.names.ty_expr]
    exact follows_indexType.map rfl
  | ⟨.call callee args, _, token⟩, _, _ => by
    refine (follows_expr h callee).bind fun callee _ _ => follows_calleeSignature.bind
      fun sig? s t => ?_
    cases sig? with
    | none => exact (follows_exprs h args).map rfl
    | some sig =>
      have rest (s t : CheckState) : C.Follows imp imp' s t C.names.map.tree.expr
          (do let args ← exprsAgainst sig.params args
              return ⟨.call callee args, ← resolveValue sig.result token, token⟩)
          (do let args ← exprsAgainst (sig.params.map C.names.type) (C.names.map.tree.exprs args)
              return ⟨.call (C.names.map.tree.expr callee) args,
                ← resolveValue (C.names.type sig.result) token, token⟩) :=
        (follows_exprsAgainst h sig.params args).then <| follows_resolveValue.map rfl
      have given : (C.names.map.tree.exprs args).length = args.length := by
        rw [C.names.map.tree.exprs_eq_map, List.length_map]
      have taken : (C.names.map.signature sig).params.length = sig.params.length :=
        List.length_map _
      dsimp only [Option.map_some]
      rw [given, taken]
      exact .ite (fun _ => follows_error.bind fun _ s t => rest s t) fun _ => rest s t
  | ⟨.builtin name typeArgs args, _, token⟩, _, _ => by
    have given : (C.names.map.tree.exprs args).length = args.length := by
      rw [C.names.map.tree.exprs_eq_map, List.length_map]
    rw [Relabelling.expr, expr, expr, given]
    refine follows_builtin?.bind fun b? s t => ?_
    cases b? with
    | none => exact (follows_exprs h args).map rfl
    | some b =>
      refine follows_resolveTypeArgs.bind fun types s t => ?_
      have head : (types.map C.names.type).headD .todo = C.names.type (types.headD .todo) := by
        cases types <;> rfl
      rw [head]
      exact (follows_builtinCall h b _ token args).map rfl
  | ⟨.structLit name module? fields, _, token⟩, _, _ => by
    refine follows_literalRecord.bind fun p s t => ?_
    obtain ⟨name, decl?⟩ := p
    cases decl? with
    | none => exact (follows_fieldValues h fields).map rfl
    | some decl =>
      exact (follows_fieldsAgainst h decl [] fields).then <|
        follows_pure (congrArg (Expr.mk _ · token) (C.names.type_record decl))
  | ⟨.arrayLit ty elements, _, token⟩, _, _ => by
    refine follows_resolveAll.bind fun ty s t => ?_
    match ty with
    | .array element length =>
      have rest (s t : CheckState) : C.Follows imp imp' s t C.names.map.tree.expr
          (do return ⟨.arrayLit (.array element length) (← elementsAgainst element elements),
                .array element length, token⟩)
          (do return ⟨.arrayLit (.array (C.names.type element) length)
                (← elementsAgainst (C.names.type element) (C.names.map.tree.exprs elements)),
                .array (C.names.type element) length, token⟩) :=
        (follows_elementsAgainst h element elements).map rfl
      have given : (C.names.map.tree.exprs elements).length = elements.length := by
        rw [C.names.map.tree.exprs_eq_map, List.length_map]
      dsimp only [Renaming.type]
      rw [given]
      exact .ite (fun _ => follows_error.bind fun _ s t => rest s t) fun _ => rest s t
    | .record ⟨_, _, _, _⟩ | .func ⟨_, _, _, _⟩ | .void | .int _ | .uint _ | .float _ | .pointer _
    | .named _ | .module _ | .todo =>
      exact (follows_exprs h elements).map rfl
  | ⟨.comma items, _, token⟩, _, _ =>
    (follows_exprs h items).then <| follows_failed rfl rfl
  | ⟨.function sig body, _, token⟩, _, _ => by
    refine follows_resolveSignature.bind fun sig s t => follows_get fun states => ?_
    rw [states.barrier]
    refine Follows.bind (f := id) (follows_modify fun states => ?_) fun _ s t =>
      follows_enterFunction fun around around' s t outside => ?_
    · refine { states with barrier := congrArg some ?_ }
      rw [states.env, C.names.environment_vars, Scopes.depth_map]
    · refine (follows_stmts h body).bind fun body _ _ => (follows_leaveFunction outside).bind
        fun _ _ _ => Follows.bind (f := id) (follows_modify fun states => ?_) fun _ _ _ =>
          follows_pure (congrArg (Expr.mk _ · token) (C.names.type_func sig))
      exact { states with barrier := rfl }

theorem follows_exprs (h : C.Importers imp imp') : ∀ (es : List Expr) {s t : CheckState},
    C.Follows imp imp' s t C.names.map.tree.exprs (exprs es) (exprs (C.names.map.tree.exprs es))
  | [], _, _ => follows_pure rfl
  | e :: es, _, _ => (follows_expr h e).then <| (follows_exprs h es).map rfl

theorem follows_exprsAgainst (h : C.Importers imp imp') : ∀ (params : List Ty) (es : List Expr)
    {s t : CheckState}, C.Follows imp imp' s t C.names.map.tree.exprs (exprsAgainst params es)
      (exprsAgainst (params.map C.names.type) (C.names.map.tree.exprs es))
  | _, [], _, _ => follows_pure rfl
  | [], e :: es, _, _ => (follows_expr h e).then <| (follows_exprsAgainst h [] es).map rfl
  | param :: params, e :: es, _, _ => by
    refine (follows_expr h e).bind fun e s t => ?_
    rw [C.names.ty_expr, C.names.token_expr]
    exact follows_expectEqual.then <| (follows_exprsAgainst h params es).map rfl

theorem follows_elementsAgainst (h : C.Importers imp imp') : ∀ (element : Ty) (es : List Expr)
    {s t : CheckState}, C.Follows imp imp' s t C.names.map.tree.exprs (elementsAgainst element es)
      (elementsAgainst (C.names.type element) (C.names.map.tree.exprs es))
  | _, [], _, _ => follows_pure rfl
  | element, e :: es, _, _ => by
    refine (follows_expr h e).bind fun e s t => ?_
    rw [C.names.ty_expr, C.names.token_expr]
    exact follows_expectEqual.then <| (follows_elementsAgainst h element es).map rfl

theorem follows_fieldValues (h : C.Importers imp imp') : ∀ (fs : List FieldInit)
    {s t : CheckState}, C.Follows imp imp' s t C.names.map.tree.fields (fieldValues fs)
      (fieldValues (C.names.map.tree.fields fs))
  | [], _, _ => follows_pure rfl
  | ⟨_, value⟩ :: fs, _, _ => (follows_expr h value).then <| (follows_fieldValues h fs).map rfl

theorem follows_fieldsAgainst (h : C.Importers imp imp') : ∀ (decl : Record) (seen : List String)
    (fs : List FieldInit) {s t : CheckState},
    C.Follows imp imp' s t C.names.map.tree.fields (fieldsAgainst decl seen fs)
      (fieldsAgainst (C.names.map.record decl) seen (C.names.map.tree.fields fs))
  | _, _, [], _, _ => follows_pure rfl
  | decl, seen, ⟨name, value⟩ :: fs, s, t => by
    have rest (s t : CheckState) : C.Follows imp imp' s t C.names.map.tree.fields
        (do let value ← expr value
            checkField decl name value
            return ⟨name, value⟩ :: (← fieldsAgainst decl (name :: seen) fs))
        (do let value ← expr (C.names.map.tree.expr value)
            checkField (C.names.map.record decl) name value
            return ⟨name, value⟩ :: (← fieldsAgainst (C.names.map.record decl) (name :: seen)
              (C.names.map.tree.fields fs))) :=
      (follows_expr h value).then <| follows_checkField.then <|
        (follows_fieldsAgainst h decl (name :: seen) fs).map rfl
    have token := C.names.token_expr value
    rw [Relabelling.fields, fieldsAgainst, fieldsAgainst, token]
    exact .ite (fun _ => follows_error.bind fun _ s t => rest s t) fun _ => rest s t

theorem follows_builtinCall (h : C.Importers imp imp') : ∀ (b : Builtin) (ty : Ty) (token : Token)
    (es : List Expr) {s t : CheckState},
    C.Follows imp imp' s t (Prod.map C.names.map.tree.exprs C.names.type)
      (builtinCall b ty token es)
      (builtinCall b (C.names.type ty) token (C.names.map.tree.exprs es))
  | b, ty, token, [], s, t => by
    cases b with
    | sizeof | print | println => exact follows_pure rfl
    | unreachable =>
      refine follows_setReturns.bind fun _ s t => follows_get fun states => follows_pure ?_
      rw [states.expected]
      cases s.expected <;> rfl
    | asm => exact follows_failed rfl rfl
    | _ => exact follows_throw
  | b, ty, token, [e], s, t => by
    cases b with
    | cast =>
      refine (follows_expr h e).bind fun e s t => ?_
      rw [C.names.ty_expr]
      exact follows_castType.map rfl
    | alloc =>
      refine (follows_expr h e).bind fun e s t => ?_
      rw [C.names.ty_expr]
      exact follows_expectInteger.map rfl
    | free =>
      refine (follows_expr h e).bind fun e s t => ?_
      rw [C.names.ty_expr]
      exact follows_expectPointer.map rfl
    | print | println => exact (follows_expr h e).map rfl
    | asm =>
      exact follows_checkAssembly.then <| (follows_expr h e).map rfl
    | _ => exact follows_throw
  | b, ty, token, e :: e' :: es, s, t => by
    cases b with
    | realloc =>
      refine (follows_expr h e).bind fun e s t => ?_
      rw [C.names.ty_expr]
      refine follows_resolve.bind fun pointer _ _ => follows_expectPointer.then <|
        (follows_expr h e').bind fun e' s t => ?_
      rw [C.names.ty_expr]
      exact follows_expectInteger.map rfl
    | print | println =>
      exact (follows_expr h e).then <| (follows_expr h e').then <| (follows_exprs h es).map rfl
    | asm =>
      exact follows_checkAssembly.then <| (follows_expr h e).then <|
        (follows_expr h e').then <| (follows_exprs h es).map rfl
    | _ => exact follows_throw

theorem follows_stmt (h : C.Importers imp imp') : ∀ (x : Stmt) {s t : CheckState},
    C.Follows imp imp' s t C.names.map.tree.stmt (stmt x) (stmt (C.names.map.tree.stmt x))
  | .expression _ e, _, _ => (follows_expr h e).map rfl
  | .declare token name ty value, _, _ => by
    refine (follows_expr h value).bind fun value s t => ?_
    rw [C.names.ty_expr]
    exact follows_declaredType.then <| follows_declare.map rfl
  | .record token decl, _, _ => follows_recordDecl.map rfl
  | .break _, _, _ => follows_checkInLoop.map rfl
  | .continue _, _, _ => follows_checkInLoop.map rfl
  | .external token sig, _, _ => by
    refine follows_resolveSignature.bind fun sig s t => follows_get fun states => ?_
    have name : Name.qualify (C.names.map.signature sig).name t.env.id =
        C.names.name (Name.qualify sig.name s.env.id) := by
      rw [C.names.name_qualify, states.env, C.names.environment_id]
      rfl
    rw [name, ← C.names.type_func]
    exact follows_declare.map rfl
  | .importUnit token name typeArgs path, _, _ =>
    follows_resolveTypeArgs.then <| (follows_importUnit h).map rfl
  | .generic _ _ _, _, _ => follows_pure rfl
  | .declareAll token names ty types value, _, _ => by
    have values (s t : CheckState) : C.Follows imp imp' s t C.names.map.tree.expr
        (Item.list value).check (Item.list (C.names.map.tree.expr value)).check := by
      obtain ⟨node, ty, token⟩ := value
      cases node with
      | comma items => exact (follows_exprs h items).map rfl
      | _ => exact follows_expr h _
    rw [Relabelling.stmt, stmt_declareAll, stmt_declareAll]
    refine (values _ _).bind fun value s t => ?_
    rw [C.names.valueTypes_expr]
    exact follows_declaredAll.then <| follows_declareEach.map rfl
  | .assign token target value, _, _ => by
    have values (s t : CheckState) : C.Follows imp imp' s t C.names.map.tree.expr
        (Item.list value).check (Item.list (C.names.map.tree.expr value)).check := by
      obtain ⟨node, ty, token⟩ := value
      cases node with
      | comma items => exact (follows_exprs h items).map rfl
      | _ => exact follows_expr h _
    have targets (s t : CheckState) : C.Follows imp imp' s t C.names.map.tree.expr
        (Item.list target).check (Item.list (C.names.map.tree.expr target)).check := by
      obtain ⟨node, ty, token⟩ := target
      cases node with
      | comma items => exact (follows_exprs h items).map rfl
      | _ => exact follows_expr h _
    rw [Relabelling.stmt, stmt_assign, stmt_assign]
    refine (values _ _).bind fun value _ _ => (targets _ _).bind fun target s t => ?_
    rw [C.names.valueTypes_expr, C.names.valueTypes_expr]
    exact follows_checkAssignment.map rfl
  | .function token sig body, _, _ => by
    refine follows_resolveSignature.bind fun sig s t => ?_
    have declared : C.Follows imp imp' s t id (declare sig.name (.func sig))
        (declare (C.names.name sig.name) (.func (C.names.map.signature sig))) := by
      rw [← C.names.type_func]
      exact follows_declare
    refine declared.then <| follows_enterFunction fun around around' s t outside =>
      (follows_stmts h body).bind fun body s t => ?_
    have bare : Name.bare (C.names.map.signature sig).name = Name.bare sig.name :=
      C.names.bare_name sig.name
    rw [bare]
    exact (follows_leaveFunction outside).then <|
      (follows_modify fun states => states.recordFunction ⟨token, sig, body⟩).map rfl
  | .choose token ⟨condition, body⟩ more none, _, _ => by
    rw [Relabelling.stmt, stmt_choose, stmt_choose]
    exact (follows_condition (follows_expr h condition)).then <|
      (follows_body (follows_stmts h body)).then <|
        (follows_branches h token more).then <| follows_setReturns.map rfl
  | .choose token ⟨condition, body⟩ more (some block), _, _ => by
    rw [Relabelling.stmt, stmt_chooseElse, stmt_chooseElse]
    exact (follows_condition (follows_expr h condition)).then <|
      (follows_body (follows_stmts h body)).then <| (follows_branches h token more).then <|
          (follows_body (follows_stmts h block)).then <| follows_setReturns.map rfl
  | .loop token init condition post body, _, _ => by
    rw [C.names.map.tree.stmt_loop, stmt_loop, stmt_loop]
    have first (s t : CheckState) : C.Follows imp imp' s t (Option.map C.names.map.tree.stmt)
        (Item.clause init).check (Item.clause (init.map C.names.map.tree.stmt)).check := by
      cases init with
      | none => exact follows_pure rfl
      | some x => exact (follows_stmt h x).map rfl
    have guard (s t : CheckState) : C.Follows imp imp' s t (Option.map C.names.map.tree.expr)
        (Item.guard token condition).check
        (Item.guard token (condition.map C.names.map.tree.expr)).check := by
      cases condition with
      | none => exact follows_pure rfl
      | some e =>
        refine (follows_expr h e).bind fun e s t => ?_
        rw [C.names.ty_expr]
        exact follows_checkCondition.map rfl
    have last (s t : CheckState) : C.Follows imp imp' s t (Option.map C.names.map.tree.stmt)
        (Item.clause post).check (Item.clause (post.map C.names.map.tree.stmt)).check := by
      cases post with
      | none => exact follows_pure rfl
      | some x => exact (follows_stmt h x).map rfl
    exact follows_enterScope.then <| (first _ _).bind fun init _ _ =>
      (guard _ _).bind fun condition _ _ => (last _ _).bind fun post _ _ =>
        follows_enterLoop.then <| (follows_body (follows_stmts h body)).bind fun body _ _ =>
          follows_leaveLoop.then <| follows_setReturns.then <| follows_leaveScope.then <|
              follows_pure (C.names.map.tree.stmt_loop token init condition post body.1)
  | .return token value, _, _ => by
    rw [C.names.map.tree.stmt_return, stmt_return, stmt_return]
    have given (s t : CheckState) : C.Follows imp imp' s t (Option.map C.names.map.tree.expr)
        (Item.result value).check (Item.result (value.map C.names.map.tree.expr)).check := by
      cases value with
      | none => exact follows_pure rfl
      | some e => exact (follows_expr h e).map rfl
    refine (given _ _).bind fun value s t => ?_
    have type : (value.map C.names.map.tree.expr).elim .void (·.ty) =
        C.names.type (value.elim .void (·.ty)) := by
      cases value with
      | none => rfl
      | some e => exact C.names.ty_expr e
    rw [type]
    exact follows_checkReturn.then <| follows_pure (C.names.map.tree.stmt_return token value)

theorem follows_branches (h : C.Importers imp imp') (token : Token) : ∀ (bs : List Branch)
    {s t : CheckState}, C.Follows imp imp' s t (Prod.map C.names.map.tree.branches id)
      (branches token bs) (branches token (C.names.map.tree.branches bs))
  | [], _, _ => follows_pure rfl
  | ⟨condition, body⟩ :: bs, _, _ => by
    rw [Relabelling.branches, branches_cons, branches_cons]
    exact (follows_condition (follows_expr h condition)).then <|
      (follows_body (follows_stmts h body)).then <| (follows_branches h token bs).map rfl

theorem follows_stmts (h : C.Importers imp imp') : ∀ (xs : List Stmt) {s t : CheckState},
    C.Follows imp imp' s t C.names.map.tree.stmts (stmts xs) (stmts (C.names.map.tree.stmts xs))
  | [], _, _ => follows_pure rfl
  | x :: xs, _, _ => by
    refine follows_get fun states => ?_
    rw [states.returns]
    exact .ite (fun _ => follows_pure rfl) fun _ => (follows_stmt h x).then <|
      (follows_stmts h xs).map rfl

end

end FrontEnd.Comparison
