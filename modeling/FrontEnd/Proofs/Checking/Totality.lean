import FrontEnd.Proofs.Checking.Adequacy
import FrontEnd.Proofs.Checking.Frame
import FrontEnd.Proofs.Checking.Silent

namespace FrontEnd

open Check CheckState

def Importer.Total (imp : Importer) : Prop :=
  ∀ source path typeArgs session, ∃ r, imp source path typeArgs session = .ok r

section

variable {imp : Importer} {P : Law}
variable {s : CheckState} {e : Expr}

theorem takes_of_runs_builtin? {name : String} {n : Nat} {token : Token} {s' : CheckState}
    {b : Builtin} (h : Runs imp (builtin? name n token) s (some b) s') : b.Takes n := by
  unfold builtin? at h
  cases hb : Builtin.ofName? name with
  | none => simp [hb] at h
  | some b' =>
    simp only [hb] at h
    cases hp : b'.params with
    | none =>
      simp only [hp, runs_pure, Option.some.injEq] at h
      obtain ⟨rfl, rfl⟩ := h
      simp [Builtin.Takes, hp]
    | some m =>
      simp only [hp] at h
      by_cases hm : m = n
      · simp only [hm, if_true, runs_pure, Option.some.injEq] at h
        obtain ⟨rfl, rfl⟩ := h
        simp [Builtin.Takes, hp, hm]
      · simp [hm] at h

theorem imports_total (total : imp.Total) (token : Token) (name : String) (typeArgs : List Ty)
    (path : String) (s : CheckState) : ∃ s', Imports imp token name typeArgs path s s' := by
  cases begins : s.session.begin? (importedFile s path) with
  | none => exact ⟨_, .cycle begins⟩
  | some session =>
    cases text : session.loader.read (importedFile s path) with
    | error reason => exact ⟨_, .unavailable begins text⟩
    | ok source =>
      obtain ⟨⟨r, session'⟩, checked⟩ := total source (importedFile s path) typeArgs session
      cases r with
      | error ds => exact ⟨_, .failed begins text checked⟩
      | ok unit => exact ⟨_, .loaded begins text checked⟩

theorem recordDecl_total (imp : Importer) (token : Token) (decl : Record) (s : CheckState) :
    ∃ decl' s', Runs imp (recordDecl token decl) s decl' s' := by
  obtain ⟨fields?, ds, resolved⟩ :=
    (@notes_resolveFields token decl.name [] decl.fields).total imp
      (s.define decl.name (.record decl))
  cases fields? with
  | none => exact ⟨_, _, runs_recordDecl.mpr ⟨_, _, resolved, .inl ⟨rfl, rfl, rfl⟩⟩⟩
  | some fields => exact ⟨_, _, runs_recordDecl.mpr ⟨_, _, resolved, .inr ⟨_, rfl, rfl, rfl⟩⟩⟩

theorem checkReturn_total (imp : Importer) (token : Token) (got : Ty) (s : CheckState) :
    ∃ s', Runs imp (checkReturn token got) s () s' := by
  cases he : s.expected with
  | none => exact ⟨_, runs_checkReturn.mpr (.inl ⟨he, rfl⟩)⟩
  | some expected =>
    obtain ⟨_, ds, fits⟩ := (@notes_expectEqual token expected got).total imp s
    exact ⟨_, runs_checkReturn.mpr (.inr ⟨expected, _, he, fits, rfl⟩)⟩

/-- An importer whose runs can be relied on, and a law that holds of every checked expression. -/
structure Lawful (imp : Importer) (P : Law) : Prop where
  steady : imp.Steady
  total : imp.Total
  law : ∀ e s e' s', Runs imp (Check.expr e) s e' s' → P e s e' s'

theorem Lawful.any (steady : imp.Steady) (total : imp.Total) : Lawful imp fun _ _ _ _ => True :=
  ⟨steady, total, fun _ _ _ _ _ => trivial⟩

theorem expr_of_node (ok : Lawful imp P) (h : ∃ e' s', Checks imp P (.node e) s e' s') :
    ∃ e' s', Checks imp P (.expr e) s e' s' := by
  obtain ⟨e', s', h⟩ := h
  exact ⟨e', s', .expr h (ok.law e s e' s' h.runs)⟩

theorem list_of_expr (h : ∃ e' s', Checks imp P (.expr e) s e' s') :
    ∃ e' s', Checks imp P (.list e) s e' s' := by
  obtain ⟨e', s', h⟩ := h
  obtain ⟨node, t, token⟩ := e
  cases node
  case comma items =>
    cases h with
    | expr node _ =>
      cases node with
      | literal literal => exact absurd literal (by simp [Expr.isLiteral])
      | comma given => exact ⟨_, _, .commas given⟩
  all_goals exact ⟨_, _, .single (by simp) h⟩

theorem condition_of_expr (token : Token) (h : ∃ e' s', Checks imp P (.expr e) s e' s') :
    ∃ e' s', Checks imp P (.condition token e) s e' s' := by
  obtain ⟨e', s₁, value⟩ := h
  obtain ⟨_, ds, typed⟩ := (@notes_checkCondition token e'.ty).total imp s₁
  exact ⟨_, _, .condition value typed⟩

mutual

theorem total_expr (ok : Lawful imp P) :
    (e : Expr) → (s : CheckState) → ∃ e' s', Checks imp P (.expr e) s e' s'
  | ⟨.ident name, t, token⟩, s => expr_of_node ok <| by
    obtain ⟨ty, ds, typed⟩ := (@notes_identType token name).total imp s
    exact ⟨_, _, .ident typed⟩
  | ⟨.integer value, t, token⟩, s => expr_of_node ok ⟨_, _, .literal rfl⟩
  | ⟨.float value, t, token⟩, s => expr_of_node ok ⟨_, _, .literal rfl⟩
  | ⟨.string value, t, token⟩, s => expr_of_node ok ⟨_, _, .literal rfl⟩
  | ⟨.binary op left right, t, token⟩, s => expr_of_node ok <| by
    by_cases hd : op = .dot
    · subst hd
      cases hm : s.moduleOf? left with
      | some m =>
        obtain ⟨⟨right', ty⟩, ds, typed⟩ := (@notes_moduleMember token m right).total imp s
        exact ⟨_, _, .member hm typed⟩
      | none =>
        obtain ⟨left', s₁, object⟩ := total_expr ok left s
        obtain ⟨⟨right', ty⟩, ds, typed⟩ := (@notes_fieldAccess token left'.ty right).total imp s₁
        exact ⟨_, _, .field hm object typed⟩
    · by_cases ha : op = .assign
      · subst ha
        obtain ⟨right', s₁, value⟩ := total_expr ok right s
        obtain ⟨left', s₂, target⟩ := total_expr ok left s₁
        exact ⟨_, _, .misplaced value target⟩
      · obtain ⟨left', s₁, first⟩ := total_expr ok left s
        obtain ⟨right', s₂, second⟩ := total_expr ok right s₁
        obtain ⟨ty, ds, typed⟩ := (@notes_binaryType token op left'.ty right'.ty).total imp s₂
        exact ⟨_, _, .binary hd ha first second typed⟩
  | ⟨.unary op operand, t, token⟩, s => expr_of_node ok <| by
    obtain ⟨operand', s₁, first⟩ := total_expr ok operand s
    obtain ⟨ty, ds, typed⟩ := (@notes_unaryType token operand'.ty op).total imp s₁
    exact ⟨_, _, .unary first typed⟩
  | ⟨.index base index, t, token⟩, s => expr_of_node ok <| by
    obtain ⟨base', s₁, first⟩ := total_expr ok base s
    obtain ⟨index', s₂, second⟩ := total_expr ok index s₁
    obtain ⟨ty, ds, typed⟩ := (@notes_indexType token base'.ty index'.ty).total imp s₂
    exact ⟨_, _, .index first second typed⟩
  | ⟨.call callee args, t, token⟩, s => expr_of_node ok <| by
    obtain ⟨callee', s₁, called⟩ := total_expr ok callee s
    obtain ⟨sig?, ds, callable⟩ := (@notes_calleeSignature token callee').total imp s₁
    cases sig? with
    | none =>
      obtain ⟨args', s₂, given⟩ := total_exprs ok args (s₁.notes ds)
      exact ⟨_, _, .uncallable called callable given⟩
    | some sig =>
      obtain ⟨args', s₂, given⟩ := total_args ok sig.params args
        ((s₁.notes ds).noteUnless (args.length = sig.params.length)
          ⟨.check (.argumentCount sig.params.length args.length), token.start⟩)
      obtain ⟨ty, es, typed⟩ := (@notes_resolveValue token sig.result).total imp s₂
      exact ⟨_, _, .call called callable given typed⟩
  | ⟨.builtin name typeArgs args, t, token⟩, s => expr_of_node ok <| by
    obtain ⟨b?, ds, known⟩ := (@notes_builtin? token name args.length).total imp s
    cases b? with
    | none =>
      obtain ⟨args', s₁, given⟩ := total_exprs ok args (s.notes ds)
      exact ⟨_, _, .unknown known given⟩
    | some b =>
      obtain ⟨typeArgs', es, types⟩ :=
        (@notes_resolveTypeArgs token typeArgs).total imp (s.notes ds)
      obtain ⟨⟨args', ty⟩, s₁, given⟩ := total_builtin ok b (typeArgs'.headD .todo) token args
        (takes_of_runs_builtin? known) ((s.notes ds).notes es)
      exact ⟨_, _, .builtin known types given⟩
  | ⟨.structLit name module? fs, t, token⟩, s => expr_of_node ok <| by
    obtain ⟨⟨name', decl?⟩, ds, struct⟩ := (@notes_literalRecord token name module?).total imp s
    cases decl? with
    | none =>
      obtain ⟨fs', s₁, given⟩ := total_values ok fs (s.notes ds)
      exact ⟨_, _, .structless struct given⟩
    | some decl =>
      obtain ⟨fs', s₁, given⟩ := total_fields ok decl [] fs (s.notes ds)
      exact ⟨_, _, .structLit struct given⟩
  | ⟨.arrayLit written es, t, token⟩, s => expr_of_node ok <| by
    obtain ⟨ty, ds, resolved⟩ := (@notes_resolveAll token written).total imp s
    by_cases ha : ty.isArray = false
    · obtain ⟨es', s₁, given⟩ := total_exprs ok es (s.notes ds)
      exact ⟨_, _, .arrayless ha resolved given⟩
    · cases ty <;> simp [Ty.isArray] at ha
      case array element length =>
        obtain ⟨es', s₁, given⟩ := total_elements ok element es
          ((s.notes ds).noteUnless (es.length ≤ length)
            ⟨.check (.arrayLiteralTooLong length es.length), token.start⟩)
        exact ⟨_, _, .arrayLit resolved given⟩
  | ⟨.comma items, t, token⟩, s => expr_of_node ok <| by
    obtain ⟨items', s₁, given⟩ := total_exprs ok items s
    exact ⟨_, _, .comma given⟩
  | ⟨.function sig xs, t, token⟩, s => expr_of_node ok <| by
    obtain ⟨xs', s₁, inner⟩ := total_stmts ok xs (enterFunction
      { s with barrier := some s.env.vars.depth } (s.resolver.resolveSignature sig))
    exact ⟨_, _, .lambda (inner.function_of_stmts ok.steady "<anonymous>" token)⟩

theorem total_exprs (ok : Lawful imp P) : (es : List Expr) → (s : CheckState) →
    ∃ es' s', Checks imp P (.exprs es) s es' s'
  | [], s => ⟨_, _, .exprsNil⟩
  | e :: es, s => by
    obtain ⟨e', s₁, first⟩ := total_expr ok e s
    obtain ⟨es', s', rest⟩ := total_exprs ok es s₁
    exact ⟨_, _, .exprsCons first rest⟩

theorem total_args (ok : Lawful imp P) : (params : List Ty) → (es : List Expr) → (s : CheckState) →
    ∃ es' s', Checks imp P (.args params es) s es' s'
  | params, [], s => ⟨_, _, .argsNil⟩
  | [], e :: es, s => by
    obtain ⟨e', s₁, first⟩ := total_expr ok e s
    obtain ⟨es', s', rest⟩ := total_args ok [] es s₁
    exact ⟨_, _, .argsMore first rest⟩
  | param :: params, e :: es, s => by
    obtain ⟨e', s₁, first⟩ := total_expr ok e s
    obtain ⟨_, ds, fits⟩ := (@notes_expectEqual e'.token param e'.ty).total imp s₁
    obtain ⟨es', s', rest⟩ := total_args ok params es (s₁.notes ds)
    exact ⟨_, _, .argsCons first fits rest⟩

theorem total_elements (ok : Lawful imp P) (element : Ty) : (es : List Expr) → (s : CheckState) →
    ∃ es' s', Checks imp P (.elements element es) s es' s'
  | [], s => ⟨_, _, .elementsNil⟩
  | e :: es, s => by
    obtain ⟨e', s₁, first⟩ := total_expr ok e s
    obtain ⟨_, ds, fits⟩ := (@notes_expectEqual e'.token element e'.ty).total imp s₁
    obtain ⟨es', s', rest⟩ := total_elements ok element es (s₁.notes ds)
    exact ⟨_, _, .elementsCons first fits rest⟩

theorem total_values (ok : Lawful imp P) : (fs : List FieldInit) → (s : CheckState) →
    ∃ fs' s', Checks imp P (.values fs) s fs' s'
  | [], s => ⟨_, _, .valuesNil⟩
  | ⟨name, value⟩ :: fs, s => by
    obtain ⟨value', s₁, first⟩ := total_expr ok value s
    obtain ⟨fs', s', rest⟩ := total_values ok fs s₁
    exact ⟨_, _, .valuesCons first rest⟩

theorem total_fields (ok : Lawful imp P) (decl : Record) :
    (seen : List String) → (fs : List FieldInit) →
    (s : CheckState) → ∃ fs' s', Checks imp P (.fields decl seen fs) s fs' s'
  | seen, [], s => ⟨_, _, .fieldsNil⟩
  | seen, ⟨name, value⟩ :: fs, s => by
    obtain ⟨value', s₁, first⟩ := total_expr ok value
      (s.noteUnless (name ∉ seen) ⟨.check (.duplicateField name), value.token.start⟩)
    obtain ⟨_, ds, fits⟩ := (@notes_checkField name decl value').total imp s₁
    obtain ⟨fs', s', rest⟩ := total_fields ok decl (name :: seen) fs (s₁.notes ds)
    exact ⟨_, _, .fieldsCons first fits rest⟩

theorem total_builtin (ok : Lawful imp P) (b : Builtin) (ty : Ty) (token : Token) :
    (es : List Expr) →
    b.Takes es.length → (s : CheckState) →
    ∃ r s', Checks imp P (.builtin b ty token es) s r s'
  | [], takes, s => by
    cases b with
    | sizeof => exact ⟨_, _, .sizeof⟩
    | print => exact ⟨_, _, .print (.inl rfl) .exprsNil⟩
    | println => exact ⟨_, _, .print (.inr rfl) .exprsNil⟩
    | unreachable => exact ⟨_, _, .unreachable⟩
    | asm => exact ⟨_, _, .codeless⟩
    | alloc | cast | free | realloc => exact absurd (takes _ rfl) (by simp)
  | e :: es, takes, s => by
    cases b with
    | print =>
      obtain ⟨e', s₁, first⟩ := total_expr ok e s
      obtain ⟨es', s', rest⟩ := total_exprs ok es s₁
      exact ⟨_, _, .print (.inl rfl) (.exprsCons first rest)⟩
    | println =>
      obtain ⟨e', s₁, first⟩ := total_expr ok e s
      obtain ⟨es', s', rest⟩ := total_exprs ok es s₁
      exact ⟨_, _, .print (.inr rfl) (.exprsCons first rest)⟩
    | asm =>
      obtain ⟨_, ds, code⟩ := (@notes_checkAssembly token e).total imp s
      obtain ⟨e', s₁, first⟩ := total_expr ok e (s.notes ds)
      obtain ⟨es', s', rest⟩ := total_exprs ok es s₁
      exact ⟨_, _, .asm code (.exprsCons first rest)⟩
    | cast =>
      obtain rfl : es = [] := by simpa using takes _ rfl
      obtain ⟨e', s₁, value⟩ := total_expr ok e s
      obtain ⟨ty', ds, typed⟩ := (@notes_castType token ty e'.ty).total imp s₁
      exact ⟨_, _, .cast value typed⟩
    | alloc =>
      obtain rfl : es = [] := by simpa using takes _ rfl
      obtain ⟨e', s₁, size⟩ := total_expr ok e s
      obtain ⟨_, ds, typed⟩ := (@notes_expectInteger token e'.ty).total imp s₁
      exact ⟨_, _, .alloc size typed⟩
    | free =>
      obtain rfl : es = [] := by simpa using takes _ rfl
      obtain ⟨e', s₁, pointer⟩ := total_expr ok e s
      obtain ⟨_, ds, typed⟩ := (@notes_expectPointer token e'.ty).total imp s₁
      exact ⟨_, _, .free pointer typed⟩
    | realloc =>
      match es, takes with
      | [], takes => exact absurd (takes _ rfl) (by simp)
      | [n], _ =>
        obtain ⟨e', s₁, pointer⟩ := total_expr ok e s
        obtain ⟨_, ds, typed⟩ :=
          (@notes_expectPointer token (s₁.resolver.resolve e'.ty)).total imp s₁
        obtain ⟨n', s₂, size⟩ := total_expr ok n (s₁.notes ds)
        obtain ⟨_, es, sized⟩ := (@notes_expectInteger token n'.ty).total imp s₂
        exact ⟨_, _, .realloc pointer typed size sized⟩
      | _ :: _ :: _, takes => exact absurd (takes _ rfl) (by simp)
    | sizeof | unreachable => exact absurd (takes _ rfl) (by simp)

theorem total_stmt (ok : Lawful imp P) : (x : Stmt) → (s : CheckState) →
    ∃ x' s', Checks imp P (.stmt x) s x' s'
  | .expression token e, s => by
    obtain ⟨e', s', value⟩ := total_expr ok e s
    exact ⟨_, _, .expression value⟩
  | .declare token name ty value, s => by
    obtain ⟨value', s₁, given⟩ := total_expr ok value s
    obtain ⟨ty', ds, typed⟩ := (@notes_declaredType token ty value'.ty).total imp s₁
    exact ⟨_, _, .declare given typed⟩
  | .declareAll token names ty types value, s => by
    obtain ⟨value', s₁, given⟩ := list_of_expr (total_expr ok value s)
    obtain ⟨⟨ty', types'⟩, ds, typed⟩ :=
      (@notes_declaredAll token ty names value'.valueTypes).total imp s₁
    exact ⟨_, _, .declareAll given typed⟩
  | .assign token target value, s => by
    obtain ⟨value', s₁, given⟩ := list_of_expr (total_expr ok value s)
    obtain ⟨target', s₂, targets⟩ := list_of_expr (total_expr ok target s₁)
    obtain ⟨_, ds, fits⟩ :=
      (@notes_checkAssignment token target'.valueTypes value'.valueTypes).total imp s₂
    exact ⟨_, _, .assign given targets fits⟩
  | .record token decl, s => by
    obtain ⟨decl', s', declared⟩ := recordDecl_total imp token decl s
    exact ⟨_, _, .record declared⟩
  | .function token sig xs, s => by
    obtain ⟨xs', s₁, inner⟩ := total_stmts ok xs (enterFunction
      (s.declare sig.name (.func (s.resolver.resolveSignature sig)))
      (s.resolver.resolveSignature sig))
    exact ⟨_, _, .define (inner.function_of_stmts ok.steady (Name.bare sig.name) token)⟩
  | .choose token ⟨e, xs⟩ more otherwise, s => by
    obtain ⟨e', s₁, condition⟩ := condition_of_expr token (total_expr ok e s)
    obtain ⟨xs', s₂, inner⟩ := total_stmts ok xs { s₁.enter with returns := false }
    have taken := inner.body_of_stmts ok.steady
    obtain ⟨⟨more', all⟩, s₃, others⟩ := total_branches ok token more
      { s₂.leave s₁ with returns := false }
    match otherwise with
    | none => exact ⟨_, _, .choose condition taken others⟩
    | some ys =>
      obtain ⟨ys', s₄, inner⟩ := total_stmts ok ys { s₃.enter with returns := false }
      exact ⟨_, _, .chooseElse condition taken others (inner.body_of_stmts ok.steady)⟩
  | .loop token init e post xs, s => by
    obtain ⟨init', s₁, before⟩ : ∃ init' s₁, Checks imp P (.clause init) s.enter init' s₁ :=
      match init with
      | none => ⟨_, _, .absent⟩
      | some x =>
        let ⟨_, _, inner⟩ := total_stmt ok x s.enter
        ⟨_, _, .present inner⟩
    obtain ⟨e', s₂, guard⟩ : ∃ e' s₂, Checks imp P (.guard token e) s₁ e' s₂ :=
      match e with
      | none => ⟨_, _, .unguarded⟩
      | some e =>
        let ⟨_, _, condition⟩ := condition_of_expr token (total_expr ok e s₁)
        ⟨_, _, .guarded condition⟩
    obtain ⟨post', s₃, after⟩ : ∃ post' s₃, Checks imp P (.clause post) s₂ post' s₃ :=
      match post with
      | none => ⟨_, _, .absent⟩
      | some x =>
        let ⟨_, _, inner⟩ := total_stmt ok x s₂
        ⟨_, _, .present inner⟩
    obtain ⟨xs', s₄, inner⟩ := total_stmts ok xs
      { (enter { s₃ with loopDepth := s₃.loopDepth + 1 }) with returns := false }
    exact ⟨_, _, .loop_of_parts ok.steady before guard after (inner.body_of_stmts ok.steady)⟩
  | .return token value, s => by
    obtain ⟨value', s₁, given⟩ : ∃ value' s₁, Checks imp P (.result value) s value' s₁ :=
      match value with
      | none => ⟨_, _, .nothing⟩
      | some e =>
        let ⟨_, _, value⟩ := total_expr ok e s
        ⟨_, _, .something value⟩
    obtain ⟨s', fits⟩ := checkReturn_total imp token (value'.elim .void (·.ty)) s₁
    exact ⟨_, _, .returned given fits⟩
  | .break token, s => by
    obtain ⟨_, ds, inLoop⟩ := (@notes_checkInLoop token "break").total imp s
    exact ⟨_, _, .breaks inLoop⟩
  | .continue token, s => by
    obtain ⟨_, ds, inLoop⟩ := (@notes_checkInLoop token "continue").total imp s
    exact ⟨_, _, .continues inLoop⟩
  | .external token sig, s => ⟨_, _, .external⟩
  | .importUnit token name typeArgs path, s => by
    obtain ⟨typeArgs', ds, types⟩ := (@notes_resolveTypeArgs token typeArgs).total imp s
    obtain ⟨s', imported⟩ := imports_total ok.total token name typeArgs' path (s.notes ds)
    exact ⟨_, _, .importUnit types ((runs_importUnit (u := ())).mpr imported)⟩
  | .generic token name ty, s => ⟨_, _, .generic⟩

theorem total_branches (ok : Lawful imp P) (token : Token) : (bs : List Branch) →
    (s : CheckState) → ∃ r s', Checks imp P (.branches token bs) s r s'
  | [], s => ⟨_, _, .branchesNil⟩
  | ⟨e, xs⟩ :: bs, s => by
    obtain ⟨e', s₁, condition⟩ := condition_of_expr token (total_expr ok e s)
    obtain ⟨xs', s₂, inner⟩ := total_stmts ok xs { s₁.enter with returns := false }
    have taken := inner.body_of_stmts ok.steady
    obtain ⟨⟨bs', all⟩, s₃, others⟩ := total_branches ok token bs
      { s₂.leave s₁ with returns := false }
    exact ⟨_, _, .branchesCons condition taken others⟩

theorem total_stmts (ok : Lawful imp P) : (xs : List Stmt) → (s : CheckState) →
    ∃ xs' s', Checks imp P (.stmts xs) s xs' s'
  | [], s => by
    cases hr : s.returns with
    | true => exact ⟨_, _, .dead hr⟩
    | false => exact ⟨_, _, .stmtsNil hr⟩
  | x :: xs, s => by
    cases hr : s.returns with
    | true => exact ⟨_, _, .dead hr⟩
    | false =>
      obtain ⟨x', s₁, first⟩ := total_stmt ok x s
      obtain ⟨xs', s', rest⟩ := total_stmts ok xs s₁
      exact ⟨_, _, .stmtsCons hr first rest⟩

end

theorem total_top (ok : Lawful imp P) (xs : List Stmt) (s : CheckState) :
    ∃ xs' s', Checks imp P (.top xs) s xs' s' := by
  induction xs generalizing s with
  | nil => exact ⟨_, _, .topNil⟩
  | cons x xs ih =>
    obtain ⟨x', s₁, first⟩ := total_stmt ok x s
    obtain ⟨xs', s', rest⟩ := ih s₁
    exact ⟨_, _, .topCons first rest⟩

end

/-- The items that are checked from every state. A call of a builtin function is not, unless it has
as many arguments as the function takes. -/
def Item.isSure : Item → Bool
  | .builtin _ _ _ _ => false
  | _ => true

section

variable {imp : Importer} {P : Law}

theorem total_item (ok : Lawful imp P) (i : Item) (sure : i.isSure = true) (s : CheckState) :
    ∃ r s', Checks imp P i s r s' := by
  match i with
  | .expr e => exact total_expr ok e s
  | .node e =>
    obtain ⟨e', s', h⟩ := total_expr ok e s
    cases h with
    | expr node _ => exact ⟨_, _, node⟩
  | .exprs es => exact total_exprs ok es s
  | .args params es => exact total_args ok params es s
  | .elements element es => exact total_elements ok element es s
  | .values fs => exact total_values ok fs s
  | .fields decl seen fs => exact total_fields ok decl seen fs s
  | .builtin _ _ _ _ => exact absurd sure (by simp [Item.isSure])
  | .list e => exact list_of_expr (total_expr ok e s)
  | .condition token e => exact condition_of_expr token (total_expr ok e s)
  | .guard token none => exact ⟨_, _, .unguarded⟩
  | .guard token (some e) =>
    obtain ⟨_, _, condition⟩ := condition_of_expr token (total_expr ok e s)
    exact ⟨_, _, .guarded condition⟩
  | .result none => exact ⟨_, _, .nothing⟩
  | .result (some e) =>
    obtain ⟨_, _, value⟩ := total_expr ok e s
    exact ⟨_, _, .something value⟩
  | .body xs =>
    obtain ⟨_, _, inner⟩ := total_stmts ok xs { s.enter with returns := false }
    exact ⟨_, _, inner.body_of_stmts ok.steady⟩
  | .function sig name token xs =>
    obtain ⟨_, _, inner⟩ := total_stmts ok xs (s.enterFunction sig)
    exact ⟨_, _, inner.function_of_stmts ok.steady name token⟩
  | .stmt x => exact total_stmt ok x s
  | .clause none => exact ⟨_, _, .absent⟩
  | .clause (some x) =>
    obtain ⟨_, _, inner⟩ := total_stmt ok x s
    exact ⟨_, _, .present inner⟩
  | .stmts xs => exact total_stmts ok xs s
  | .branches token bs => exact total_branches ok token bs s
  | .top xs => exact total_top ok xs s

theorem Checks.of_check (ok : Lawful imp P) {i : Item} (sure : i.isSure = true) {r : i.Result}
    {s s' : CheckState} (h : Runs imp i.check s r s') : Checks imp P i s r s' := by
  obtain ⟨r', t, derived⟩ := total_item ok i sure s
  obtain ⟨rfl, rfl⟩ := h.unique derived.runs
  exact derived

theorem Checks.of_runs (ok : Lawful imp P) {xs xs' : List Stmt} {s s' : CheckState}
    (h : Runs imp (Check.topLevel xs) s xs' s') : Checks imp P (.top xs) s xs' s' :=
  of_check ok rfl h

end

end FrontEnd
