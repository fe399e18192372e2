import FrontEnd.Proofs.Reading.Forward

namespace FrontEnd

theorem Translation.tree_memberOf (τ : Translation) (left member : Expr) (operator : Token) :
    τ.tree.expr (Nested.memberOf left operator member) =
      Nested.memberOf (τ.tree.expr left) (τ.token operator) (τ.tree.expr member) := by
  have dot : τ.tree.expr (.untyped (.binary .dot left member) operator) =
      .untyped (.binary .dot (τ.tree.expr left) (τ.tree.expr member)) (τ.token operator) :=
    congrArg (Expr.mk _ · _) τ.todo
  obtain ⟨node, ty, token⟩ := left
  cases node with
  | ident module =>
    obtain ⟨node', ty', token'⟩ := member
    cases node' with
    | structLit name module? fields => rfl
    | _ => exact dot
  | _ => exact dot

theorem Kind.proper_of_prefixForm {k : Kind} {form : PrefixForm} (h : k.prefixForm? = some form) :
    k.Proper := by
  cases k with
  | eof | illegal => cases h
  | _ => exact ⟨nofun, nofun⟩

theorem Kind.proper_of_infixForm {k : Kind} {form : InfixForm} (h : k.infixForm? = some form) :
    k.Proper := by
  cases k with
  | eof | illegal => cases h
  | _ => exact ⟨nofun, nofun⟩

theorem Kind.proper_of_stmtForm {k : Kind} {form : StmtForm} (h : k.stmtForm? = some form) :
    k.Proper := by
  cases k with
  | eof | illegal => cases h
  | _ => exact ⟨nofun, nofun⟩

namespace Setting

open Parse

variable {A : Setting} {r : Reader}

abbrev ReadsExpr (A : Setting) (r : Reader) (p p' : Parse Expr) : Prop :=
  A.Runs r A.τ.tree.expr p p' (Onward r) fun e r₁ => A.Tree r.nextId r₁.nextId (.expr e)

abbrev ReadsStmt (A : Setting) (r : Reader) (p p' : Parse Stmt) : Prop :=
  A.Runs r A.τ.tree.stmt p p' (Onward r) fun x r₁ => A.Tree r.nextId r₁.nextId (.stmt x)

abbrev ReadsBody (A : Setting) (r : Reader) (p p' : Parse (List Stmt)) : Prop :=
  A.Runs r A.τ.tree.stmts p p' (Kept r)
    fun xs r₁ => A.Tree r.nextId r₁.nextId (.many (xs.map .stmt))

theorem runs_unknownExpr : A.ReadsExpr r unknownExpr unknownExpr := by
  have ordinary (t : Token) : ∀ n, (if t.kind = .illegal then .unrecognisedToken t.value
      else .unknownPrefix t.text) ≠ ParseError.tooManyErrors n := by
    intro n
    split <;> exact nofun
  refine runs_current ((runs_record (ordinary _)).bind fun _ _ left => ?_)
  refine (runs_pass left.2).then fun _ _ left₂ => runs_pure ?_ (by omega) fun _ => ?_
  · exact congrArg (Expr.mk _ · _) (A.τ.int 32)
  · exact Tree.at (.integer (n := r.nextId) (.inl rfl) (by decide)) (by omega)

theorem runs_literal (form : r.kind.prefixForm? = some .literal) :
    A.ReadsExpr r literal literal := by
  intro sound
  refine runs_advance_bind (Kind.proper_of_prefixForm form) (fun left => ?_) sound
  have same : Literal.integer? (A.τ.token r.current) = Literal.integer? r.current := rfl
  rw [A.τ.kind_token, same]
  cases kind : r.current.kind with
  | float => exact runs_pure (congrArg (Expr.mk _ · _) (A.τ.float 64)) (by omega) .float
  | string =>
    refine runs_pure (congrArg (Expr.mk _ · _) ?_) (by omega) .string
    exact (A.τ.pointer _).trans (by rw [A.τ.int])
  | kwTrue | kwFalse =>
    exact runs_pure (congrArg (Expr.mk _ · _) (A.τ.int 1)) (by omega)
      (.integer (.inr rfl) (by decide))
  | identifier =>
    exact runs_qualify (sound.word kind) fun _ own =>
      runs_pure (congrArg (Expr.mk _ · _) A.τ.todo) (by omega) (.ident own)
  | _ =>
    cases found : Literal.integer? r.current with
    | some n =>
      have fits := (Option.filter_eq_some_iff.mp found).2
      exact runs_pure (congrArg (Expr.mk _ · _) (A.τ.int 32)) (by omega)
        (.integer (.inl rfl) (of_decide_eq_true fits))
    | none => exact runs_failAt nofun

theorem runs_builtinTypes {name : String} {expected : Nat} (n : Nat) (r : Reader) :
    A.Runs r (List.map A.τ.type) (builtinTypes name expected n) (builtinTypes name expected n)
      (Stayed r) fun ts _ => ts.length = n ∧ ∀ t ∈ ts, A.Typed t := by
  induction n generalizing r with
  | zero => exact runs_pure rfl ⟨Nat.le_refl _, rfl⟩ ⟨rfl, nofun⟩
  | succ n ih =>
    unfold builtinTypes
    refine runs_current (.ite .rfl (fun _ => runs_failAt_bind (by simp)) fun _ => ?_)
    refine runs_type.bind fun t r₁ left => ?_
    have rest (r₂ : Reader) (left₂ : Stayed r₁ t r₂) : A.Runs r₂ (List.map A.τ.type)
        (do return t :: (← builtinTypes name expected n))
        (do return A.τ.type t :: (← builtinTypes name expected n)) (Stayed r)
        fun ts _ => A.Typed t → ts.length = n + 1 ∧ ∀ t ∈ ts, A.Typed t :=
      (ih r₂).bind fun ts _ left₃ => runs_pure rfl (by omega) fun all typed =>
        ⟨congrArg Nat.succ all.1, List.forall_mem_cons.mpr ⟨typed, all.2⟩⟩
    refine runs_kind (.ite .rfl (fun comma => ?_) fun _ => rest r₁ ⟨Nat.le_refl _, rfl⟩)
    exact (runs_advance (comma ▸ by decide)).then fun _ r₂ left₂ => rest r₂ (by omega)

def recordStep (fields : List Field) : Parse (List Field ⊕ List Field) := do
  if (← kind) = .closeCurly then
    return .inr fields.reverse
  let name ← expect .identifier
  let ty ← type
  skip [.comma, .semicolon]
  return .inl (⟨name.value, ty⟩ :: fields)

/-- The fields of records that can be read. -/
def Fits (A : Setting) (fields : List Field) : Prop :=
  ∀ f ∈ fields, Name.IsWord f.name ∧ A.Typed f.ty

theorem runs_recordStep (fields : List Field) :
    A.Runs r (Sum.map (List.map A.τ.field) (List.map A.τ.field)) (recordStep fields)
      (recordStep (fields.map A.τ.field)) (fun x r₁ => GoesOn r x r₁ ∧ r₁.nextId = r.nextId)
      fun x _ => A.Fits fields.reverse → x.elim (A.Fits ·.reverse) A.Fits := by
  refine runs_kind (.ite .rfl (fun _ => ?_) fun _ => ?_)
  · exact runs_pure (by simp) ⟨⟨Nat.le_refl _, nofun⟩, rfl⟩ id
  · refine runs_word.then fun name _ left => runs_type.bind fun ty _ left₂ =>
      (runs_skip (by decide)).then fun _ _ left₃ =>
        runs_pure rfl ⟨⟨by omega, fun _ => by omega⟩, by omega⟩ fun typed all => ?_
    rw [Sum.elim_inl, List.reverse_cons, Fits, List.forall_mem_append]
    exact ⟨all, by simpa using ⟨left.2, typed⟩⟩

theorem runs_fields :
    A.Runs r (List.map A.τ.field) fields fields (Stayed r) fun fs _ => A.Fits fs := by
  have steps (r : Reader) : A.Runs r (List.map A.τ.field) (loop recordStep []) (loop recordStep [])
      (Stayed r) fun fs _ => A.Fits [] → A.Fits fs :=
    runs_tokenLoop (I := fun fs _ => A.Fits fs.reverse) (fun fs _ _ => runs_recordStep fs) rfl
  exact (runs_expect (by decide)).then fun _ r₁ left => (steps r₁).bind fun _ _ left₂ =>
    (runs_expect (by decide)).then fun _ _ left₃ => runs_pure rfl (by omega) fun all =>
      all (by simp [Setting.Fits])

theorem runs_recordDecl {k : RecordKind} (proper : r.kind.Proper) :
    A.ReadsStmt r (recordDecl k) (recordDecl k) := by
  refine (runs_advance proper).then fun _ _ left => runs_word.then fun _ _ left₂ => ?_
  refine runs_fields.bind fun _ _ left₃ => runs_qualify left₂.2 fun _ own => ?_
  refine runs_freshId.then fun id r₄ left₄ => runs_pure rfl (by omega) fun fits => ?_
  obtain rfl : id = r.nextId := by omega
  exact Tree.at (.record own fits) (by omega)

theorem runs_externalDecl (proper : r.kind.Proper) : A.ReadsStmt r externalDecl externalDecl := by
  refine (runs_advance proper).then fun _ _ left => (runs_expect (by decide)).then fun _ _ left₂ =>
    runs_word.then fun name _ left₃ => runs_params.bind fun ps _ left₄ => ?_
  refine (runs_resultAfter left₄.2 runs_type).bind fun result _ left₅ =>
    runs_pure ?_ (by omega) fun typed all => ?_
  · have named := A.τ.signatureOf name.value ps.1 result
    rw [A.τ.plain left₃.2.plain] at named
    exact congrArg (Stmt.external _) named
  · exact Tree.at (.external (n := r.nextId) left₃.2 ⟨_, _, rfl, all, typed⟩) (by omega)

def typeArgStep (types : List Ty) : Parse (List Ty ⊕ List Ty) := do
  let _ ← expect .comma
  if (← kind) = .string then return .inr types.reverse
  return .inl ((← type) :: types)

theorem runs_typeArgStep (types : List Ty) :
    A.Runs r (Sum.map (List.map A.τ.type) (List.map A.τ.type)) (typeArgStep types)
      (typeArgStep (types.map A.τ.type)) (fun x r₁ => GoesOn r x r₁ ∧ r₁.nextId = r.nextId)
      fun x _ => (∀ t ∈ types.reverse, A.Typed t) →
        x.elim (∀ t ∈ ·.reverse, A.Typed t) (∀ t ∈ ·, A.Typed t) := by
  refine (runs_expect (by decide)).then fun _ r₁ left =>
    runs_kind (.ite .rfl (fun _ => ?_) fun _ => ?_)
  · exact runs_pure (by simp) ⟨⟨by omega, nofun⟩, by omega⟩ id
  · refine runs_type.bind fun _ _ left₂ =>
      runs_pure rfl ⟨⟨by omega, fun _ => by omega⟩, by omega⟩ fun typed all => ?_
    rw [Sum.elim_inl, List.reverse_cons, List.forall_mem_append]
    exact ⟨all, by simpa using typed⟩

theorem runs_importDecl (proper : r.kind.Proper) : A.ReadsStmt r importDecl importDecl := by
  have steps (r : Reader) : A.Runs r (List.map A.τ.type) (loop typeArgStep []) (loop typeArgStep [])
      (Stayed r) fun ts _ => (∀ t ∈ [], A.Typed t) → ∀ t ∈ ts, A.Typed t :=
    runs_tokenLoop (I := fun ts _ => ∀ t ∈ ts.reverse, A.Typed t)
      (fun ts _ _ => runs_typeArgStep ts)
      rfl
  exact (runs_advance proper).then fun _ _ left => runs_word.then fun _ r₂ left₂ =>
    (steps r₂).bind fun _ _ left₃ => (runs_expect (by decide)).then fun _ _ left₄ =>
      runs_qualify left₂.2 fun _ own => runs_pure rfl (by omega) fun all =>
        Tree.at (.importUnit (n := r.nextId) own (all nofun)) (by omega)

theorem runs_genericDecl (proper : r.kind.Proper) : A.ReadsStmt r genericDecl genericDecl := by
  refine (runs_advance proper).then fun token _ left => runs_word.then fun name _ left₂ =>
    runs_nextTypeArg.bind fun ty? r₃ left₃ => ?_
  have declared (ty : Ty) (r₄ : Reader) (left₄ : Stayed r₃ ty r₄)
      (given : A.Speaks r₄ → A.Given ty) :
      A.Runs r₄ A.τ.tree.stmt
        (defineGeneric name.value ty >>= fun _ => pure (.generic token name.value ty))
        (defineGeneric name.value (A.τ.type ty) >>= fun _ =>
          pure (.generic (A.τ.token token) name.value (A.τ.type ty)))
        (Onward r) fun x r₅ => A.Given ty → A.Tree r.nextId r₅.nextId (.stmt x) :=
    (runs_defineGeneric given).then fun _ _ left₅ => runs_pure rfl (by omega) fun given =>
      Tree.at (.generic (n := r.nextId) left₂.2 given) (by omega)
  cases ty? with
  | some ty =>
    exact (declared ty r₃ ⟨Nat.le_refl _, rfl⟩ fun speaks => left₃.2 speaks ty rfl).imp
      (fun _ _ => id) fun _ _ _ said given => said (given ty rfl)
  | none =>
    refine (runs_record (by simp)).bind fun _ r₄ left₄ => ?_
    have speaks : A.Speaks r₄ → A.lossy := fun speaks => speaks.resolve_right left₄.2
    have left := declared .todo r₄ left₄.1 fun h => A.todo (speaks h)
    rw [A.τ.todo] at left
    exact left.imp (fun _ _ => id) fun _ _ _ said lossy _ => said (A.todo lossy)

theorem runs_statementOf {token : Token} {e : Expr} :
    A.Runs r A.τ.tree.stmt (statementOf token e) (statementOf (A.τ.token token) (A.τ.tree.expr e))
      (Stayed r) fun x r₁ => ∀ a, A.Tree a r.nextId (.expr e) → A.Tree a r₁.nextId (.stmt x) := by
  obtain ⟨node, ty, token'⟩ := e
  have alone (e : Expr) : A.Runs r A.τ.tree.stmt (pure (.expression token e))
      (pure (.expression (A.τ.token token) (A.τ.tree.expr e))) (Stayed r)
      fun x r₁ => ∀ a, A.Tree a r.nextId (.expr e) → A.Tree a r₁.nextId (.stmt x) :=
    runs_pure rfl ⟨Nat.le_refl _, rfl⟩ fun _ => .expression
  cases node with
  | binary op left right =>
    by_cases isAssign : op = .assign
    · subst isAssign
      simp only [statementOf, Relabelling.expr, A.τ.isAssignable_expr]
      have assign (a b : Nat) (h : A.Tree a b (.expr ⟨.binary .assign left right, ty, token'⟩)) :
          A.Tree a b (.stmt (.assign token left right)) := by
        cases h with
        | binary hl hr => exact .assign hl hr
      exact .ite .rfl (fun _ => runs_pure rfl ⟨Nat.le_refl _, rfl⟩ fun a => assign a _) fun _ =>
        runs_failAt nofun
    · have same := alone ⟨.binary op left right, ty, token'⟩
      rw [Relabelling.expr] at same ⊢
      rw [statementOf_binary isAssign, statementOf_binary isAssign]
      exact same
  | _ => exact alone _

theorem runs_declaredNames (items : List Expr) (r : Reader) :
    A.Runs r (List.map A.τ.name) (declaredNames items) (declaredNames (A.τ.tree.exprs items))
      (fun names r₁ => Stayed r names r₁ ∧ items.map Expr.node = names.map .ident)
      fun _ _ => True := by
  induction items generalizing r with
  | nil => exact runs_pure rfl ⟨⟨Nat.le_refl _, rfl⟩, rfl⟩ trivial
  | cons e es ih =>
    obtain ⟨node, ty, token⟩ := e
    cases node with
    | ident name =>
      exact (ih r).then fun _ _ left => runs_pure rfl ⟨left.1, congrArg (_ :: ·) left.2⟩ trivial
    | _ => exact runs_failAt nofun

/-- What one step of reading statements does: it ends, or takes a statement, or recovers from one
that fails. -/
theorem run_statementsStep (g : Nested) (closing : Kind) (stmts : List Stmt) (r : Reader) :
    (FrontEnd.statementsStep g closing stmts).run r =
      if r.kind = .eof ∨ r.kind = closing ∨ r.isSaturated then (.ok (.inr stmts.reverse), r)
      else
        match g.stmt.run r with
        | (.ok stmt, r₁) => (.ok (.inl (stmt :: stmts)), r₁.past [.semicolon])
        | (.error d, r₁) =>
          (.ok (.inl stmts), ((noted r₁ d).pastFailure r.current).past [.semicolon]) := by
  have start : (get : Parse Reader).run r = (.ok r, r) := rfl
  rw [FrontEnd.statementsStep, run_bind, start]
  dsimp only
  split
  case isTrue => rfl
  case isFalse =>
    have tried : (attempt g.stmt).run r = (.ok (g.stmt.run r).1, (g.stmt.run r).2) := rfl
    rw [run_bind, tried]
    rcases g.stmt.run r with ⟨d | stmt, r₁⟩
    · dsimp only
      have noted : (record d).run r₁ = (.ok (), noted r₁ d) := rfl
      rw [run_bind, noted]
      dsimp only
      have seen (r : Reader) : current.run r = (.ok r.current, r) := rfl
      rw [run_bind, seen]
      dsimp only [Reader.pastFailure]
      split <;> rfl
    · rfl

/-- After a statement that fails there are fewer tokens, even if it has taken none. -/
theorem pastFailure_lt {r₁ : Reader} (more : 0 < r.tokens.length) (moves : r.Moves r₁)
    (d : Diagnostic) : ((noted r₁ d).pastFailure r.current).tokens.length < r.tokens.length := by
  have tokens := noted_tokens r₁ d
  obtain less | same := Nat.lt_or_eq_of_le moves.length_le
  · have := ((noted r₁ d).moves_pastFailure r.current).length_le
    rw [tokens] at this
    omega
  · have stays : r₁.tokens = r.tokens := moves.suffix.eq_of_length same
    have eof : (noted r₁ d).eof = r.eof := by
      unfold noted
      split <;> exact moves.eof
    have current : (noted r₁ d).current = r.current := by
      rw [Reader.current, Reader.current, tokens, stays, eof]
    rw [Reader.pastFailure, current, if_pos rfl, Reader.length_next, tokens]
    omega

/-- Readers for what is nested that go the same way where fewer than `n` tokens are left. -/
structure Agree (A : Setting) (g g' : Nested) (n : Nat) : Prop where
  expr : ∀ power r, r.tokens.length < n → A.ReadsExpr r (g.expr power) (g'.expr power)
  stmt : ∀ r, r.tokens.length < n → A.ReadsStmt r g.stmt g'.stmt

namespace Agree

variable {g g' : Nested} {n : Nat}

section Lists

variable {α : Type} {part : α → Phrase}

/-- Parts that have been read since `k` was the next id. -/
abbrev Row (A : Setting) (k : Nat) (part : α → Phrase) (items : List α) (r : Reader) : Prop :=
  A.Tree k r.nextId (.many (items.map part))

theorem row_push {k : Nat} {r r₁ : Reader} {a : α} {items : List α}
    (h : Row A k part items.reverse r) (last : A.Tree r.nextId r₁.nextId (part a)) :
    Row A k part (a :: items).reverse r₁ := by
  rw [Row, List.reverse_cons, List.map_append]
  exact h.snoc last

theorem row_lasting {k : Nat} : Lasting (Row A k part) :=
  fun _ _ _ row same => row.at ⟨rfl, same.symm⟩

end Lists

variable (h : A.Agree g g' n)
include h

section Shorter

variable (short : r.tokens.length < n)
include short

theorem argument (closing : Kind) :
    A.Runs r A.τ.tree.expr (g.argument closing) (g'.argument closing) (Advanced r)
      fun e r₁ => A.Tree r.nextId r₁.nextId (.expr e) := by
  refine runs_get ?_
  rw [A.τ.reader_hasTokens]
  refine .ite .rfl (fun more => ?_) fun _ => runs_unexpected
  refine .of_more (by simpa [Reader.hasTokens] using more) fun some => ?_
  exact (h.expr .comma r short).imp (fun _ _ left => by omega) fun _ _ _ => id

theorem arguments {closing : Kind} (proper : closing.Proper) :
    A.Runs r A.τ.tree.exprs (g.arguments closing) (g'.arguments closing) (Kept r)
      fun es r₁ => A.Tree r.nextId r₁.nextId (.many (es.map .expr)) := by
  refine (runs_commaList proper (I := Row A r.nextId .expr) row_lasting fun items r₁ less =>
    (h.argument (by omega) closing).imp (fun _ _ => id) fun _ _ _ tree row =>
      row_push row tree).bind
      fun x _ left => runs_pure (A.τ.tree.exprs_eq_map x.1) left fun all => all .nil

theorem statementsStep {closing : Kind} {k : Nat} (stmts : List Stmt) :
    A.Runs r (Sum.map (List.map A.τ.tree.stmt) A.τ.tree.stmts)
      (FrontEnd.statementsStep g closing stmts)
      (FrontEnd.statementsStep g' closing (stmts.map A.τ.tree.stmt)) (GoesOn r)
      fun x r₁ => Row A k .stmt stmts.reverse r →
        x.elim (Row A k .stmt ·.reverse r₁) (Row A k .stmt · r₁) := by
  intro sound
  obtain ⟨x, r₁, run, run', out⟩ := h.stmt r short sound
  rw [run_statementsStep, run_statementsStep, run, run', A.τ.reader_kind, A.τ.reader_isSaturated]
  split
  case isTrue =>
    refine runs_stop ?_ (Nat.le_refl _) id sound
    simp [A.τ.tree.stmts_eq_map]
  case isFalse goesOn =>
    have more := sound.length_pos fun eof => goesOn (.inl eof)
    cases x with
    | ok stmt =>
      obtain ⟨left, clear, tree⟩ := out.result stmt rfl
      have moves := r₁.moves_past [.semicolon]
      refine ⟨.ok (.inl (stmt :: stmts)), r₁.past [.semicolon], rfl, ?_, out.moves.trans moves,
        out.sound.of_suffix (List.dropWhile_suffix _), fun _ ok => ?_, nofun⟩
      · rw [← A.reader_past]
        rfl
      · obtain rfl := Except.ok.inj ok
        have less := moves.length_le
        exact ⟨⟨by omega, fun _ => by omega⟩,
          clear.trans (r₁.clear_past (by decide)) out.moves moves,
          fun speaks row => row_push row (tree speaks)⟩
    | error d =>
      have ordinary := out.failure d rfl
      have note := r₁.moves_noted ordinary
      have recover := (noted r₁ d).moves_pastFailure r.current
      have moves := recover.trans (((noted r₁ d).pastFailure r.current).moves_past [.semicolon])
      refine ⟨.ok (.inl stmts), ((noted r₁ d).pastFailure r.current).past [.semicolon], rfl, ?_,
        (out.moves.trans note).trans moves, ?_, fun _ ok => ?_, nofun⟩
      · rw [← A.reader_past, ← A.reader_pastFailure, ← A.τ.reader_noted, A.τ.reader_current]
        rfl
      · exact ((out.sound.noted d).pastFailure r.current).of_suffix (List.dropWhile_suffix _)
      · obtain rfl := Except.ok.inj ok
        have less := pastFailure_lt more out.moves d
        have rest := (((noted r₁ d).pastFailure r.current).moves_past [.semicolon]).length_le
        have errors : ((noted r₁ d).pastFailure r.current).errors ≠ [] := fun none =>
          noted_errors out.sound.limit (recover.errors_nil none)
        refine ⟨⟨by omega, fun _ => by omega⟩, fun none => absurd none errors, fun speaks row => ?_⟩
        exact row.lose (speaks.resolve_right errors) ((out.moves.trans note).trans moves).nextId

theorem statements {closing : Kind} :
    A.ReadsBody r (g.statements closing) (g'.statements closing) := by
  have steps (r : Reader) (short : r.tokens.length < n) : A.ReadsBody r
      (loop (FrontEnd.statementsStep g closing) [])
        (loop (FrontEnd.statementsStep g' closing) []) :=
    (runs_loop (I := fun xs => Row A r.nextId .stmt xs.reverse)
      (fun xs _ less => h.statementsStep (by omega) xs) rfl).imp (fun _ _ => id)
        fun _ _ _ said => said .nil
  exact (runs_skip (by decide)).then fun _ r₁ left => (steps r₁ (by omega)).imp
    (fun _ _ left₂ => by omega) fun _ _ _ tree => tree.at (by omega)

theorem block : A.ReadsBody r g.block g'.block :=
  (runs_expect (by decide)).then fun _ _ left => (h.statements (by omega)).bind
    fun _ _ left₂ => (runs_expect (by decide)).then fun _ _ left₃ =>
      runs_pure rfl (by omega) fun tree => tree.at (by omega)

abbrev value (A : Setting) (f : FieldInit) : FieldInit :=
  ⟨f.name, A.τ.tree.expr f.value⟩

theorem fieldInit :
    A.Runs r (value A) g.fieldInit g'.fieldInit (Advanced r)
      fun f r₁ => A.Tree r.nextId r₁.nextId (.field f) :=
  runs_word.then fun _ _ left => (runs_expect (by decide)).then
    fun _ r₂ left₂ => (h.expr .comma r₂ (by omega)).bind fun _ _ left₃ =>
      runs_pure rfl (by omega) fun tree => .field left.2 (tree.at (by omega))

theorem fieldStep {k : Nat} (fields : List FieldInit) :
    A.Runs r (Sum.map (List.map (value A)) A.τ.tree.fields) (Expr.ReadsBack.fieldStep g fields)
      (Expr.ReadsBack.fieldStep g' (fields.map (value A))) (GoesOn r)
      fun x r₁ => Row A k .field fields.reverse r →
        x.elim (Row A k .field ·.reverse r₁) (Row A k .field · r₁) := by
  refine runs_kind (.ite .rfl (fun _ => runs_stop ?_ (Nat.le_refl _) id) fun _ => ?_)
  · simp [A.τ.tree.fields_eq_map]
  · refine (h.fieldInit short).bind fun field r₁ left => runs_kind ?_
    cases hk : r₁.kind with
    | comma | semicolon =>
      exact (runs_advance (hk ▸ by decide)).then fun _ r₂ left₂ => runs_goOn rfl (by omega)
        fun tree row => row_lasting _ _ _ (row_push row tree) left₂.1.2
    | closeCurly => exact runs_goOn rfl left fun tree row => row_push row tree
    | _ => exact runs_unexpected_bind

theorem structLit {name : Token} (word : Name.IsWord name.value) :
    A.Runs r A.τ.tree.expr (g.structLit name) (g'.structLit (A.τ.token name)) (Kept r)
      fun e r₁ => A.Tree r.nextId r₁.nextId (.expr e) := by
  have steps (r : Reader) (short : r.tokens.length < n) :
      A.Runs r A.τ.tree.fields (loop (Expr.ReadsBack.fieldStep g) [])
        (loop (Expr.ReadsBack.fieldStep g') []) (Kept r)
        fun fs r₁ => A.Tree r.nextId r₁.nextId (.many (fs.map .field)) :=
    (runs_loop (I := fun fs => Row A r.nextId .field fs.reverse)
      (fun fs _ less => h.fieldStep (by omega) fs) rfl).imp (fun _ _ => id)
        fun _ _ _ said => said .nil
  exact (runs_expect (by decide)).then fun _ r₁ left => (steps r₁ (by omega)).bind fun _ _ left₂ =>
    (runs_expect (by decide)).then fun _ _ left₃ => runs_qualify word fun _ own =>
      runs_pure (congrArg (Expr.mk _ · _) A.τ.todo) (by omega) fun tree =>
        .structLit own nofun (tree.at (by omega))

theorem builtinCall {token name : Token} :
    A.Runs r A.τ.tree.expr (g.builtinCall token name)
      (g'.builtinCall (A.τ.token token) (A.τ.token name)) (Kept r)
      fun e r₁ => A.Tree r.nextId r₁.nextId (.expr e) := by
  unfold Nested.builtinCall
  rw [A.τ.value_token]
  cases known : Builtin.ofName? name.value with
  | none => exact runs_failAt nofun
  | some b =>
    exact (runs_expect (by decide)).then fun _ r₁ left =>
      (runs_builtinTypes b.typeArgs r₁).bind fun _ _ left₂ =>
        (h.arguments (by omega) (by decide)).bind fun _ _ left₃ =>
          runs_pure (congrArg (Expr.mk _ · _) A.τ.todo) (by omega) fun args types =>
            .builtin known types.1 types.2 (args.at (by omega))

end Shorter

variable (short : r.tokens.length ≤ n)
include short

theorem atExpr (proper : r.kind.Proper) : A.ReadsExpr r g.atExpr g'.atExpr :=
  (runs_advance proper).then fun _ _ left => runs_word.then fun _ _ left₂ => runs_kind (.ite .rfl
    (fun _ => (h.structLit (by omega) left₂.2).imp (fun _ _ _ => by omega) fun _ _ _ tree =>
      tree.at (by omega))
    fun _ => (h.builtinCall (by omega)).imp (fun _ _ _ => by omega) fun _ _ _ tree =>
      tree.at (by omega))

theorem arrayLit (bracket : r.kind = .openBracket) : A.ReadsExpr r g.arrayLit g'.arrayLit :=
  runs_current (readsType.bind fun _ _ left => (runs_expect (by decide)).then
    fun _ _ left₂ => (h.arguments (by omega) (by decide)).bind fun _ _ left₃ =>
      runs_pure rfl (by omega) fun tree typed =>
        .arrayLit typed (left.2 bracket) (tree.at (by omega)))

theorem functionLit : A.ReadsExpr r g.functionLit g'.functionLit := by
  refine (runs_expect (by decide)).then fun _ _ left => runs_params.bind fun ps _ left₂ =>
    runs_resultBeforeBody.bind fun result _ left₃ => (h.block (by omega)).bind fun body _ left₄ =>
      runs_pure ?_ (by omega) fun tree typed all =>
        .function ⟨_, _, rfl, all, typed⟩ (tree.at (by omega))
  have named := A.τ.signatureOf "" ps.1 result
  rw [A.τ.name_empty] at named
  simp only [Expr.untyped, Relabelling.expr, Translation.tree, named, A.τ.todo]
  rfl

theorem first : A.ReadsExpr r g.first g'.first := by
  refine runs_kind ?_
  cases hf : r.kind.prefixForm? with
  | none => exact runs_unknownExpr
  | some form =>
    have proper := Kind.proper_of_prefixForm hf
    cases form with
    | literal => exact runs_literal hf
    | operator op =>
      exact (runs_advance proper).then fun _ r₁ left => (h.expr .unary r₁ (by omega)).bind
        fun _ _ left₂ => runs_pure (congrArg (Expr.mk _ · _) A.τ.todo) (by omega)
          fun tree => .unary (tree.at (by omega))
    | group =>
      exact (runs_advance proper).then fun _ r₁ left => (h.expr .default r₁ (by omega)).bind
        fun _ _ left₂ => (runs_expect (by decide)).then fun _ _ left₃ =>
          runs_pure rfl (by omega) fun tree => tree.at (by omega)
    | «at» => exact h.atExpr short proper
    | array =>
      have bracket : r.kind = .openBracket := by
        cases hk : r.kind <;> simp_all [Kind.prefixForm?, PrefixOp.ofKind?]
      exact h.arrayLit short bracket
    | function => exact h.functionLit short

def itemStep (g : Nested) (items : List Expr) : Parse (List Expr ⊕ List Expr) := do
  if (← kind) = .comma then
    let _ ← advance
    return .inl ((← g.expr .comma) :: items)
  else return .inr items.reverse

theorem itemStep_runs {k : Nat} (items : List Expr) :
    A.Runs r (Sum.map (List.map A.τ.tree.expr) A.τ.tree.exprs) (itemStep g items)
      (itemStep g' (items.map A.τ.tree.expr))
      (fun x r₁ => GoesOn r x r₁ ∧ x.elim (fun more => more.length = items.length + 1)
        fun all => all.length = items.length ∧ r₁ = r ∧ r.kind ≠ .comma)
      fun x r₁ => Row A k .expr items.reverse r →
        x.elim (Row A k .expr ·.reverse r₁) (Row A k .expr · r₁) := by
  refine runs_kind (.ite .rfl (fun comma => ?_) fun other => ?_)
  · exact (runs_advance (comma ▸ by decide)).then fun _ r₁ left =>
      (h.expr .comma r₁ (by omega)).bind fun e _ left₂ => runs_pure rfl
        ⟨⟨by omega, fun _ => by omega⟩, rfl⟩ fun tree row => row_push row (tree.at (by omega))
  · exact runs_pure (by simp [A.τ.tree.exprs_eq_map])
      ⟨⟨Nat.le_refl _, nofun⟩, List.length_reverse, rfl, other⟩ id

theorem items (comma : r.kind = .comma) {k : Nat} (left : Expr) :
    A.Runs r A.τ.tree.exprs (loop (itemStep g) [left]) (loop (itemStep g') [A.τ.tree.expr left])
      (fun items r₁ => Advanced r items r₁ ∧ 2 ≤ items.length)
      fun items r₁ => A.Tree k r.nextId (.expr left) →
        A.Tree k r₁.nextId (.many (items.map .expr)) := by
  refine runs_get ((runs_loopWithin (g := List.map A.τ.tree.expr)
    (I := fun items => Row A k .expr items.reverse)
    (J := fun items r₁ => 1 ≤ items.length ∧ r₁.tokens.length ≤ r.tokens.length ∧
      (r₁.kind ≠ .comma → Advanced r items r₁ ∧ 2 ≤ items.length))
    (fun items r₁ j => (h.itemStep_runs (by omega) items).imp (fun x r₂ q => ⟨q.1, ?_⟩)
      fun _ _ _ => id) r.tokens [left] r
    ⟨Nat.le_refl _, Nat.le_refl _, fun other => absurd comma other⟩).imp (fun _ _ => id)
      fun _ _ _ said tree => said (.cons tree .nil))
  cases x with
  | inl more =>
    obtain ⟨goesOn, length⟩ := q
    have less := goesOn.2 rfl
    have longer : more.length = items.length + 1 := length
    exact ⟨by omega, by omega, fun _ => ⟨by omega, by omega⟩⟩
  | inr all =>
    obtain ⟨_, length, rfl, other⟩ := q
    have done := j.2.2 other
    exact ⟨done.1, length ▸ done.2⟩

theorem extend {left : Expr} {form : InfixForm} (found : r.kind.infixForm? = some form) {k : Nat} :
    A.Runs r A.τ.tree.expr (g.extend left form) (g'.extend (A.τ.tree.expr left) form) (Advanced r)
      fun e r₁ => A.Tree k r.nextId (.expr left) → A.Tree k r₁.nextId (.expr e) := by
  have proper := Kind.proper_of_infixForm found
  cases form with
  | operator op =>
    exact (runs_advance proper).then fun _ r₁ left₁ => (h.expr _ r₁ (by omega)).bind
      fun _ _ left₂ => runs_pure (congrArg (Expr.mk _ · _) A.τ.todo) (by omega)
        fun right left => .binary left (right.at (by omega))
  | comma =>
    have comma : r.kind = .comma := by
      cases hk : r.kind <;> simp_all [Kind.infixForm?, InfixOp.ofKind?]
    refine (h.items short comma left).bind fun items _ left₁ => runs_pure ?_ left₁.1
      fun said tree => .comma left₁.2 (said tree)
    rw [A.τ.tree.token_expr]
    exact congrArg (Expr.mk _ · _) A.τ.todo
  | cast =>
    refine (runs_advance proper).then fun _ _ left₁ => runs_type.bind fun ty _ left₂ =>
      runs_pure (congrArg (Expr.mk _ · _) A.τ.todo) (by omega) fun typed tree => ?_
    exact .builtin (rfl : Builtin.ofName? "cast" = some .cast) rfl (by simpa using typed)
      (.cons (tree.at (by omega)) .nil)
  | call =>
    exact (runs_advance proper).then fun _ _ left₁ => (h.arguments (by omega) (by decide)).bind
      fun _ _ left₂ => runs_pure (congrArg (Expr.mk _ · _) A.τ.todo) (by omega)
        fun args left => .call left (args.at (by omega))
  | index =>
    exact (runs_advance proper).then fun _ r₁ left₁ => (h.expr .default r₁ (by omega)).bind
      fun _ _ left₂ => (runs_expect (by decide)).then fun _ _ left₃ =>
        runs_pure (congrArg (Expr.mk _ · _) A.τ.todo) (by omega) fun index left =>
          .index left (index.at (by omega))
  | member =>
    exact (runs_advance proper).then fun token r₁ left₁ => (h.expr .member r₁ (by omega)).bind
      fun member _ left₂ => runs_pure (A.τ.tree_memberOf left member token) (by omega)
        fun right left => Tree.memberOf left (right.at (by omega))

theorem extendStep (power : Power) {k : Nat} (left : Expr) :
    A.Runs r (Sum.map A.τ.tree.expr A.τ.tree.expr) (g.extendStep power left)
      (g'.extendStep power (A.τ.tree.expr left)) (GoesOn r)
      fun x r₁ => A.Tree k r.nextId (.expr left) →
        x.elim (fun e => A.Tree k r₁.nextId (.expr e)) fun e => A.Tree k r₁.nextId (.expr e) := by
  refine runs_kind ?_
  cases found : r.kind.infixForm? with
  | none => exact runs_stop rfl (Nat.le_refl _) id
  | some form =>
    refine .ite .rfl (fun _ => ?_) fun _ => runs_stop rfl (Nat.le_refl _) id
    exact (h.extend short found).bind fun _ _ left₁ => runs_goOn rfl left₁ id

theorem expression (power : Power) : A.ReadsExpr r (g.expression power) (g'.expression power) := by
  have steps (e : Expr) (r₁ : Reader) (left : Onward r e r₁) :
      A.Runs r₁ A.τ.tree.expr (loop (g.extendStep power) e)
        (loop (g'.extendStep power) (A.τ.tree.expr e)) (Kept r₁)
        fun e' r₂ => A.Tree r.nextId r₁.nextId (.expr e) → A.Tree r.nextId r₂.nextId (.expr e') :=
    runs_loop (I := fun e r₂ => A.Tree r.nextId r₂.nextId (.expr e))
      (fun e _ less => h.extendStep (by omega) power e) rfl
  exact (h.first short).bind fun e r₁ left => (steps e r₁ left).imp (fun _ _ left₂ => by omega)
    fun _ _ _ => id

theorem declaration : A.ReadsStmt r g.declaration g'.declaration :=
  runs_word.then fun _ _ left => (runs_expect (by decide)).then fun _ _ left₂ =>
    runs_declaredType.bind fun _ _ left₃ => (runs_expect (by decide)).then fun _ r₄ left₄ =>
      (h.expr .default r₄ (by omega)).bind fun _ _ left₅ => runs_qualify left.2 fun _ own =>
        runs_pure rfl (by omega) fun value typed => .declare own typed (value.at (by omega))

theorem declareAll {token : Token} {items : List Expr} :
    A.Runs r A.τ.tree.stmt (g.declareAll token items)
      (g'.declareAll (A.τ.token token) (A.τ.tree.exprs items)) (Kept r)
      fun x r₁ => ∀ a, 2 ≤ items.length → A.Tree a r.nextId (.many (items.map .expr)) →
        A.Tree a r₁.nextId (.stmt x) := by
  refine (runs_expect (by decide)).then fun _ _ left => runs_declaredType.bind fun ty _ left₂ =>
    (runs_expect (by decide)).then fun _ r₃ left₃ => (h.expr .default r₃ (by omega)).bind
      fun value r₄ left₄ => (runs_declaredNames items r₄).then fun names _ left₅ =>
        runs_pure ?_ (by omega) fun tree typed a two row => ?_
  · simp [Relabelling.stmt, Translation.tree, Function.comp_def]
  · obtain ⟨le, same, own⟩ := row.idents left₅.2
    have length : names.length = items.length := by
      simpa using (congrArg List.length left₅.2).symm
    exact .declareAll (length ▸ two) own typed (Nat.le_trans le (by omega))
      (same.imp_right fun same => same.trans (by omega)) (tree.at ⟨rfl, left₅.1.2.symm⟩)

omit short in
theorem body (short : r.tokens.length < n) : A.ReadsBody r g.body g'.body :=
  runs_kind (.ite .rfl (fun _ => h.block short) fun _ => (h.stmt r short).bind
    fun _ _ left => runs_pure rfl (by omega) fun tree => .cons tree .nil)

omit short in
theorem branch (short : r.tokens.length < n) :
    A.Runs r A.τ.tree.branch g.branch g'.branch (Kept r)
      fun b r₁ => A.Tree r.nextId r₁.nextId (.branch b) :=
  (h.expr .default r short).bind fun _ _ left => (h.body (by omega)).bind
    fun _ _ left₂ => runs_pure rfl (by omega) fun body condition => .branch condition body

def branchStep (g : Nested) (more : List Branch) :
    Parse (List Branch ⊕ (List Branch × Option (List Stmt))) := do
  if (← kind) ≠ .kwElse then
    return .inr (more.reverse, none)
  let _ ← advance
  if (← kind) ≠ .kwIf then
    return .inr (more.reverse, some (← g.body))
  let _ ← advance
  return .inl ((← g.branch) :: more)

/-- All that has been read of a choice after its first branch. -/
def Rest (A : Setting) (k : Nat) (x : List Branch × Option (List Stmt)) (r : Reader) : Prop :=
  ∃ mid, A.Tree k mid (.many (x.1.map .branch)) ∧
    A.Tree mid r.nextId (.many ((x.2.getD []).map .stmt))

theorem branchStep_runs {k : Nat} (more : List Branch) :
    A.Runs r (Sum.map (List.map A.τ.tree.branch)
        (Prod.map A.τ.tree.branches (Option.map A.τ.tree.stmts))) (branchStep g more)
      (branchStep g' (more.map A.τ.tree.branch)) (GoesOn r)
      fun x r₁ => Row A k .branch more.reverse r →
        x.elim (Row A k .branch ·.reverse r₁) (Rest A k · r₁) := by
  refine runs_kind (.ite .rfl (fun _ => ?_) fun isElse => ?_)
  · refine runs_stop ?_ (Nat.le_refl _) fun row => ⟨_, row, .nil⟩
    simp [A.τ.tree.branches_eq_map]
  refine (runs_advance (not_not.mp isElse ▸ by decide)).then fun _ r₁ left => ?_
  refine runs_kind (.ite .rfl (fun _ => ?_) fun isIf => ?_)
  · refine (h.body (by omega)).bind fun _ r₂ left₂ => runs_stop ?_ (by omega) fun tree row =>
      ⟨_, row, tree.at (by omega)⟩
    simp [A.τ.tree.branches_eq_map]
  · exact (runs_advance (not_not.mp isIf ▸ by decide)).then fun _ _ left₂ =>
      (h.branch (by omega)).bind fun _ r₃ left₃ => runs_goOn rfl (by omega) fun tree row =>
        row_push row (tree.at (by omega))

theorem choose (proper : r.kind.Proper) : A.ReadsStmt r g.choose g'.choose := by
  have steps (r : Reader) (short : r.tokens.length ≤ n) :
      A.Runs r (Prod.map A.τ.tree.branches (Option.map A.τ.tree.stmts)) (loop (branchStep g) [])
        (loop (branchStep g') []) (Kept r) (Rest A r.nextId) :=
    (runs_loop (I := fun bs => Row A r.nextId .branch bs.reverse)
      (fun bs _ less => h.branchStep_runs (by omega) bs) rfl).imp (fun _ _ => id)
        fun _ _ _ said => said .nil
  refine (runs_advance proper).then fun token _ left =>
    (h.branch (by omega)).bind fun first r₂ left₂ =>
    (steps r₂ (by omega)).bind fun x _ left₃ => runs_pure (A.τ.tree.stmt_choose token first x.1 x.2)
      (by omega) fun rest tree => ?_
  obtain ⟨mid, more, otherwise⟩ := rest
  exact .choose (tree.at (by omega)) more otherwise

omit short in
theorem loopCondition (short : r.tokens.length < n) :
    A.Runs r (Option.map A.τ.tree.expr) g.loopCondition g'.loopCondition (Kept r)
      fun e? r₁ => A.Tree r.nextId r₁.nextId (.many (e?.toList.map .expr)) :=
  runs_kind (.ite .rfl (fun _ => runs_pure rfl (Nat.le_refl _) .nil) fun _ =>
    (h.expr .default r short).bind fun _ _ left => runs_pure rfl (by omega) fun tree =>
      .cons tree .nil)

theorem loopPost :
    A.Runs r (Option.map A.τ.tree.stmt) g.loopPost g'.loopPost (Kept r)
      fun x? r₁ => A.Tree r.nextId r₁.nextId (.many (x?.toList.map .stmt)) := by
  refine runs_kind (.ite .rfl (fun _ => runs_pure rfl (Nat.le_refl _) .nil) fun semicolon => ?_)
  refine (runs_advance (not_not.mp semicolon ▸ by decide)).then fun _ r₁ left => ?_
  refine runs_kind (.ite .rfl (fun _ => runs_pure rfl (by omega) ?_) fun _ => ?_)
  · exact Tree.at (.nil (n := r.nextId)) (by omega)
  exact (h.stmt r₁ (by omega)).bind fun _ _ left₂ => runs_pure rfl (by omega) fun tree =>
    .cons (tree.at (by omega)) .nil

theorem loopClauses (semicolon : r.kind = .semicolon) {token : Token} {init : Stmt} {k : Nat} :
    A.Runs r A.τ.tree.stmt (g.loopClauses token init)
      (g'.loopClauses (A.τ.token token) (A.τ.tree.stmt init)) (Kept r)
      fun x r₁ => A.Tree k r.nextId (.stmt init) → A.Tree k r₁.nextId (.stmt x) :=
  (runs_advance (semicolon ▸ by decide)).then fun _ _ left => (h.loopCondition (by omega)).bind
    fun condition _ left₂ => (h.loopPost (by omega)).bind fun post _ left₃ =>
      (runs_skip (by decide)).then fun _ _ left₄ => (h.block (by omega)).bind fun body _ left₅ =>
        runs_pure (A.τ.tree.stmt_loop token (some init) condition post body) (by omega)
          fun body post condition init =>
            .loop nofun (.cons init .nil) (condition.at (by omega)) post (body.at (by omega))

theorem loopStmt (proper : r.kind.Proper) : A.ReadsStmt r g.loopStmt g'.loopStmt := by
  refine (runs_advance proper).then fun _ r₁ left => runs_kind (.ite .rfl (fun _ => ?_) fun _ => ?_)
  · exact (h.block (by omega)).bind fun _ _ left₂ => runs_pure rfl (by omega)
      fun body => .loop (fun _ => rfl) .nil .nil .nil (body.at (by omega))
  · refine (h.stmt r₁ (by omega)).bind fun first r₂ left₂ => runs_kind ?_
    cases hk : r₂.kind with
    | openCurly =>
      cases first with
      | expression token condition =>
        have inner (a b : Nat) (tree : A.Tree a b (.stmt (.expression token condition))) :
            A.Tree a b (.expr condition) := by
          cases tree with
          | expression tree => exact tree
        exact (h.block (by omega)).bind fun _ _ left₃ => runs_pure rfl (by omega)
          fun body tree =>
            .loop (fun _ => rfl) .nil (.cons ((inner _ _ tree).at (by omega)) .nil) .nil body
      | choose _ first _ _ =>
        obtain ⟨_, _⟩ := first
        exact runs_unexpected
      | loop _ _ _ _ _ =>
        rw [A.τ.tree.stmt_loop]
        exact runs_unexpected
      | _ => exact runs_unexpected
    | semicolon =>
      exact (h.loopClauses (by omega) hk).imp (fun _ _ _ => by omega) fun _ _ _ said tree =>
        said (tree.at (by omega))
    | _ =>
      exact runs_pure rfl (by omega) fun tree =>
        .loop (fun _ => rfl) .nil .nil .nil (.cons (tree.at (by omega)) .nil)

theorem functionDecl (proper : r.kind.Proper) : A.ReadsStmt r g.functionDecl g'.functionDecl := by
  refine (runs_advance proper).then fun _ _ left => runs_word.then fun _ _ left₂ =>
    runs_params.bind fun ps _ left₃ => runs_resultBeforeBody.bind fun result _ left₄ =>
      (h.block (by omega)).bind fun body _ left₅ => runs_qualify left₂.2 fun name own =>
        runs_pure ?_ (by omega) fun body typed all =>
          .functionDecl own ⟨_, _, rfl, all, typed⟩ (body.at (by omega))
  exact congrArg (Stmt.function _ · _) (A.τ.signatureOf name ps.1 result)

theorem returnStmt (proper : r.kind.Proper) : A.ReadsStmt r g.returnStmt g'.returnStmt := by
  refine (runs_advance proper).then fun _ r₁ left => runs_kind ?_
  cases r₁.kind with
  | semicolon | closeCurly | eof =>
    exact runs_pure rfl (by omega) (.return (Tree.at (.nil (n := r.nextId)) (by omega)))
  | _ =>
    exact (h.expr .default r₁ (by omega)).bind fun _ _ left₂ => runs_pure rfl (by omega)
      fun tree => .return (.cons (tree.at (by omega)) .nil)

theorem exprStmt (here : A.ReadsExpr r (g.expr .default) (g'.expr .default)) :
    A.ReadsStmt r g.exprStmt g'.exprStmt := by
  refine runs_current (here.bind fun e r₁ left => runs_kind ?_)
  have alone : A.Runs r₁ A.τ.tree.stmt (statementOf r.current e)
      (statementOf (A.τ.token r.current) (A.τ.tree.expr e)) (Onward r)
      fun x r₂ => A.Tree r.nextId r₁.nextId (.expr e) → A.Tree r.nextId r₂.nextId (.stmt x) :=
    runs_statementOf.imp (fun _ _ left₂ => by omega) fun _ _ _ said => said _
  obtain ⟨node, ty, token⟩ := e
  generalize r₁.kind = kind
  cases node with
  | comma items =>
    cases kind with
    | colon =>
      have inner (a b : Nat) (tree : A.Tree a b (.expr ⟨.comma items, ty, token⟩)) :
          2 ≤ items.length ∧ A.Tree a b (.many (items.map .expr)) := by
        cases tree with
        | comma two tree => exact ⟨two, tree⟩
      exact (h.declareAll (by omega)).imp (fun _ _ left₂ => by omega) fun _ _ _ said tree =>
        said _ (inner _ _ tree).1 (inner _ _ tree).2
    | _ => exact alone
  | _ => exact alone

/-- A statement is read in the same way if all that is inside it and the expression that it begins
with are. -/
theorem statement (here : A.ReadsExpr r (g.expr .default) (g'.expr .default)) :
    A.ReadsStmt r g.statement g'.statement := by
  refine runs_get ?_
  have proper (form : StmtForm) (found : (if r.kind = .kwFunc ∧ r.peek.kind = .openParen then none
      else r.kind.stmtForm?) = some form) : r.kind.Proper := by
    split at found
    · cases found
    · exact Kind.proper_of_stmtForm found
  simp only [A.τ.reader_kind, A.τ.reader_peek, A.τ.kind_token]
  split
  case h_1 found => exact h.choose short (proper _ found)
  case h_2 found => exact h.loopStmt short (proper _ found)
  case h_3 found => exact runs_recordDecl (proper _ found)
  case h_4 found => exact h.functionDecl short (proper _ found)
  case h_5 found => exact h.returnStmt short (proper _ found)
  case h_6 found => exact runs_importDecl (proper _ found)
  case h_7 found =>
    exact (runs_advance (proper _ found)).then fun _ _ left => runs_pure rfl (by omega)
      (Tree.at (.break (n := r.nextId)) (by omega))
  case h_8 found =>
    exact (runs_advance (proper _ found)).then fun _ _ left => runs_pure rfl (by omega)
      (Tree.at (.continue (n := r.nextId)) (by omega))
  case h_9 found => exact runs_externalDecl (proper _ found)
  case h_10 found => exact runs_genericDecl (proper _ found)
  case h_11 => exact .ite .rfl (fun _ => h.declaration short) fun _ => h.exprStmt short here

end Agree

theorem agree_self (A : Setting) (m n : Nat) : A.Agree (.within m) (.within m) n := by
  induction m generalizing n with
  | zero =>
    refine ⟨fun power r _ => ?_, fun r _ => ?_⟩
    · change A.ReadsExpr r (unexpected "expression") (unexpected "expression")
      exact runs_unexpected
    · change A.ReadsStmt r (unexpected "statement") (unexpected "statement")
      exact runs_unexpected
  | succ m ih =>
    refine ⟨fun power r short => ?_, fun r short => ?_⟩
    · exact ((ih n).expression (Nat.le_of_lt short) power).of_run rfl rfl
    · exact ((ih n).statement (Nat.le_of_lt short) ((ih n).expr .default r short)).of_run rfl rfl

/-- Two levels for each token are deep enough, so more of them make no difference. -/
theorem agree_within (A : Setting) {m m' n : Nat} (deep : 2 * n ≤ m) (deep' : 2 * n ≤ m') :
    A.Agree (.within m) (.within m') n := by
  induction n generalizing m m' with
  | zero =>
    exact ⟨fun _ _ short => absurd short (Nat.not_lt_zero _),
      fun _ short => absurd short (Nat.not_lt_zero _)⟩
  | succ n ih =>
    obtain ⟨m, rfl⟩ := Nat.exists_eq_add_of_le' (show 2 ≤ m by omega)
    obtain ⟨m', rfl⟩ := Nat.exists_eq_add_of_le' (show 2 ≤ m' by omega)
    have below : A.Agree (.within m) (.within m') n := ih (by omega) (by omega)
    have same : A.Agree (.within (m + 1)) (.within (m' + 1)) n := ih (by omega) (by omega)
    have expr (power : Power) (r : Reader) (short : r.tokens.length ≤ n) :
        A.ReadsExpr r ((Nested.within (m + 1)).expr power) ((Nested.within (m' + 1)).expr power) :=
      (below.expression short power).of_run rfl rfl
    refine ⟨fun power r short => ?_, fun r short => ?_⟩
    · exact (same.expression (Nat.le_of_lt_succ short) power).of_run rfl rfl
    · have short := Nat.le_of_lt_succ short
      exact (same.statement short (expr .default r short)).of_run rfl rfl

end Setting

end FrontEnd
