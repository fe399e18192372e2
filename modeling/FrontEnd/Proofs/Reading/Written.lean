import FrontEnd.Proofs.Reading.Natural
import FrontEnd.Proofs.Typing.Clean

namespace FrontEnd

mutual

/-- What reading says about the types in an expression. -/
def Expr.Written : Expr → Prop
  | ⟨.ident _, _, _⟩ => True
  | ⟨.integer _, ty, _⟩ => ty = .int 32 ∨ ty = .bool
  | ⟨.float _, ty, _⟩ => ty = .float 64
  | ⟨.string _, ty, _⟩ => ty = .pointer (.int 8)
  | ⟨.binary _ left right, _, _⟩ => left.Written ∧ right.Written
  | ⟨.unary _ operand, _, _⟩ => operand.Written
  | ⟨.index base index, _, _⟩ => base.Written ∧ index.Written
  | ⟨.call callee args, _, _⟩ => callee.Written ∧ Expr.AllWritten args
  | ⟨.builtin name typeArgs args, _, _⟩ =>
    (∃ b, Builtin.ofName? name = some b ∧ typeArgs.length = b.typeArgs) ∧
      (∀ t ∈ typeArgs, t.settled = true) ∧ Expr.AllWritten args
  | ⟨.structLit _ _ fields, _, _⟩ => Expr.FieldsWritten fields
  | ⟨.arrayLit ty elements, _, _⟩ =>
    (ty.isArray = true ∧ ty.settled = true) ∧ Expr.AllWritten elements
  | ⟨.comma items, _, _⟩ => Expr.AllWritten items
  | ⟨.function sig body, _, _⟩ => (Ty.func sig).settled = true ∧ Stmt.AllWritten body

def Expr.AllWritten : List Expr → Prop
  | [] => True
  | e :: es => e.Written ∧ Expr.AllWritten es

def Expr.FieldsWritten : List FieldInit → Prop
  | [] => True
  | ⟨_, e⟩ :: fs => e.Written ∧ Expr.FieldsWritten fs

def Stmt.Written : Stmt → Prop
  | .expression _ e => e.Written
  | .declare _ _ ty value => (ty.isTodo = true ∨ ty.settled = true) ∧ value.Written
  | .declareAll _ _ ty _ value => (ty.isTodo = true ∨ ty.settled = true) ∧ value.Written
  | .assign _ target value => target.Written ∧ value.Written
  | .record _ decl => (Ty.record decl).settled = true
  | .function _ sig body => (Ty.func sig).settled = true ∧ Stmt.AllWritten body
  | .choose _ ⟨condition, body⟩ more otherwise =>
    (condition.Written ∧ Stmt.AllWritten body) ∧ Stmt.BranchesWritten more ∧
      match otherwise with
      | some xs => Stmt.AllWritten xs
      | none => True
  | .loop _ init condition post body =>
    (match init with
      | some x => x.Written
      | none => True) ∧
    (match condition with
      | some e => e.Written
      | none => True) ∧
    (match post with
      | some x => x.Written
      | none => True) ∧ Stmt.AllWritten body
  | .return _ value =>
    match value with
    | some e => e.Written
    | none => True
  | .external _ sig => (Ty.func sig).settled = true
  | .importUnit _ _ typeArgs _ => ∀ t ∈ typeArgs, t.settled = true
  | .break _ | .continue _ | .generic _ _ _ => True

def Stmt.AllWritten : List Stmt → Prop
  | [] => True
  | x :: xs => x.Written ∧ Stmt.AllWritten xs

def Stmt.BranchesWritten : List Branch → Prop
  | [] => True
  | ⟨condition, body⟩ :: bs =>
    (condition.Written ∧ Stmt.AllWritten body) ∧ Stmt.BranchesWritten bs

end

theorem Stmt.written_choose {token : Token} {first : Branch} {more : List Branch}
    {otherwise : Option (List Stmt)} :
    (Stmt.choose token first more otherwise).Written ↔
      (first.condition.Written ∧ Stmt.AllWritten first.body) ∧ Stmt.BranchesWritten more ∧
        Stmt.AllWritten (otherwise.getD []) := by
  obtain ⟨condition, body⟩ := first
  rw [Stmt.Written.eq_def]
  cases otherwise <;> simp [Stmt.AllWritten]

theorem Stmt.written_loop {token : Token} {init post : Option Stmt} {e : Option Expr}
    {xs : List Stmt} :
    (Stmt.loop token init e post xs).Written ↔ (∀ x, init = some x → x.Written) ∧
      (∀ a, e = some a → a.Written) ∧ (∀ x, post = some x → x.Written) ∧ Stmt.AllWritten xs := by
  rw [Stmt.Written.eq_def]
  cases init <;> cases e <;> cases post <;> simp

theorem Stmt.written_return (token : Token) {value : Option Expr} :
    (Stmt.return token value).Written ↔ ∀ e, value = some e → e.Written := by
  rw [Stmt.Written.eq_def]
  cases value <;> simp

theorem Expr.allWritten_iff {es : List Expr} : Expr.AllWritten es ↔ ∀ e ∈ es, e.Written := by
  induction es with
  | nil => simp [Expr.AllWritten]
  | cons e es ih => simp [Expr.AllWritten, ih]

theorem Expr.fieldsWritten_iff {fs : List FieldInit} :
    Expr.FieldsWritten fs ↔ ∀ f ∈ fs, f.value.Written := by
  induction fs with
  | nil => simp [Expr.FieldsWritten]
  | cons f fs ih =>
    obtain ⟨name, value⟩ := f
    simp [Expr.FieldsWritten, ih]

theorem Stmt.allWritten_iff {xs : List Stmt} : Stmt.AllWritten xs ↔ ∀ x ∈ xs, x.Written := by
  induction xs with
  | nil => simp [Stmt.AllWritten]
  | cons x xs ih => simp [Stmt.AllWritten, ih]

theorem Stmt.branchesWritten_iff {bs : List Branch} :
    Stmt.BranchesWritten bs ↔ ∀ b ∈ bs, b.condition.Written ∧ Stmt.AllWritten b.body := by
  induction bs with
  | nil => simp [Stmt.BranchesWritten]
  | cons b bs ih =>
    obtain ⟨condition, body⟩ := b
    simp [Stmt.BranchesWritten, ih]

theorem Ty.settled_primitive {name : String} {t : Ty} (h : Ty.primitive? name = some t) :
    t.settled = true := by
  have all : ∀ p ∈ Ty.primitives, p.2.settled = true := by decide
  exact all _ (Table.mem_of_lookup h)

theorem Parse.settled_signatureOf {name : String} {ps : List (String × Ty)} {result : Ty}
    (hp : ∀ p ∈ ps, p.2.settled = true) (hr : result.settled = true) :
    (Ty.func (signatureOf name ps result)).settled = true := by
  refine Ty.settled_func.mpr ⟨fun t ht => ?_, hr⟩
  obtain ⟨p, mem, rfl⟩ := List.mem_map.mp ht
  exact hp p mem

inductive Phrase.Written : Phrase → Prop where
  | expr {e : Expr} : e.Written → Written (.expr e)
  | field {f : FieldInit} : f.value.Written → Written (.field f)
  | stmt {x : Stmt} : x.Written → Written (.stmt x)
  | branch {b : Branch} : b.condition.Written ∧ Stmt.AllWritten b.body → Written (.branch b)
  | many {ps : List Phrase} : (∀ p ∈ ps, Written p) → Written (.many ps)

namespace Phrase.Written

variable {α : Type} {xs : List α}

theorem of_expr {e : Expr} : Written (.expr e) → e.Written
  | .expr h => h

theorem of_stmt {x : Stmt} : Written (.stmt x) → x.Written
  | .stmt h => h

theorem of_branch {b : Branch} : Written (.branch b) → b.condition.Written ∧ Stmt.AllWritten b.body
  | .branch h => h

theorem of_many {part : α → Phrase} (h : Written (.many (xs.map part))) :
    ∀ x ∈ xs, Written (part x) := by
  cases h with
  | many all => exact fun x hx => all _ (List.mem_map_of_mem hx)

theorem exprs {es : List Expr} (h : Written (.many (es.map .expr))) : Expr.AllWritten es :=
  Expr.allWritten_iff.mpr fun e he => (h.of_many e he).of_expr

theorem stmts {xs : List Stmt} (h : Written (.many (xs.map .stmt))) : Stmt.AllWritten xs :=
  Stmt.allWritten_iff.mpr fun x hx => (h.of_many x hx).of_stmt

end Phrase.Written

namespace Setting

/-- A unit that is given settled types and has no errors. -/
def settled (unit : String) : Setting :=
  ⟨.identity, unit, trivial, fun t => t.settled = true, False, False.elim⟩

variable {unit : String}

theorem Typed.settled {t : Ty} (h : (settled unit).Typed t) : t.settled = true := by
  induction h with
  | given given => exact given
  | primitive found => exact Ty.settled_primitive found
  | pointer _ ih => exact ih
  | array _ _ ih => exact ih
  | func _ _ params result => exact Ty.settled_func.mpr ⟨params, result⟩
  | named => rfl

theorem Signs.settled {name : String} {sig : Signature} (h : (settled unit).Signs name sig) :
    (Ty.func sig).settled = true := by
  obtain ⟨ps, result, rfl, params, typed⟩ := h
  exact Parse.settled_signatureOf (fun p hp => (params p hp).2.settled) typed.settled

theorem declared_settled {t : Ty} (h : t = .todo ∨ (settled unit).Typed t) :
    t.isTodo = true ∨ t.settled = true :=
  h.imp (fun todo => by rw [todo]; rfl) Typed.settled

theorem Tree.written {a b : Nat} {p : Phrase} (h : (settled unit).Tree a b p) : p.Written := by
  induction h with
  | ident => exact .expr trivial
  | integer ty => exact .expr ty
  | float => exact .expr rfl
  | string => exact .expr rfl
  | binary _ _ left right => exact .expr ⟨left.of_expr, right.of_expr⟩
  | unary _ ih => exact .expr ih.of_expr
  | index _ _ base index => exact .expr ⟨base.of_expr, index.of_expr⟩
  | call _ _ callee args => exact .expr ⟨callee.of_expr, args.exprs⟩
  | builtin known arity types _ args =>
    exact .expr ⟨⟨_, known, arity⟩, fun t ht => (types t ht).settled, args.exprs⟩
  | structLit _ _ _ fields =>
    refine .expr (Expr.fieldsWritten_iff.mpr fun f hf => ?_)
    cases fields.of_many f hf with
    | field h => exact h
  | arrayLit typed isArray _ elements => exact .expr ⟨⟨isArray, typed.settled⟩, elements.exprs⟩
  | comma _ _ items => exact .expr items.exprs
  | function sig _ body => exact .expr ⟨sig.settled, body.stmts⟩
  | field _ _ value => exact .field value.of_expr
  | expression _ e => exact .stmt e.of_expr
  | declare _ typed _ value => exact .stmt ⟨declared_settled typed, value.of_expr⟩
  | declareAll _ _ typed _ _ _ value => exact .stmt ⟨declared_settled typed, value.of_expr⟩
  | assign _ _ target value => exact .stmt ⟨target.of_expr, value.of_expr⟩
  | record _ fields => exact .stmt (Ty.settled_record.mpr fun f hf => (fields f hf).2.settled)
  | functionDecl _ sig _ body => exact .stmt ⟨sig.settled, body.stmts⟩
  | branch _ _ condition body => exact .branch ⟨condition.of_expr, body.stmts⟩
  | choose _ _ _ first more otherwise =>
    exact .stmt (Stmt.written_choose.mpr ⟨first.of_branch, Stmt.branchesWritten_iff.mpr fun b hb =>
      (more.of_many b hb).of_branch, otherwise.stmts⟩)
  | loop _ _ _ _ _ init condition post body =>
    refine .stmt (Stmt.written_loop.mpr ⟨?_, ?_, ?_, body.stmts⟩)
    · rintro x rfl
      exact (init.of_many x (by simp)).of_stmt
    · rintro e rfl
      exact (condition.of_many e (by simp)).of_expr
    · rintro x rfl
      exact (post.of_many x (by simp)).of_stmt
  | «return» _ value =>
    refine .stmt ((Stmt.written_return _).mpr ?_)
    rintro e rfl
    exact (value.of_many e (by simp)).of_expr
  | «break» | «continue» | generic => exact .stmt trivial
  | external _ sig => exact .stmt sig.settled
  | importUnit _ types => exact .stmt fun t ht => (types t ht).settled
  | nil => exact .many nofun
  | cons _ _ first rest =>
    cases rest with
    | many rest => exact .many (List.forall_mem_cons.mpr ⟨first, rest⟩)
  | lost lossy => exact lossy.elim

end Setting

theorem Program.written_read {c : Cursor} {o : ReadOptions}
    (settled : ∀ t ∈ o.typeArgs, t.settled = true) (noErrors : (Program.read c o).errors = []) :
    Stmt.AllWritten (Program.read c o).program.statements :=
  (((Setting.settled o.unit).tree_read c rfl settled).2 (.inr noErrors)).written.stmts

end FrontEnd
