import FrontEnd.Proofs.Build
import FrontEnd.Proofs.Checking.Returns
import FrontEnd.Proofs.Mistakes.Below
import FrontEnd.Proofs.Mistakes.Edit

/-!
A mistake is reported once. When identifiers of a program without errors are replaced by names
that are not bound, the checker goes the same way over both programs. Behind each mistake less is
known of the types, which no check holds against them, so that the mistakes are all that is
reported.
-/

namespace FrontEnd

open Check CheckState

/-- The token of the identifier that is looked up first: the expression itself, or the object or
module before a dot. -/
def Expr.lookedUp? : Expr → Option Token
  | ⟨.ident _, _, token⟩ => some token
  | ⟨.binary .dot ⟨.ident _, _, token⟩ _, _, _⟩ => some token
  | _ => none

/-- A new name is bound neither to a variable nor to a module where an identifier is looked up. -/
def Edit.UnboundAt (d : Edit) (e : Expr) (s : CheckState) : Prop :=
  ∀ {token name}, e.lookedUp? = some token → d.name? token = some name →
    s.env.vars.get? name = none ∧ s.env.module? name = none

def Edit.Unbound (d : Edit) : Law := fun e s _ _ => d.UnboundAt e s

def Law.any : Law := fun _ _ _ _ => True

/-- Item `i` has been checked from `s` to `s'`, with result `r`. Checked after the edit, from a
state behind `s` with errors `es`, it ends behind `s'`, and its mistakes have been added to the
errors. -/
@[reducible]
def Item.Redone (imp : Importer) (d : Edit) :
    (i : Item) → CheckState → i.Result → CheckState → List Diagnostic → CheckState → Prop
  | .expr e, _, e', s', es, t => ∃ f t', Checks imp .any (.expr (d.expr e)) t f t' ∧
      f.ty.Below e'.ty ∧ Behind (es ++ d.mistakes e.lookups) t' s'
  | .node e, s, e', s', es, t => d.UnboundAt e s →
      ∃ f t', Checks imp .any (.node (d.expr e)) t f t' ∧
      f.ty.Below e'.ty ∧ Behind (es ++ d.mistakes e.lookups) t' s'
  | .exprs xs, _, xs', s', es, t => ∃ ys t', Checks imp .any (.exprs (d.exprs xs)) t ys t' ∧
      List.Forall₂ (fun f e => f.ty.Below e.ty) ys xs' ∧
      Behind (es ++ d.mistakes (Expr.allLookups xs)) t' s'
  -- Arguments are not compared with parameters if nothing is known of what is called.
  | .args params xs, _, _, s', es, t =>
      (∃ ys t', Checks imp .any (.args params (d.exprs xs)) t ys t' ∧
        Behind (es ++ d.mistakes (Expr.allLookups xs)) t' s') ∧
      ∃ ys t', Checks imp .any (.exprs (d.exprs xs)) t ys t' ∧
        Behind (es ++ d.mistakes (Expr.allLookups xs)) t' s'
  | .elements element xs, _, _, s', es, t => ∃ ys t',
      Checks imp .any (.elements element (d.exprs xs)) t ys t' ∧
      Behind (es ++ d.mistakes (Expr.allLookups xs)) t' s'
  | .values _, _, _, _, _, _ => True
  | .fields decl seen fs, _, _, s', es, t => ∃ gs t',
      Checks imp .any (.fields decl seen (d.fields fs)) t gs t' ∧
      Behind (es ++ d.mistakes (Expr.fieldLookups fs)) t' s'
  | .builtin b ty token xs, _, (_, ty'), s', es, t => ∃ ys u t',
      Checks imp .any (.builtin b ty (d.token token) (d.exprs xs)) t (ys, u) t' ∧ u.Below ty' ∧
      Behind (es ++ d.mistakes (Expr.allLookups xs)) t' s'
  | .list e, _, e', s', es, t => ∃ f t', Checks imp .any (.list (d.expr e)) t f t' ∧
      List.Forall₂ Ty.Below f.valueTypes e'.valueTypes ∧
      Behind (es ++ d.mistakes e.lookups) t' s'
  | .condition token e, _, _, s', es, t => ∃ f t',
      Checks imp .any (.condition (d.token token) (d.expr e)) t f t' ∧
      Behind (es ++ d.mistakes e.lookups) t' s'
  | .guard token e?, _, _, s', es, t => ∃ f? t',
      Checks imp .any (.guard (d.token token) (e?.map d.expr)) t f? t' ∧
      Behind (es ++ d.mistakes (e?.elim [] Expr.lookups)) t' s'
  | .result e?, _, e'?, s', es, t => ∃ f? t', Checks imp .any (.result (e?.map d.expr)) t f? t' ∧
      Ty.Below (f?.elim .void (·.ty)) (e'?.elim .void (·.ty)) ∧
      Behind (es ++ d.mistakes (e?.elim [] Expr.lookups)) t' s'
  | .body xs, _, (_, returns), s', es, t => ∃ ys t',
      Checks imp .any (.body (d.stmts xs)) t (ys, returns) t' ∧
      Behind (es ++ d.mistakes (Stmt.blockLookups xs)) t' s'
  | .function sig name token xs, _, _, s', es, t => ∃ ys t',
      Checks imp .any (.function sig name (d.token token) (d.stmts xs)) t ys t' ∧
      Behind (es ++ d.mistakes (Stmt.blockLookups xs)) t' s'
  | .stmt x, _, _, s', es, t => ∃ y t', Checks imp .any (.stmt (d.stmt x)) t y t' ∧
      Behind (es ++ d.mistakes x.lookups) t' s'
  | .clause x?, _, _, s', es, t => ∃ y? t', Checks imp .any (.clause (x?.map d.stmt)) t y? t' ∧
      Behind (es ++ d.mistakes (x?.elim [] Stmt.lookups)) t' s'
  | .stmts xs, s, _, s', es, t => s.returns = false → ∃ ys t',
      Checks imp .any (.stmts (d.stmts xs)) t ys t' ∧
      Behind (es ++ d.mistakes (Stmt.blockLookups xs)) t' s'
  | .branches token bs, _, (_, all), s', es, t => ∃ cs t',
      Checks imp .any (.branches (d.token token) (d.branches bs)) t (cs, all) t' ∧
      Behind (es ++ d.mistakes (Stmt.branchLookups bs)) t' s'
  | .top xs, _, _, s', es, t => ∃ ys t', Checks imp .any (.top (d.stmts xs)) t ys t' ∧
      Behind (es ++ d.mistakes (Stmt.topLookups xs)) t' s'

section

variable {imp : Importer} {d : Edit} {s s' t : CheckState} {es : List Diagnostic}

theorem CheckState.Behind.no_mistakes (behind : Behind es t s) :
    Behind (es ++ d.mistakes []) t s := by
  rw [d.mistakes_nil, List.append_nil]
  exact behind

theorem CheckState.Behind.mistakes {ks ls : List Token}
    (behind : Behind (es ++ d.mistakes ks ++ d.mistakes ls) t s) :
    Behind (es ++ d.mistakes (ks ++ ls)) t s := by
  rw [d.mistakes_append, ← List.append_assoc]
  exact behind

theorem Checks.dead_of_returns {P : Law} {xs xs' : List Stmt}
    (h : Checks imp P (.stmts xs) s xs' s')
    (returns : s.returns = true) : s' = s := by
  cases h with
  | dead _ => rfl
  | stmtsNil reached | stmtsCons reached _ _ => simp [returns] at reached

theorem CheckState.Behind.redone_ident {name : String} {ty ty' : Ty} {token : Token}
    (behind : Behind es t s)
    (u : s.Uncapped) (typed : Runs imp (Check.identType name token) s ty s)
    (unbound : d.UnboundAt ⟨.ident name, ty', token⟩ s) :
    ∃ f t', Checks imp .any (.node (d.expr ⟨.ident name, ty', token⟩)) t f t' ∧ f.ty.Below ty ∧
      Behind (es ++ d.mistakes [token]) t' s := by
  rw [Edit.expr]
  cases replaced : d.name? token with
  | none =>
    obtain ⟨v, typed', less⟩ := behind.identType u typed
    refine ⟨_, t, .ident typed', less, ?_⟩
    rw [d.mistakes_of_none replaced, List.append_nil]
    exact behind
  | some z =>
    obtain ⟨free, noModule⟩ := unbound rfl replaced
    obtain ⟨t', typed', behind'⟩ := behind.undefined u free noModule
    refine ⟨_, t', .ident typed', .todo _, ?_⟩
    rw [d.mistakes_of_some replaced]
    exact behind'

theorem runs_fieldAccess_todo (u : t.Uncapped) (field : Expr) (token : Token) :
    Runs imp (fieldAccess .todo field token) t (field, .todo) t :=
  silent_fieldAccess.mpr ⟨.todo, (silent_accessedType u).mpr (.inr ⟨rfl, rfl⟩),
    (silent_recordField u).mpr (.inr ⟨rfl, rfl⟩)⟩

theorem CheckState.moduleOf?_ident (s : CheckState) (name : String) (ty : Ty) (token : Token) :
    s.moduleOf? ⟨.ident name, ty, token⟩ =
      if s.env.vars.contains name then none else s.env.module? name :=
  rfl

theorem Edit.UnboundAt.moduleOf? {left right : Expr} {ty : Ty} {token : Token}
    (unbound : d.UnboundAt ⟨.binary .dot left right, ty, token⟩ s)
    (notModule : s.moduleOf? left = none) : s.moduleOf? (d.expr left) = none := by
  cases named : left.name? with
  | none =>
    have named' := d.name?_expr named
    simp [CheckState.moduleOf?, named']
  | some name =>
    obtain ⟨node, ty', token'⟩ := left
    cases node with
    | ident name =>
      rw [Edit.expr]
      cases replaced : d.name? token' with
      | none => exact notModule
      | some z =>
        obtain ⟨_, noModule⟩ := unbound rfl replaced
        rw [moduleOf?_ident, Option.getD_some, noModule, ite_self]
    | _ => simp [Expr.name?] at named

theorem CheckState.Behind.redone_member {left right right' : Expr} {ty ty' : Ty}
    {token : Token} {m : Module}
    (behind : Behind es t s) (u : s.Uncapped) (isModule : s.moduleOf? left = some m)
    (typed : Runs imp (Check.moduleMember m right token) s (right', ty') s)
    (unbound : d.UnboundAt ⟨.binary .dot left right, ty, token⟩ s) :
    ∃ f t', Checks imp .any (.node (d.expr ⟨.binary .dot left right, ty, token⟩)) t f t' ∧
      f.ty.Below ty' ∧ Behind (es ++ d.mistakes left.lookups) t' s := by
  obtain ⟨node, ty₁, token₁⟩ := left
  obtain ⟨name, rfl, _, _⟩ := moduleOf?_eq_some isModule
  rw [d.expr_dot, Edit.expr]
  cases replaced : d.name? token₁ with
  | none =>
    obtain ⟨right'', typed'⟩ := behind.moduleMember u (d.name?_member right) typed
    refine ⟨_, t, .member ((behind.moduleOf? _).trans isModule) typed', .refl ty', ?_⟩
    rw [Expr.lookups, d.mistakes_of_none replaced, List.append_nil]
    exact behind
  | some z =>
    -- The new name is not a module, so that what follows is the field of an unknown object.
    obtain ⟨free, noModule⟩ := unbound rfl replaced
    obtain ⟨t', undefined, behind'⟩ := behind.undefined u free noModule
    have notModule : t.moduleOf? ⟨.ident z, ty₁, d.token token₁⟩ = none := by
      rw [behind.moduleOf?, moduleOf?_ident, noModule, ite_self]
    refine ⟨_, t', .field notModule (.expr (.ident undefined) trivial)
      (runs_fieldAccess_todo (behind'.uncapped u) _ _), .todo ty', ?_⟩
    rw [Expr.lookups, d.mistakes_of_some replaced]
    exact behind'

/-- What is to be shown of an item: checked without errors, it is checked again after the edit. -/
def Item.RedoneIfQuiet (imp : Importer) (d : Edit) (i : Item) (s : CheckState) (r : i.Result)
    (s' : CheckState) : Prop :=
  ∀ {t : CheckState} {es : List Diagnostic}, s'.Quiet → Behind es t s →
    i.Redone imp d s r s' es t

namespace Checks

variable {P : Law} {s₁ s₂ s₃ s₄ s₅ : CheckState} {token : Token} {ty ty₀ : Ty} {e e' : Expr}
variable {xs xs' : List Expr} {x x' : Stmt} {ys ys' : List Stmt} {u v : Unit}

theorem redone_call {callee callee' : Expr} {sig : Signature} (steady : imp.Steady)
    (callable : Runs imp (calleeSignature callee' token) s₁ (some sig) s₂)
    (given : Checks imp P (.args sig.params xs)
      (s₂.noteUnless (xs.length = sig.params.length)
        ⟨.check (.argumentCount sig.params.length xs.length), token.start⟩) xs' s₃)
    (typed : Runs imp (resolveValue sig.result token) s₃ ty s')
    (ih : (Item.expr callee).RedoneIfQuiet imp d s callee' s₁)
    (ihs : (Item.args sig.params xs).RedoneIfQuiet imp d
      (s₂.noteUnless (xs.length = sig.params.length)
        ⟨.check (.argumentCount sig.params.length xs.length), token.start⟩) xs' s₃) :
    (Item.node ⟨.call callee xs, ty₀, token⟩).RedoneIfQuiet imp d s
      ⟨.call callee' xs', ty, token⟩ s' := by
  intro t es q behind _
  obtain rfl := notes_resolveValue.quiet typed q
  have q₁ := given.quiet steady q
  obtain ⟨count, same⟩ := quiet_noteUnless q₁
  rw [same] at q₁ ihs
  obtain rfl := notes_calleeSignature.quiet callable q₁
  obtain ⟨callee, t₁, called, less, behind₁⟩ := ih q₁ behind
  obtain ⟨⟨args, t₂, given₂, behind₂⟩, _, t₃, given₃, behind₃⟩ := ihs q behind₁
  obtain callable' | notCallable := behind₁.calleeSignature q₁.uncapped less callable
  · obtain ⟨ty, typed', result⟩ := behind₂.resolveValue q.uncapped (.refl _) typed
    refine ⟨⟨.call callee args, ty, _⟩, t₂, .call called callable' ?_ typed', result,
      behind₂.mistakes⟩
    rw [d.length_exprs, noteUnless, if_pos count]
    exact given₂
  · exact ⟨_, t₃, .uncallable called notCallable given₃, .todo _, behind₃.mistakes⟩

theorem redone_builtin {name : String} {b : Builtin} {typeArgs typeArgs' : List Ty}
    (steady : imp.Steady) (known : Runs imp (builtin? name xs.length token) s (some b) s₁)
    (types : Runs imp (resolveTypeArgs token typeArgs) s₁ typeArgs' s₂)
    (given : Checks imp P (.builtin b (typeArgs'.headD .todo) token xs) s₂ (xs', ty) s')
    (ih : (Item.builtin b (typeArgs'.headD .todo) token xs).RedoneIfQuiet imp d s₂ (xs', ty) s') :
    (Item.node ⟨.builtin name typeArgs xs, ty₀, token⟩).RedoneIfQuiet imp d s
      ⟨.builtin name typeArgs' xs', ty, token⟩ s' := by
  intro t es q behind _
  have q₁ := given.quiet steady q
  obtain rfl := (notes_resolveTypeArgs _).quiet types q₁
  obtain rfl := notes_builtin?.quiet known q₁
  obtain ⟨_, _, t₁, given', less, behind₁⟩ := ih q behind
  refine ⟨_, t₁, .builtin ?_ (behind.resolveTypeArgs q₁.uncapped types) given', less, behind₁⟩
  rw [d.length_exprs]
  exact behind.builtin? q₁.uncapped known

theorem redone_arrayLit {written element : Ty} {length : Nat} (steady : imp.Steady)
    (array : Runs imp (resolveAll written token) s (.array element length) s₁)
    (given : Checks imp P (.elements element xs)
      (s₁.noteUnless (xs.length ≤ length)
        ⟨.check (.arrayLiteralTooLong length xs.length), token.start⟩) xs' s')
    (ih : (Item.elements element xs).RedoneIfQuiet imp d
      (s₁.noteUnless (xs.length ≤ length)
        ⟨.check (.arrayLiteralTooLong length xs.length), token.start⟩) xs' s') :
    (Item.node ⟨.arrayLit written xs, ty₀, token⟩).RedoneIfQuiet imp d s
      ⟨.arrayLit (.array element length) xs', .array element length, token⟩ s' := by
  intro t es q behind _
  have q₁ := given.quiet steady q
  obtain ⟨count, same⟩ := quiet_noteUnless q₁
  rw [same] at q₁ ih
  obtain rfl := notes_resolveAll.quiet array q₁
  obtain ⟨elements, t₁, given', behind₁⟩ := ih q behind
  refine ⟨⟨.arrayLit _ elements, _, _⟩, t₁, .arrayLit (behind.resolveAll q₁.uncapped array) ?_,
    .refl _, behind₁⟩
  rw [d.length_exprs, noteUnless, if_pos count]
  exact given'

theorem redone_lambda {sig : Signature}
    (ih : (Item.function (s.resolver.resolveSignature sig) "<anonymous>" token ys).RedoneIfQuiet
      imp d { s with barrier := some s.env.vars.depth } ys' s₁) :
    (Item.node ⟨.function sig ys, ty₀, token⟩).RedoneIfQuiet imp d s
      ⟨.function (s.resolver.resolveSignature sig) ys', .func (s.resolver.resolveSignature sig),
        token⟩ { s₁ with barrier := s.barrier } := by
  intro t es q behind _
  obtain ⟨_, t₁, inner, behind₁⟩ := ih ⟨q.uncapped, q.errors⟩ (behind.setBarrier _)
  rw [← behind.depth, ← behind.resolver] at inner
  refine ⟨_, _, .lambda inner, ?_, ?_⟩
  · rw [behind.resolver]
    exact .refl _
  · rw [behind.barrier]
    exact behind₁.setBarrier _

theorem redone_fieldsCons {decl : Record} {seen : List String} {name : String}
    {fs fs' : List FieldInit} (steady : imp.Steady)
    (first : Checks imp P (.expr e)
      (s.noteUnless (name ∉ seen) ⟨.check (.duplicateField name), e.token.start⟩) e' s₁)
    (fits : Runs imp (checkField decl name e') s₁ u s₂)
    (rest : Checks imp P (.fields decl (name :: seen) fs) s₂ fs' s')
    (ih : (Item.expr e).RedoneIfQuiet imp d
      (s.noteUnless (name ∉ seen) ⟨.check (.duplicateField name), e.token.start⟩) e' s₁)
    (ihs : (Item.fields decl (name :: seen) fs).RedoneIfQuiet imp d s₂ fs' s') :
    (Item.fields decl seen (⟨name, e⟩ :: fs)).RedoneIfQuiet imp d s (⟨name, e'⟩ :: fs') s' := by
  intro t es q behind
  have q₁ := rest.quiet steady q
  obtain rfl := notes_checkField.quiet fits q₁
  obtain ⟨fresh, same⟩ := quiet_noteUnless (first.quiet steady q₁)
  rw [same] at ih
  obtain ⟨value, t₁, first', less, behind₁⟩ := ih q₁ behind
  obtain ⟨fields, t₂, rest', behind₂⟩ := ihs q behind₁
  refine ⟨⟨_, value⟩ :: fields, t₂,
    .fieldsCons ?_ (behind₁.checkField q₁.uncapped less fits) rest', behind₂.mistakes⟩
  rw [noteUnless, if_pos fresh]
  exact first'

theorem redone_realloc {n n' : Expr} (steady : imp.Steady)
    (typed : Runs imp (expectPointer (s₁.resolver.resolve e'.ty) token) s₁ u s₂)
    (size : Checks imp P (.expr n) s₂ n' s₃) (sized : Runs imp (expectInteger n'.ty token) s₃ v s')
    (ih : (Item.expr e).RedoneIfQuiet imp d s e' s₁)
    (ihn : (Item.expr n).RedoneIfQuiet imp d s₂ n' s₃) :
    (Item.builtin .realloc ty token [e, n]).RedoneIfQuiet imp d s
      ([e', n'], s₁.resolver.resolve e'.ty) s' := by
  intro t es q behind
  obtain rfl := notes_expectInteger.quiet sized q
  have q₁ := size.quiet steady q
  obtain rfl := notes_expectPointer.quiet typed q₁
  obtain ⟨_, t₁, pointer, less, behind₁⟩ := ih q₁ behind
  obtain ⟨_, t₂, size', lessSize, behind₂⟩ := ihn q behind₁
  refine ⟨_, _, t₂, .realloc (u := ()) pointer ?_ size'
    (behind₂.expectInteger q.uncapped lessSize sized), ?_,
    behind₂.no_mistakes.mistakes.mistakes⟩
  · rw [behind₁.resolver]
    exact behind₁.expectPointer q₁.uncapped (less.resolve _) typed
  · rw [behind₁.resolver]
    exact less.resolve _

theorem redone_loop {init init' post post' : Option Stmt} {e e' : Option Expr} {returns : Bool}
    (steady : imp.Steady) (before : Checks imp P (.clause init) s.enter init' s₁)
    (guard : Checks imp P (.guard token e) s₁ e' s₂)
    (after : Checks imp P (.clause post) s₂ post' s₃)
    (inner : Checks imp P (.body ys) { s₃ with loopDepth := s₃.loopDepth + 1 } (ys', returns) s₄)
    (leftLoop : Runs imp leaveLoop s₄ u s₅)
    (leftScope : Runs imp leaveScope { s₅ with returns := false } v s')
    (ihi : (Item.clause init).RedoneIfQuiet imp d s.enter init' s₁)
    (ihg : (Item.guard token e).RedoneIfQuiet imp d s₁ e' s₂)
    (ihp : (Item.clause post).RedoneIfQuiet imp d s₂ post' s₃)
    (ihb : (Item.body ys).RedoneIfQuiet imp d { s₃ with loopDepth := s₃.loopDepth + 1 }
      (ys', returns) s₄) :
    (Item.stmt (.loop token init e post ys)).RedoneIfQuiet imp d s
      (.loop token init' e' post' ys') s' := by
  intro t es q behind
  obtain rfl := Checks.left_loop steady before guard after inner leftLoop leftScope
  have q₃ := inner.quiet steady ⟨q.uncapped, q.errors⟩
  have q₂ := after.quiet steady ⟨q₃.uncapped, q₃.errors⟩
  obtain ⟨_, t₁, before', behind₁⟩ := ihi (guard.quiet steady q₂) behind.enter
  obtain ⟨_, t₂, guard', behind₂⟩ := ihg q₂ behind₁
  obtain ⟨_, t₃, after', behind₃⟩ := ihp ⟨q₃.uncapped, q₃.errors⟩ behind₂
  obtain ⟨_, t₄, inner', behind₄⟩ := ihb ⟨q.uncapped, q.errors⟩ (behind₃.setLoopDepth _)
  rw [← behind₃.loopDepth] at inner'
  have left := behind₄.mistakes.mistakes.mistakes.leaveLoop behind
  rw [← Stmt.lookups_loop token] at left
  have loop := Checks.loop_of_parts steady before' guard' after' inner'
  rw [← d.stmt_loop] at loop
  exact ⟨_, _, loop, left⟩

theorem redone_returned {value value' : Option Expr}
    (fits : Runs imp (checkReturn token (value'.elim .void (·.ty))) s₁ u s')
    (ih : (Item.result value).RedoneIfQuiet imp d s value' s₁) :
    (Item.stmt (.return token value)).RedoneIfQuiet imp d s (.return token value') s' := by
  intro t es q behind
  have q₁ := (keeps_checkReturn fits).quiet q
  obtain ⟨_, t₁, given', less, behind₁⟩ := ih q₁ behind
  obtain ⟨t₂, fits', behind₂⟩ := behind₁.checkReturn less fits q
  have returned := Checks.returned given' fits'
  rw [← d.stmt_return token] at returned
  rw [← Stmt.lookups_return token] at behind₂
  exact ⟨_, t₂, returned, behind₂⟩

theorem redone_stmtsCons (steady : imp.Steady) (reached : s.returns = false)
    (first : Checks imp P (.stmt x) s x' s₁) (rest : Checks imp P (.stmts ys) s₁ ys' s')
    (ih : (Item.stmt x).RedoneIfQuiet imp d s x' s₁)
    (ihs : (Item.stmts ys).RedoneIfQuiet imp d s₁ ys' s') :
    (Item.stmts (x :: ys)).RedoneIfQuiet imp d s (x' :: ys') s' := by
  intro t es q behind _
  have q₁ := rest.quiet steady q
  obtain ⟨_, t₁, first', behind₁⟩ := ih q₁ behind
  have reached' := behind.returns.trans reached
  have returns := (first.returns steady q₁).2 reached
  cases all : x.returns with
  | true =>
    -- Nothing is looked up after a statement that returns.
    rw [all] at returns
    obtain rfl := rest.dead_of_returns returns
    refine ⟨_, t₁, .stmtsCons reached' first' (.dead (behind₁.returns.trans returns)), ?_⟩
    rw [Stmt.blockLookups, all]
    exact behind₁.no_mistakes.mistakes
  | false =>
    rw [all] at returns
    obtain ⟨_, t₂, rest', behind₂⟩ := ihs q behind₁ returns
    refine ⟨_, t₂, .stmtsCons reached' first' rest', ?_⟩
    rw [Stmt.blockLookups, all]
    exact behind₂.mistakes

end Checks

theorem Checks.redone {i : Item} {r : i.Result} (steady : imp.Steady)
    (h : Checks imp d.Unbound i s r s') (q : s'.Quiet) (behind : Behind es t s) :
    i.Redone imp d s r s' es t := by
  induction h generalizing es t with
  | expr _ law ih =>
    obtain ⟨f, t', node, less, behind'⟩ := ih q behind law
    exact ⟨f, t', .expr node trivial, less, behind'⟩
  | ident typed =>
    obtain rfl := notes_identType.quiet typed q
    exact behind.redone_ident q.uncapped typed
  | literal literal =>
    intro _
    obtain ⟨literal', same, none⟩ := d.isLiteral_expr literal
    refine ⟨_, t, .literal literal', same ▸ .refl _, ?_⟩
    rw [none, d.mistakes_nil, List.append_nil]
    exact behind
  | member isModule typed =>
    obtain rfl := notes_moduleMember.quiet typed q
    exact behind.redone_member q.uncapped isModule typed
  | @field left right _ _ _ _ _ _ _ _ notModule _ typed ih =>
    intro unbound
    obtain rfl := notes_fieldAccess.quiet typed q
    obtain ⟨f, t', object, less, behind'⟩ := ih q behind
    obtain ⟨_, typed', below⟩ := behind'.fieldAccess q.uncapped less (d.name?_member right) typed
    have notModule' := (behind.moduleOf? _).trans (unbound.moduleOf? notModule)
    rw [d.expr_dot]
    exact ⟨_, t', .field notModule' object typed', below, behind'⟩
  | misplaced _ _ _ _ => exact absurd q (not_quiet_note _ _)
  | binary notDot notAssign _ second typed ih₁ ih₂ =>
    intro _
    obtain rfl := notes_binaryType.quiet typed q
    obtain ⟨_, t₁, first', left, behind₁⟩ := ih₁ (second.quiet steady q) behind
    obtain ⟨_, t₂, second', right, behind₂⟩ := ih₂ q behind₁
    obtain ⟨_, typed', less⟩ := behind₂.binaryType q.uncapped left right typed
    rw [d.expr_binary notDot, Expr.lookups_binary notDot notAssign]
    exact ⟨_, t₂, .binary notDot notAssign first' second' typed', less, behind₂.mistakes⟩
  | unary _ typed ih =>
    intro _
    obtain rfl := notes_unaryType.quiet typed q
    obtain ⟨_, t₁, first', operand, behind₁⟩ := ih q behind
    obtain ⟨_, typed', less⟩ := behind₁.unaryType q.uncapped operand typed
    exact ⟨_, t₁, .unary first' typed', less, behind₁⟩
  | index _ second typed ih₁ ih₂ =>
    intro _
    obtain rfl := notes_indexType.quiet typed q
    obtain ⟨_, t₁, first', base, behind₁⟩ := ih₁ (second.quiet steady q) behind
    obtain ⟨_, t₂, second', index, behind₂⟩ := ih₂ q behind₁
    obtain ⟨_, typed', less⟩ := behind₂.indexType q.uncapped base index typed
    exact ⟨_, t₂, .index first' second' typed', less, behind₂.mistakes⟩
  | call _ callable given typed ih ihs =>
    exact redone_call steady callable given typed @ih @ihs q behind
  | uncallable _ notCallable given ih ihs =>
    intro _
    have q₁ := given.quiet steady q
    obtain rfl := notes_calleeSignature.quiet notCallable q₁
    obtain ⟨_, t₁, called, less, behind₁⟩ := ih q₁ behind
    obtain ⟨_, t₂, given₂, _, behind₂⟩ := ihs q behind₁
    obtain known | known := behind₁.calleeSignature q₁.uncapped less notCallable <;>
      exact ⟨_, t₂, .uncallable called known given₂, .refl _, behind₂.mistakes⟩
  | builtin known types given ih => exact redone_builtin steady known types given @ih q behind
  | unknown notKnown given _ =>
    exact absurd (given.quiet steady q) (not_quiet_builtin? notKnown)
  | structLit struct given ih =>
    intro _
    have q₁ := given.quiet steady q
    obtain rfl := notes_literalRecord.quiet struct q₁
    obtain ⟨_, t₁, given', behind₁⟩ := ih q behind
    exact ⟨_, t₁, .structLit (behind.literalRecord q₁.uncapped struct) given', .refl _, behind₁⟩
  | structless notStruct given _ =>
    exact absurd (given.quiet steady q) (not_quiet_literalRecord notStruct)
  | arrayLit array given ih => exact redone_arrayLit steady array given @ih q behind
  | arrayless notArray resolved given ih =>
    intro _
    have q₁ := given.quiet steady q
    obtain rfl := notes_resolveAll.quiet resolved q₁
    obtain ⟨_, t₁, given', _, behind₁⟩ := ih q behind
    exact ⟨_, t₁, .arrayless notArray (behind.resolveAll q₁.uncapped resolved) given', .refl _,
      behind₁⟩
  | comma _ _ => exact absurd q (not_quiet_note _ _)
  | lambda _ ih => exact redone_lambda @ih q behind
  | exprsNil => exact ⟨[], t, .exprsNil, .nil, behind.no_mistakes⟩
  | exprsCons _ rest ih ihs =>
    obtain ⟨_, t₁, first', less, behind₁⟩ := ih (rest.quiet steady q) behind
    obtain ⟨_, t₂, rest', all, behind₂⟩ := ihs q behind₁
    exact ⟨_, t₂, .exprsCons first' rest', .cons less all, behind₂.mistakes⟩
  | argsNil =>
    exact ⟨⟨[], t, .argsNil, behind.no_mistakes⟩, [], t, .exprsNil, behind.no_mistakes⟩
  | argsCons _ fits rest ih ihs =>
    have q₁ := rest.quiet steady q
    obtain rfl := notes_expectEqual.quiet fits q₁
    obtain ⟨_, t₁, first', less, behind₁⟩ := ih q₁ behind
    obtain ⟨⟨_, t₂, rest₂, behind₂⟩, _, t₃, rest₃, behind₃⟩ := ihs q behind₁
    exact ⟨⟨_, t₂, .argsCons first' (behind₁.expectEqual q₁.uncapped (.refl _) less fits) rest₂,
      behind₂.mistakes⟩, _, t₃, .exprsCons first' rest₃, behind₃.mistakes⟩
  | argsMore _ rest ih ihs =>
    obtain ⟨_, t₁, first', _, behind₁⟩ := ih (rest.quiet steady q) behind
    obtain ⟨⟨_, t₂, rest₂, behind₂⟩, _, t₃, rest₃, behind₃⟩ := ihs q behind₁
    exact ⟨⟨_, t₂, .argsMore first' rest₂, behind₂.mistakes⟩, _, t₃, .exprsCons first' rest₃,
      behind₃.mistakes⟩
  | elementsNil => exact ⟨[], t, .elementsNil, behind.no_mistakes⟩
  | elementsCons _ fits rest ih ihs =>
    have q₁ := rest.quiet steady q
    obtain rfl := notes_expectEqual.quiet fits q₁
    obtain ⟨_, t₁, first', less, behind₁⟩ := ih q₁ behind
    obtain ⟨_, t₂, rest', behind₂⟩ := ihs q behind₁
    exact ⟨_, t₂, .elementsCons first' (behind₁.expectEqual q₁.uncapped (.refl _) less fits) rest',
      behind₂.mistakes⟩
  | valuesNil | valuesCons _ _ _ _ => trivial
  | fieldsNil => exact ⟨[], t, .fieldsNil, behind.no_mistakes⟩
  | fieldsCons first fits rest ih ihs =>
    exact redone_fieldsCons steady first fits rest @ih @ihs q behind
  | sizeof => exact ⟨[], _, t, .sizeof, .refl _, behind.no_mistakes⟩
  | print prints _ ih =>
    obtain ⟨_, t₁, given, _, behind₁⟩ := ih q behind
    exact ⟨_, _, t₁, .print prints given, .refl _, behind₁⟩
  | unreachable =>
    refine ⟨[], _, _, .unreachable, ?_, (behind.setReturns true).no_mistakes⟩
    rw [behind.expected]
    exact .refl _
  | cast _ typed ih =>
    obtain rfl := notes_castType.quiet typed q
    obtain ⟨_, t₁, value, less, behind₁⟩ := ih q behind
    rw [← Expr.allLookups_single] at behind₁
    exact ⟨_, _, t₁, .cast value (behind₁.castType q.uncapped less typed), .refl _, behind₁⟩
  | alloc _ typed ih =>
    obtain rfl := notes_expectInteger.quiet typed q
    obtain ⟨_, t₁, size, less, behind₁⟩ := ih q behind
    rw [← Expr.allLookups_single] at behind₁
    exact ⟨_, _, t₁, .alloc size (behind₁.expectInteger q.uncapped less typed), .refl _, behind₁⟩
  | free _ typed ih =>
    obtain rfl := notes_expectPointer.quiet typed q
    obtain ⟨_, t₁, pointer, less, behind₁⟩ := ih q behind
    rw [← Expr.allLookups_single] at behind₁
    exact ⟨_, _, t₁, .free pointer (behind₁.expectPointer q.uncapped less typed), .refl _, behind₁⟩
  | realloc _ typed size sized ih ihn =>
    exact redone_realloc steady typed size sized @ih @ihn q behind
  | codeless => exact absurd q (not_quiet_note _ _)
  | asm code given ih =>
    have q₁ := given.quiet steady q
    obtain rfl := notes_checkAssembly.quiet code q₁
    obtain ⟨value, string⟩ := (silent_checkAssembly q₁.uncapped).mp code
    obtain ⟨_, t₁, given', _, behind₁⟩ := ih q behind
    refine ⟨_, _, t₁, .asm ((silent_checkAssembly (behind.uncapped q₁.uncapped)).mpr ?_) given',
      .refl _, behind₁⟩
    exact ⟨value, d.node_expr_string string⟩
  | commas _ ih =>
    obtain ⟨_, t₁, given, all, behind₁⟩ := ih q behind
    refine ⟨_, t₁, .commas given, ?_, behind₁⟩
    exact List.forall₂_map_left_iff.mpr (List.forall₂_map_right_iff.mpr all)
  | single noComma value ih =>
    obtain ⟨_, t₁, value', less, behind₁⟩ := ih q behind
    refine ⟨_, t₁, .single (d.not_comma_expr noComma) value', ?_, behind₁⟩
    rw [value.valueTypes_of_single noComma, value'.valueTypes_of_single (d.not_comma_expr noComma)]
    exact .cons less .nil
  | condition _ typed ih =>
    obtain rfl := notes_checkCondition.quiet typed q
    obtain ⟨_, t₁, value, less, behind₁⟩ := ih q behind
    exact ⟨_, t₁, .condition value (behind₁.checkCondition q.uncapped less typed), behind₁⟩
  | unguarded => exact ⟨none, t, .unguarded, behind.no_mistakes⟩
  | guarded _ ih =>
    obtain ⟨_, t₁, value, behind₁⟩ := ih q behind
    exact ⟨_, t₁, .guarded value, behind₁⟩
  | nothing => exact ⟨none, t, .nothing, .refl _, behind.no_mistakes⟩
  | something _ ih =>
    obtain ⟨_, t₁, value, less, behind₁⟩ := ih q behind
    exact ⟨_, t₁, .something value, less, behind₁⟩
  | body inner left ih =>
    obtain ⟨rfl, rfl⟩ := inner.left_body steady left
    obtain ⟨_, t₁, inner', behind₁⟩ :=
      ih ⟨q.uncapped, q.errors⟩ (behind.enter.setReturns false) rfl
    have body := inner'.body_of_stmts steady
    rw [behind₁.returns] at body
    exact ⟨_, _, body, (behind₁.leave behind).setReturns false⟩
  | @function _ name token _ _ _ _ _ _ inner left ih =>
    obtain rfl := inner.left_function steady left
    obtain ⟨_, same⟩ := clear_leaveFunction q.clear
    have q₁ := q
    rw [same] at q₁
    obtain ⟨_, t₁, inner', behind₁⟩ :=
      ih ⟨q₁.uncapped, q₁.errors⟩ (behind.enterFunction _) rfl
    exact ⟨_, _, inner'.function_of_stmts steady name (d.token token),
      behind₁.leaveFunction behind q⟩
  | absent => exact ⟨none, t, .absent, behind.no_mistakes⟩
  | present _ ih =>
    obtain ⟨_, t₁, inner, behind₁⟩ := ih q behind
    exact ⟨_, t₁, .present inner, behind₁⟩
  | expression _ ih =>
    obtain ⟨_, t₁, value, _, behind₁⟩ := ih q behind
    exact ⟨_, t₁, .expression value, behind₁⟩
  | declare _ typed ih =>
    have q₁ := (grows_declare _ _ _).quiet q
    obtain rfl := notes_declaredType.quiet typed q₁
    obtain ⟨_, t₁, given, less, behind₁⟩ := ih q₁ behind
    obtain ⟨_, typed', below⟩ := behind₁.declaredType q₁.uncapped less typed
    exact ⟨_, _, .declare given typed', behind₁.declare _ below⟩
  | declareAll _ typed ih =>
    have q₁ := (grows_declareEach _ _ _).quiet q
    obtain rfl := notes_declaredAll.quiet typed q₁
    obtain ⟨_, t₁, given, less, behind₁⟩ := ih q₁ behind
    obtain ⟨_, typed', below⟩ := behind₁.declaredAll q₁.uncapped less typed
    exact ⟨_, _, .declareAll given typed', behind₁.declareEach _ below⟩
  | assign _ targets fits ihv iht =>
    obtain rfl := notes_checkAssignment.quiet fits q
    obtain ⟨_, t₁, given, right, behind₁⟩ := ihv (targets.quiet steady q) behind
    obtain ⟨_, t₂, targets', left, behind₂⟩ := iht q behind₁
    exact ⟨_, t₂, .assign given targets' (behind₂.checkAssignment q.uncapped left right fits),
      behind₂.mistakes⟩
  | record declared =>
    obtain ⟨t', declared', behind'⟩ := behind.recordDecl declared q
    exact ⟨_, t', .record declared', behind'.no_mistakes⟩
  | @define _ sig _ _ _ _ _ ih =>
    obtain ⟨_, t₁, inner, behind₁⟩ :=
      ih ⟨q.uncapped, q.errors⟩ (behind.declare sig.name (.refl _))
    rw [← behind.resolver] at inner
    exact ⟨_, _, .define inner, behind₁.recordFunction _ _⟩
  | choose _ taken others ihc ihx ihm =>
    have q₂ := others.quiet steady ⟨q.uncapped, q.errors⟩
    obtain ⟨_, t₁, condition, behind₁⟩ := ihc (taken.quiet steady q₂) behind
    obtain ⟨_, t₂, taken', behind₂⟩ := ihx q₂ behind₁
    obtain ⟨_, t₃, others', behind₃⟩ := ihm ⟨q.uncapped, q.errors⟩ behind₂
    exact ⟨_, _, .choose condition taken' others',
      behind₃.no_mistakes.mistakes.mistakes.mistakes.setReturns false⟩
  | chooseElse _ taken others otherwise ihc ihx ihm ihy =>
    have q₃ := otherwise.quiet steady ⟨q.uncapped, q.errors⟩
    have q₂ := others.quiet steady q₃
    obtain ⟨_, t₁, condition, behind₁⟩ := ihc (taken.quiet steady q₂) behind
    obtain ⟨_, t₂, taken', behind₂⟩ := ihx q₂ behind₁
    obtain ⟨_, t₃, others', behind₃⟩ := ihm q₃ behind₂
    obtain ⟨_, t₄, otherwise', behind₄⟩ := ihy ⟨q.uncapped, q.errors⟩ behind₃
    exact ⟨_, _, .chooseElse condition taken' others' otherwise',
      behind₄.mistakes.mistakes.mistakes.setReturns _⟩
  | loop before guard after inner leftLoop leftScope ihi ihg ihp ihb =>
    exact redone_loop steady before guard after inner leftLoop leftScope @ihi @ihg @ihp @ihb q
      behind
  | returned _ fits ih => exact redone_returned fits @ih q behind
  | breaks inLoop =>
    obtain rfl := notes_checkInLoop.quiet inLoop q
    exact ⟨_, t, .breaks (behind.checkInLoop q.uncapped inLoop), behind.no_mistakes⟩
  | continues inLoop =>
    obtain rfl := notes_checkInLoop.quiet inLoop q
    exact ⟨_, t, .continues (behind.checkInLoop q.uncapped inLoop), behind.no_mistakes⟩
  | external =>
    refine ⟨_, _, .external, ?_⟩
    rw [behind.id, behind.resolver]
    exact (behind.declare _ (.refl _)).no_mistakes
  | generic => exact ⟨_, t, .generic, behind.no_mistakes⟩
  | importUnit types imported =>
    have imports := runs_importUnit.mp imported
    have q₁ := (keeps_imports steady imports).quiet q
    obtain rfl := (notes_resolveTypeArgs _).quiet types q₁
    obtain ⟨t', imports', behind'⟩ := behind.imports imports q
    exact ⟨_, t', .importUnit (behind.resolveTypeArgs q₁.uncapped types)
      ((runs_importUnit (u := ())).mpr imports'), behind'.no_mistakes⟩
  | branchesNil => exact ⟨[], t, .branchesNil, behind.no_mistakes⟩
  | branchesCons _ taken others ihc ihx ihs =>
    have q₂ := others.quiet steady q
    obtain ⟨_, t₁, condition, behind₁⟩ := ihc (taken.quiet steady q₂) behind
    obtain ⟨_, t₂, taken', behind₂⟩ := ihx q₂ behind₁
    obtain ⟨_, t₃, others', behind₃⟩ := ihs q behind₂
    exact ⟨_, t₃, .branchesCons condition taken' others', behind₃.mistakes.mistakes⟩
  | stmtsNil reached =>
    intro _
    exact ⟨[], t, .stmtsNil (behind.returns.trans reached), behind.no_mistakes⟩
  | stmtsCons reached first rest ih ihs =>
    exact redone_stmtsCons steady reached first rest @ih @ihs q behind
  | dead notReached =>
    intro reached
    simp [reached] at notReached
  | topNil => exact ⟨[], t, .topNil, behind.no_mistakes⟩
  | topCons _ rest ih ihs =>
    obtain ⟨_, t₁, first, behind₁⟩ := ih (rest.quiet steady q) behind
    obtain ⟨_, t₂, rest', behind₂⟩ := ihs q behind₁
    exact ⟨_, t₂, .topCons first rest', behind₂.mistakes⟩

end

end FrontEnd
