import FrontEnd.Proofs.Typing.Complete

namespace FrontEnd

open Check CheckState

variable {imp : Importer} {s s' : CheckState} {around : Option Ty}

namespace Part

theorem complete_expr {node : Node} {ty : Ty} {token : Token} (complete : ty.Complete)
    (inner : ∀ p ∈ node.parts around, p.Complete) :
    ty.firm = true ∧ ∀ p ∈ Expr.parts around ⟨node, ty, token⟩, p.Complete :=
  ⟨complete.1, List.forall_mem_cons.mpr ⟨.inl complete, inner⟩⟩

theorem complete_ident {e : Expr} {name : String} (node : e.node = .ident name)
    (complete : e.ty.Complete) : ∀ p ∈ e.parts around, p.Complete := by
  obtain ⟨_, ty, token⟩ := e
  obtain rfl := node
  exact (complete_expr complete (by simp [Node.parts])).2

end Part

theorem Expr.parts_of_isLiteral {e : Expr} (literal : e.isLiteral) : e.node.parts around = [] := by
  obtain ⟨node, ty, token⟩ := e
  cases node with
  | integer _ | float _ | string _ => rfl
  | _ => simp [Expr.isLiteral] at literal

theorem CheckState.Firm.imports {token : Token} {name : String} {typeArgs : List Ty} {path : String}
    (completes : imp.Completes) (u : s.Uncapped) (firm : s.Firm around)
    (closed : ∀ t ∈ typeArgs, t.firm = true) (imported : Imports imp token name typeArgs path s s')
    (q : s'.Quiet) : s'.Firm around := by
  obtain ⟨session, source, unit, session', begins, _, checked, rfl⟩ :=
    clear_imports imported q.clear
  have started := Session.begin?_eq_some begins
  have uncapped : session.config.maxCheckErrors = none := by
    rw [started]
    exact u
  have defined : ∀ p ∈ session.registry, p.2.Defined := by
    rw [started]
    exact firm.context.registry
  obtain ⟨complete, registry⟩ := completes uncapped closed defined checked
  have added : (s.context.addModule ⟨name, importedFile s path, unit⟩ session'.registry).Firm :=
    firm.context.addModule complete registry
  exact ⟨added, firm.expected⟩

theorem CheckState.Firm.setReturns (firm : s.Firm around) (b : Bool) :
    CheckState.Firm { s with returns := b } around :=
  ⟨firm.context, firm.expected⟩

theorem CheckState.Firm.setLoopDepth (firm : s.Firm around) (n : Nat) :
    CheckState.Firm { s with loopDepth := n } around :=
  ⟨⟨firm.context.vars, firm.context.types, firm.context.modules, firm.context.registry,
    firm.context.expected⟩, firm.expected⟩

theorem CheckState.Firm.setBarrier (firm : s.Firm around) (b : Option Nat) :
    CheckState.Firm { s with barrier := b } around :=
  ⟨⟨firm.context.vars, firm.context.types, firm.context.modules, firm.context.registry,
    firm.context.expected⟩, firm.expected⟩

theorem Option.fixed_of_map {α : Type} {f : α → α} {x : Option α} (h : x.map f = x) :
    ∀ a, x = some a → f a = a := by
  rintro a rfl
  exact Option.some.inj h

theorem Ty.firm_of_pruned {ts : List Ty} (settled : ∀ t ∈ ts, t.settled = true)
    (pruned : ts.map Ty.prune = ts) : ∀ t ∈ ts, t.firm = true := by
  rw [← Ty.pruneAll_eq_map] at pruned
  exact Ty.firmAll_iff.mp (Ty.firmAll_of_pruneAll ts (Ty.settledAll_iff.mpr settled) pruned)

theorem Ty.firm_of_signature {sig : Signature} (settled : (Ty.func sig).settled = true)
    (pruned : Translation.pruning.signature sig = sig) : (Ty.func sig).firm = true := by
  refine Ty.firm_of_prune _ settled ?_
  rw [show (Ty.func sig).prune = _ from Translation.pruning.func sig]
  exact congrArg Ty.func pruned

theorem Ty.firm_of_fields {decl : Record} (settled : (Ty.record decl).settled = true)
    (pruned : Translation.pruning.record decl = decl) : ∀ f ∈ decl.fields, f.ty.firm = true := by
  intro f hf
  have fields : decl.fields.map Translation.pruning.field = decl.fields :=
    congrArg Record.fields pruned
  have same := List.map_inj_left.mp (fields.trans decl.fields.map_id.symm) f hf
  exact Ty.firm_of_prune _ (Ty.settled_record.mp settled f hf) (congrArg Field.ty same)

/-- What is to be shown of an item: checked without errors, it leaves no type open. -/
def Item.CompletedIfQuiet (i : Item) (s : CheckState) (r : i.Result) (s' : CheckState) : Prop :=
  ∀ {around : Option Ty}, s'.Quiet → s.Firm around → i.Written → i.Pruned →
    i.Completed s around r ∧ s'.Firm around

namespace Checks

variable {P : Law} {s₁ s₂ s₃ s₄ s₅ : CheckState} {token : Token} {t ty : Ty} {e e' : Expr}
variable {es es' : List Expr} {x x' : Stmt} {xs xs' : List Stmt} {u v : Unit}

theorem completed_member {left right right' : Expr} {m : Module}
    (isModule : s.moduleOf? left = some m)
    (typed : Runs imp (moduleMember m right token) s (right', ty) s') :
    (Item.node ⟨.binary .dot left right, t, token⟩).CompletedIfQuiet s
      ⟨.binary .dot ⟨left.node, .module (left.name?.getD ""), left.token⟩ right', ty, token⟩
      s' := by
  intro around q firm written pruned
  obtain rfl := notes_moduleMember.quiet typed q
  obtain ⟨complete, same, name, node⟩ :=
    complete_moduleMember q.uncapped firm.context isModule typed
  obtain ⟨_, _, _⟩ := left
  obtain ⟨module, rfl, _, _⟩ := moduleOf?_eq_some isModule
  refine ⟨Part.complete_expr complete (List.forall_mem_append.mpr ⟨?_, ?_⟩), firm⟩
  · exact List.forall_mem_singleton.mpr (.inr (.inl ⟨module, rfl, rfl⟩))
  · exact Part.complete_ident node (same ▸ complete)

theorem completed_call {callee callee' : Expr} {sig : Signature} (steady : imp.Steady)
    (callable : Runs imp (calleeSignature callee' token) s₁ (some sig) s₂)
    (given : Checks imp P (.args sig.params es)
      (s₂.noteUnless (es.length = sig.params.length)
        ⟨.check (.argumentCount sig.params.length es.length), token.start⟩) es' s₃)
    (typed : Runs imp (resolveValue sig.result token) s₃ ty s')
    (ih : (Item.expr callee).CompletedIfQuiet s callee' s₁)
    (ihs : (Item.args sig.params es).CompletedIfQuiet
      (s₂.noteUnless (es.length = sig.params.length)
        ⟨.check (.argumentCount sig.params.length es.length), token.start⟩) es' s₃) :
    (Item.node ⟨.call callee es, t, token⟩).CompletedIfQuiet s
      ⟨.call callee' es', ty, token⟩ s' := by
  intro around q firm written pruned
  obtain rfl := notes_resolveValue.quiet typed q
  have q₂ := given.quiet steady q
  obtain ⟨_, same⟩ := quiet_noteUnless q₂
  rw [same] at q₂ ihs
  obtain rfl := notes_calleeSignature.quiet callable q₂
  obtain ⟨prunedC, prunedA⟩ := Node.call.inj (Expr.mk.inj pruned).1
  obtain ⟨⟨closed, callee⟩, firm₁⟩ := ih q₂ firm written.1 prunedC
  obtain ⟨sig, ⟨rfl⟩, signature⟩ :=
    firm_calleeSignature q₂.uncapped firm₁.context closed callable
  obtain ⟨⟨_, args⟩, firm₂⟩ := ihs q firm₁ written.2 prunedA
  obtain ⟨rfl, known⟩ := (silent_resolveValue q.uncapped).mp typed
  have complete := firm₂.context.firm_resolve (Ty.firm_func.mp signature).2
  exact ⟨Part.complete_expr ⟨complete, known⟩ (List.forall_mem_append.mpr ⟨callee, args⟩), firm₂⟩

theorem completed_builtin {name : String} {b : Builtin} {typeArgs₀ typeArgs : List Ty}
    {args : List Expr} (steady : imp.Steady)
    (known : Runs imp (builtin? name es.length token) s (some b) s₁)
    (types : Runs imp (resolveTypeArgs token typeArgs₀) s₁ typeArgs s₂)
    (given : Checks imp P (.builtin b (typeArgs.headD .todo) token es) s₂ (args, ty) s')
    (ih : (Item.builtin b (typeArgs.headD .todo) token es).CompletedIfQuiet s₂ (args, ty) s') :
    (Item.node ⟨.builtin name typeArgs₀ es, t, token⟩).CompletedIfQuiet s
      ⟨.builtin name typeArgs args, ty, token⟩ s' := by
  intro around q firm written pruned
  have q₂ := given.quiet steady q
  obtain rfl := (notes_resolveTypeArgs _).quiet types q₂
  obtain rfl := notes_builtin?.quiet known q₂
  obtain ⟨_, named, _, ⟨rfl⟩⟩ := (silent_builtin? q₂.uncapped.room).mp known
  obtain ⟨⟨b', named', count⟩, settled, written⟩ := written
  obtain rfl : b = b' := Option.some.inj (named.symm.trans named')
  obtain ⟨_, prunedT, prunedA⟩ := Node.builtin.inj (Expr.mk.inj pruned).1
  obtain ⟨same, all⟩ := complete_resolveTypeArgs q₂.uncapped firm.context
    (Ty.firm_of_pruned settled prunedT) types
  have first : b.typeArgs = 1 → (typeArgs.headD .todo).Complete := by
    intro one
    obtain ⟨t, rfl⟩ := List.length_eq_one_iff.mp (same.trans (count.trans one))
    exact all _ List.mem_cons_self
  obtain ⟨⟨complete, args⟩, firm₁⟩ :=
    ih q firm ⟨fun one => Ty.settled_of_firm _ (first one).1, written⟩ ⟨first, prunedA⟩
  obtain complete | ⟨rfl, rfl, result, closed⟩ := complete
  · exact ⟨Part.complete_expr complete args, firm₁⟩
  · obtain rfl := List.length_eq_zero_iff.mp (same.trans count)
    obtain rfl := Builtin.eq_name named
    refine ⟨⟨closed, List.forall_mem_cons.mpr ⟨?_, args⟩⟩, firm₁⟩
    exact .inr (.inr ⟨rfl, result, closed⟩)

theorem completed_arrayLit {written element : Ty} {length : Nat} (steady : imp.Steady)
    (array : Runs imp (resolveAll written token) s (.array element length) s₁)
    (given : Checks imp P (.elements element es)
      (s₁.noteUnless (es.length ≤ length)
        ⟨.check (.arrayLiteralTooLong length es.length), token.start⟩) es' s')
    (ih : (Item.elements element es).CompletedIfQuiet
      (s₁.noteUnless (es.length ≤ length)
        ⟨.check (.arrayLiteralTooLong length es.length), token.start⟩) es' s') :
    (Item.node ⟨.arrayLit written es, t, token⟩).CompletedIfQuiet s
      ⟨.arrayLit (.array element length) es', .array element length, token⟩ s' := by
  intro around q firm written pruned
  have q₁ := given.quiet steady q
  obtain ⟨_, same⟩ := quiet_noteUnless q₁
  rw [same] at q₁ ih
  obtain rfl := notes_resolveAll.quiet array q₁
  obtain ⟨prunedT, prunedE⟩ := Node.arrayLit.inj (Expr.mk.inj pruned).1
  have complete := complete_resolveAll q₁.uncapped firm.context
    (Ty.firm_of_prune _ written.1.2 prunedT) array
  obtain ⟨⟨_, elements⟩, firm₁⟩ := ih q firm written.2 prunedE
  exact ⟨Part.complete_expr complete elements, firm₁⟩

theorem completed_unreachable : (Item.builtin .unreachable ty token []).CompletedIfQuiet s
    ([], s.expected.getD .void) { s with returns := true } := by
  intro around q firm written pruned
  have closed : (around.getD .void).firm = true := by
    cases result : around with
    | none => rfl
    | some t => exact firm.context.expected t (firm.expected.trans result)
  refine ⟨⟨.inr ⟨rfl, rfl, congrArg (·.getD .void) firm.expected, ?_⟩, List.forall_mem_nil _⟩,
    firm.setReturns true⟩
  rw [firm.expected]
  exact closed

theorem completed_realloc {n n' : Expr} (steady : imp.Steady)
    (typed : Runs imp (expectPointer (s₁.resolver.resolve e'.ty) token) s₁ u s₂)
    (size : Checks imp P (.expr n) s₂ n' s₃) (sized : Runs imp (expectInteger n'.ty token) s₃ v s')
    (ih : (Item.expr e).CompletedIfQuiet s e' s₁) (ihn : (Item.expr n).CompletedIfQuiet s₂ n' s₃) :
    (Item.builtin .realloc ty token [e, n]).CompletedIfQuiet s
      ([e', n'], s₁.resolver.resolve e'.ty) s' := by
  intro around q firm written pruned
  obtain rfl := notes_expectInteger.quiet sized q
  have q₂ := size.quiet steady q
  obtain rfl := notes_expectPointer.quiet typed q₂
  obtain ⟨prunedE, prunedN⟩ := List.cons.inj pruned.2
  obtain ⟨⟨closed, value⟩, firm₁⟩ := ih q₂ firm written.2.1 prunedE
  obtain ⟨⟨_, size⟩, firm₂⟩ := ihn q firm₁ written.2.2.1 (List.cons.inj prunedN).1
  have resolver : Resolver.Firm _ := firm₁.context.resolver
  have resolved := resolver.firm_resolve closed
  have pointer := resolver.clean.isPointer_of_resolve (Ty.settled_of_firm _ resolved)
    ((silent_expectPointer q₂.uncapped).mp typed)
  have complete : Ty.Complete _ := ⟨resolved, Ty.known_of_isPointer pointer⟩
  exact ⟨⟨.inl complete, List.forall_mem_append.mpr
    ⟨value, List.forall_mem_append.mpr ⟨size, List.forall_mem_nil _⟩⟩⟩, firm₂⟩

theorem completed_function {sig : Signature} {name : String} (steady : imp.Steady)
    (inner : Checks imp P (.stmts xs) (s.enterFunction sig) xs' s₁)
    (left : Runs imp (leaveFunction s sig name token) s₁ u s')
    (ih : (Item.stmts xs).CompletedIfQuiet (s.enterFunction sig) xs' s₁) :
    (Item.function sig name token xs).CompletedIfQuiet s xs' s' := by
  intro around q firm written pruned
  obtain rfl := inner.left_function steady left
  obtain ⟨_, same⟩ := clear_leaveFunction q.clear
  rw [same] at q ⊢
  have entered : (s.enterFunction sig).Firm (some sig.result) :=
    ⟨context_enterFunction s sig ▸ firm.context.enterFunction pruned.1, rfl⟩
  obtain ⟨xs, firm₁⟩ := ih ⟨q.uncapped, q.errors⟩ entered written.2 pruned.2
  have left := firm₁.context.leave firm.context
  exact ⟨xs rfl, ⟨left.vars, left.types, left.modules, left.registry, firm.context.expected⟩,
    firm.expected⟩

theorem completed_declare {name : String} {ty' : Ty}
    (typed : Runs imp (declaredType ty e'.ty token) s₁ ty' s₂)
    (ih : (Item.expr e).CompletedIfQuiet s e' s₁) :
    (Item.stmt (.declare token name ty e)).CompletedIfQuiet s (.declare token name ty' e')
      (s₂.declare name ty') := by
  intro around q firm written pruned
  have q₂ := (grows_declare _ _ _).quiet q
  obtain rfl := notes_declaredType.quiet typed q₂
  obtain ⟨_, _, prunedT, prunedV⟩ := Stmt.declare.inj pruned
  obtain ⟨⟨closed, value⟩, firm₁⟩ := ih q₂ firm written.2 prunedV
  have complete := complete_declaredType q₂.uncapped firm₁.context
    (written.1.imp_right fun settled => Ty.firm_of_prune _ settled prunedT) closed typed
  exact ⟨List.forall_mem_cons.mpr ⟨complete, value⟩,
    firm₁.context.declare name complete.1 fun _ => complete.2, firm₁.expected⟩

theorem completed_declareAll {names : List String} {types₀ types : List Ty} {ty' : Ty}
    (typed : Runs imp (declaredAll token names ty e'.valueTypes) s₁ (ty', types) s₂)
    (ih : (Item.list e).CompletedIfQuiet s e' s₁) :
    (Item.stmt (.declareAll token names ty types₀ e)).CompletedIfQuiet s
      (.declareAll token names ty' types e') (s₂.declareEach names types) := by
  intro around q firm written pruned
  have q₂ := (grows_declareEach _ _ _).quiet q
  obtain rfl := notes_declaredAll.quiet typed q₂
  obtain ⟨_, _, prunedT, _, prunedV⟩ := Stmt.declareAll.inj pruned
  obtain ⟨⟨closed, value⟩, firm₁⟩ := ih q₂ firm written.2 prunedV
  have complete := complete_declaredAll q₂.uncapped firm₁.context
    (written.1.imp_right fun settled => Ty.firm_of_prune _ settled prunedT) closed typed
  have context := firm₁.context.declareEach names fun t ht =>
    ⟨(complete t ht).1, fun _ => (complete t ht).2⟩
  rw [← context_declareEach] at context
  exact ⟨List.forall_mem_cons.mpr ⟨complete, value⟩, context,
    (grows_declareEach _ _ _).expected.trans firm₁.expected⟩

theorem completed_choose {more more' : List Branch} {first all : Bool} (steady : imp.Steady)
    (taken : Checks imp P (.body xs) s₁ (xs', first) s₂)
    (others : Checks imp P (.branches token more) s₂ (more', all) s₃)
    (ihe : (Item.condition token e).CompletedIfQuiet s e' s₁)
    (ihx : (Item.body xs).CompletedIfQuiet s₁ (xs', first) s₂)
    (ihm : (Item.branches token more).CompletedIfQuiet s₂ (more', all) s₃) :
    (Item.stmt (.choose token ⟨e, xs⟩ more none)).CompletedIfQuiet s
      (.choose token ⟨e', xs'⟩ more' none) { s₃ with returns := false } := by
  intro around q firm written pruned
  have q₃ := (keeps_returns _ _).quiet q
  have q₂ := others.quiet steady q₃
  obtain ⟨_, prunedB, prunedM, _⟩ := Stmt.choose.inj pruned
  obtain ⟨prunedE, prunedX⟩ := Branch.mk.inj prunedB
  obtain ⟨condition, firm₁⟩ := ihe (taken.quiet steady q₂) firm written.1.1 prunedE
  obtain ⟨taken, firm₂⟩ := ihx q₂ firm₁ written.1.2 prunedX
  obtain ⟨others, firm₃⟩ := ihm q₃ firm₂ written.2.1 prunedM
  refine ⟨List.forall_mem_cons.mpr ⟨trivial, ?_⟩, firm₃.setReturns false⟩
  rw [Stmt.inner_choose]
  simp only [Option.elim_none, List.append_nil, List.forall_mem_append]
  exact ⟨⟨condition, taken⟩, others⟩

theorem completed_chooseElse {more more' : List Branch} {ys ys' : List Stmt}
    {first all last : Bool} (steady : imp.Steady)
    (taken : Checks imp P (.body xs) s₁ (xs', first) s₂)
    (others : Checks imp P (.branches token more) s₂ (more', all) s₃)
    (otherwise : Checks imp P (.body ys) s₃ (ys', last) s₄)
    (ihe : (Item.condition token e).CompletedIfQuiet s e' s₁)
    (ihx : (Item.body xs).CompletedIfQuiet s₁ (xs', first) s₂)
    (ihm : (Item.branches token more).CompletedIfQuiet s₂ (more', all) s₃)
    (ihy : (Item.body ys).CompletedIfQuiet s₃ (ys', last) s₄) :
    (Item.stmt (.choose token ⟨e, xs⟩ more (some ys))).CompletedIfQuiet s
      (.choose token ⟨e', xs'⟩ more' (some ys')) { s₄ with returns := first && all && last } := by
  intro around q firm written pruned
  have q₄ := (keeps_returns _ _).quiet q
  have q₃ := otherwise.quiet steady q₄
  have q₂ := others.quiet steady q₃
  obtain ⟨_, prunedB, prunedM, prunedY⟩ := Stmt.choose.inj pruned
  obtain ⟨prunedE, prunedX⟩ := Branch.mk.inj prunedB
  obtain ⟨condition, firm₁⟩ := ihe (taken.quiet steady q₂) firm written.1.1 prunedE
  obtain ⟨taken, firm₂⟩ := ihx q₂ firm₁ written.1.2 prunedX
  obtain ⟨others, firm₃⟩ := ihm q₃ firm₂ written.2.1 prunedM
  obtain ⟨otherwise, firm₄⟩ := ihy q₄ firm₃ written.2.2 (Option.some.inj prunedY)
  refine ⟨List.forall_mem_cons.mpr ⟨trivial, ?_⟩, firm₄.setReturns _⟩
  rw [Stmt.inner_choose]
  simp only [Option.elim_some, List.forall_mem_append]
  exact ⟨⟨⟨condition, taken⟩, others⟩, otherwise⟩

theorem completed_loop {init init' post post' : Option Stmt} {e e' : Option Expr} {returns : Bool}
    (steady : imp.Steady) (before : Checks imp P (.clause init) s.enter init' s₁)
    (guard : Checks imp P (.guard token e) s₁ e' s₂)
    (after : Checks imp P (.clause post) s₂ post' s₃)
    (inner : Checks imp P (.body xs) { s₃ with loopDepth := s₃.loopDepth + 1 } (xs', returns) s₄)
    (leftLoop : Runs imp leaveLoop s₄ u s₅)
    (leftScope : Runs imp leaveScope { s₅ with returns := false } v s')
    (ihi : (Item.clause init).CompletedIfQuiet s.enter init' s₁)
    (ihe : (Item.guard token e).CompletedIfQuiet s₁ e' s₂)
    (ihp : (Item.clause post).CompletedIfQuiet s₂ post' s₃)
    (ihx : (Item.body xs).CompletedIfQuiet { s₃ with loopDepth := s₃.loopDepth + 1 }
      (xs', returns) s₄) :
    (Item.stmt (.loop token init e post xs)).CompletedIfQuiet s (.loop token init' e' post' xs')
      s' := by
  intro around q firm written pruned
  obtain rfl := Checks.left_loop steady before guard after inner leftLoop leftScope
  have q₄ : s₄.Quiet := ⟨q.uncapped, q.errors⟩
  have entered := inner.quiet steady q₄
  have q₃ : s₃.Quiet := ⟨entered.uncapped, entered.errors⟩
  have q₂ := after.quiet steady q₃
  obtain ⟨initWritten, guardWritten, postWritten, bodyWritten⟩ := Stmt.written_loop.mp written
  have pruned : Translation.pruning.tree.stmt (.loop token init e post xs) = _ := pruned
  rw [Relabelling.stmt_loop] at pruned
  obtain ⟨_, initPruned, guardPruned, postPruned, bodyPruned⟩ := Stmt.loop.inj pruned
  obtain ⟨before, firm₁⟩ := ihi (guard.quiet steady q₂) ⟨firm.context.enter, firm.expected⟩
    initWritten (Option.fixed_of_map initPruned)
  obtain ⟨guard, firm₂⟩ := ihe q₂ firm₁ guardWritten (Option.fixed_of_map guardPruned)
  obtain ⟨after, firm₃⟩ := ihp q₃ firm₂ postWritten (Option.fixed_of_map postPruned)
  obtain ⟨inner, firm₄⟩ := ihx q₄ (firm₃.setLoopDepth _) bodyWritten bodyPruned
  refine ⟨List.forall_mem_cons.mpr ⟨trivial, ?_⟩, ?_⟩
  · rw [Stmt.inner_loop]
    simp only [List.forall_mem_append]
    exact ⟨⟨⟨before, guard⟩, after⟩, inner⟩
  · have left : (s₄.leave s).Firm _ := ⟨firm₄.context.leave firm.context, firm₄.expected⟩
    exact (left.setLoopDepth s.loopDepth).setReturns false

theorem completed_returned {value value' : Option Expr}
    (fits : Runs imp (checkReturn token (value'.elim .void (·.ty))) s₁ u s')
    (ih : (Item.result value).CompletedIfQuiet s value' s₁) :
    (Item.stmt (.return token value)).CompletedIfQuiet s (.return token value') s' := by
  intro around q firm written pruned
  have pruned : Translation.pruning.tree.stmt (.return token value) = _ := pruned
  rw [Relabelling.stmt_return] at pruned
  obtain ⟨_, rfl⟩ | ⟨expected, s₁, _, equal, rfl⟩ := runs_checkReturn.mp fits
  · exact absurd q (not_quiet_note _ _)
  · have q₁ : s₁.Quiet := ⟨q.uncapped, q.errors⟩
    obtain rfl := notes_expectEqual.quiet equal q₁
    obtain ⟨given, firm₁⟩ := ih q₁ firm ((Stmt.written_return token).mp written)
      (Option.fixed_of_map (Stmt.return.inj pruned).2)
    refine ⟨List.forall_mem_cons.mpr ⟨trivial, ?_⟩, firm₁.setReturns true⟩
    rw [Stmt.inner_return]
    exact given

theorem completed_stmtsCons (steady : imp.Steady) (reached : s.returns = false)
    (first : Checks imp P (.stmt x) s x' s₁) (rest : Checks imp P (.stmts xs) s₁ xs' s')
    (ih : (Item.stmt x).CompletedIfQuiet s x' s₁)
    (ihs : (Item.stmts xs).CompletedIfQuiet s₁ xs' s') :
    (Item.stmts (x :: xs)).CompletedIfQuiet s (x' :: xs') s' := by
  intro around q firm written pruned
  have q₁ := rest.quiet steady q
  obtain ⟨prunedX, prunedS⟩ := List.cons.inj pruned
  obtain ⟨statement, firm₁⟩ := ih q₁ firm written.1 prunedX
  obtain ⟨others, firm₂⟩ := ihs q firm₁ written.2 prunedS
  obtain ⟨same, returns⟩ := first.returns steady q₁
  rw [← same] at returns
  refine ⟨fun _ => List.forall_mem_append.mpr ⟨statement, ?_⟩, firm₂⟩
  split
  case isTrue => exact List.forall_mem_nil _
  case isFalse goesOn => exact others ((returns reached).trans (Bool.eq_false_iff.mpr goesOn))

end Checks

theorem Checks.completed {P : Law} {i : Item} {r : i.Result} (steady : imp.Steady)
    (completes : imp.Completes) (h : Checks imp P i s r s') (q : s'.Quiet) (firm : s.Firm around)
    (written : i.Written) (pruned : i.Pruned) : i.Completed s around r ∧ s'.Firm around := by
  induction h generalizing around with
  | expr _ _ ih => exact ih q firm written pruned
  | ident typed =>
    obtain rfl := notes_identType.quiet typed q
    have complete := complete_identType q.uncapped firm.context typed
    exact ⟨Part.complete_expr complete (by simp [Node.parts]), firm⟩
  | @literal e _ literal =>
    have complete := complete_of_isLiteral literal written
    have leaf : e.node.parts around = [] := Expr.parts_of_isLiteral literal
    obtain ⟨node, ty, token⟩ := e
    exact ⟨Part.complete_expr complete (by simp [leaf]), firm⟩
  | member isModule typed => exact completed_member isModule typed q firm written pruned
  | field _ _ typed ih =>
    obtain rfl := notes_fieldAccess.quiet typed q
    obtain ⟨⟨closed, object⟩, firm₁⟩ := ih q firm written.1
      (Node.binary.inj (Expr.mk.inj pruned).1).2.1
    obtain ⟨complete, same, name, node⟩ :=
      complete_fieldAccess q.uncapped firm₁.context closed typed
    exact ⟨Part.complete_expr complete (List.forall_mem_append.mpr
      ⟨object, Part.complete_ident node (same ▸ complete)⟩), firm₁⟩
  | misplaced _ _ _ _ => exact absurd q (not_quiet_note _ _)
  | binary _ _ _ second typed ih₁ ih₂ =>
    obtain rfl := notes_binaryType.quiet typed q
    obtain ⟨_, prunedL, prunedR⟩ := Node.binary.inj (Expr.mk.inj pruned).1
    obtain ⟨⟨closed, left⟩, firm₁⟩ := ih₁ (second.quiet steady q) firm written.1 prunedL
    obtain ⟨⟨_, right⟩, firm₂⟩ := ih₂ q firm₁ written.2 prunedR
    have complete := complete_binaryType q.uncapped firm₂.context closed typed
    exact ⟨Part.complete_expr complete (List.forall_mem_append.mpr ⟨left, right⟩), firm₂⟩
  | unary _ typed ih =>
    obtain rfl := notes_unaryType.quiet typed q
    obtain ⟨⟨closed, operand⟩, firm₁⟩ := ih q firm written
      (Node.unary.inj (Expr.mk.inj pruned).1).2
    exact ⟨Part.complete_expr (complete_unaryType q.uncapped firm₁.context closed typed) operand,
      firm₁⟩
  | index _ second typed ih₁ ih₂ =>
    obtain rfl := notes_indexType.quiet typed q
    obtain ⟨prunedB, prunedI⟩ := Node.index.inj (Expr.mk.inj pruned).1
    obtain ⟨⟨closed, base⟩, firm₁⟩ := ih₁ (second.quiet steady q) firm written.1 prunedB
    obtain ⟨⟨_, index⟩, firm₂⟩ := ih₂ q firm₁ written.2 prunedI
    have complete := complete_indexType q.uncapped firm₂.context closed typed
    exact ⟨Part.complete_expr complete (List.forall_mem_append.mpr ⟨base, index⟩), firm₂⟩
  | call _ callable given typed ih ihs =>
    exact completed_call steady callable given typed @ih @ihs q firm written pruned
  | uncallable _ notCallable given ih _ =>
    have q₂ := given.quiet steady q
    obtain rfl := notes_calleeSignature.quiet notCallable q₂
    obtain ⟨⟨closed, _⟩, firm₁⟩ := ih q₂ firm written.1 (Node.call.inj (Expr.mk.inj pruned).1).1
    obtain ⟨sig, ⟨⟩, _⟩ := firm_calleeSignature q₂.uncapped firm₁.context closed notCallable
  | builtin known types given ih =>
    exact completed_builtin steady known types given @ih q firm written pruned
  | unknown notKnown given _ =>
    exact absurd (given.quiet steady q) (not_quiet_builtin? notKnown)
  | structLit struct given ih =>
    have q₁ := given.quiet steady q
    obtain rfl := notes_literalRecord.quiet struct q₁
    obtain ⟨_, named, _, ⟨rfl⟩⟩ := (silent_literalRecord q₁.uncapped).mp struct
    obtain ⟨fields, firm₁⟩ := ih q firm written (Node.structLit.inj (Expr.mk.inj pruned).1).2.2
    exact ⟨Part.complete_expr ⟨firm_structNamed? firm.context named, Ty.known_of_ref? rfl⟩ fields,
      firm₁⟩
  | structless notStruct given _ =>
    exact absurd (given.quiet steady q) (not_quiet_literalRecord notStruct)
  | arrayLit array given ih => exact completed_arrayLit steady array given @ih q firm written pruned
  | arrayless _ resolved given ih =>
    have q₁ := given.quiet steady q
    obtain rfl := notes_resolveAll.quiet resolved q₁
    obtain ⟨prunedT, prunedE⟩ := Node.arrayLit.inj (Expr.mk.inj pruned).1
    have complete := complete_resolveAll q₁.uncapped firm.context
      (Ty.firm_of_prune _ written.1.2 prunedT) resolved
    obtain ⟨⟨_, elements⟩, firm₁⟩ := ih q firm written.2 prunedE
    exact ⟨Part.complete_expr complete elements, firm₁⟩
  | comma _ _ => exact absurd q (not_quiet_note _ _)
  | @lambda sig _ _ _ s _ _ _ ih =>
    have resolver : s.resolver.Firm := firm.context.resolver
    obtain ⟨prunedS, prunedX⟩ := Node.function.inj (Expr.mk.inj pruned).1
    have closed := resolver.firm_resolveSignature (Ty.firm_of_signature written.1 prunedS)
    have settled := Ty.settled_of_firm _ closed
    obtain ⟨inner, firm₁⟩ := ih ⟨q.uncapped, q.errors⟩ (firm.setBarrier _) ⟨settled, written.2⟩
      ⟨closed, prunedX⟩
    exact ⟨Part.complete_expr (Ty.complete_func closed) inner, firm₁.setBarrier _⟩
  | exprsNil => exact ⟨⟨List.forall_mem_nil _, List.forall_mem_nil _⟩, firm⟩
  | exprsCons _ rest ih ihs | argsMore _ rest ih ihs =>
    obtain ⟨prunedE, prunedS⟩ := List.cons.inj pruned
    obtain ⟨⟨closed, first⟩, firm₁⟩ := ih (rest.quiet steady q) firm written.1 prunedE
    obtain ⟨⟨all, rest⟩, firm₂⟩ := ihs q firm₁ written.2 prunedS
    exact ⟨⟨List.forall_mem_cons.mpr ⟨closed, all⟩, List.forall_mem_append.mpr ⟨first, rest⟩⟩,
      firm₂⟩
  | argsNil | elementsNil => exact ⟨⟨List.forall_mem_nil _, List.forall_mem_nil _⟩, firm⟩
  | argsCons _ fits rest ih ihs | elementsCons _ fits rest ih ihs =>
    have q₂ := rest.quiet steady q
    obtain rfl := notes_expectEqual.quiet fits q₂
    obtain ⟨prunedE, prunedS⟩ := List.cons.inj pruned
    obtain ⟨⟨closed, first⟩, firm₁⟩ := ih q₂ firm written.1 prunedE
    obtain ⟨⟨all, rest⟩, firm₂⟩ := ihs q firm₁ written.2 prunedS
    exact ⟨⟨List.forall_mem_cons.mpr ⟨closed, all⟩, List.forall_mem_append.mpr ⟨first, rest⟩⟩,
      firm₂⟩
  | valuesNil | fieldsNil => exact ⟨List.forall_mem_nil _, firm⟩
  | valuesCons _ rest ih ihs =>
    obtain ⟨prunedE, prunedS⟩ := List.cons.inj pruned
    obtain ⟨⟨_, first⟩, firm₁⟩ :=
      ih (rest.quiet steady q) firm written.1 (FieldInit.mk.inj prunedE).2
    obtain ⟨rest, firm₂⟩ := ihs q firm₁ written.2 prunedS
    exact ⟨List.forall_mem_append.mpr ⟨first, rest⟩, firm₂⟩
  | fieldsCons first fits rest ih ihs =>
    have q₂ := rest.quiet steady q
    obtain rfl := notes_checkField.quiet fits q₂
    obtain ⟨_, same⟩ := quiet_noteUnless (first.quiet steady q₂)
    rw [same] at ih
    obtain ⟨prunedE, prunedS⟩ := List.cons.inj pruned
    obtain ⟨⟨_, first⟩, firm₁⟩ := ih q₂ firm written.1 (FieldInit.mk.inj prunedE).2
    obtain ⟨rest, firm₂⟩ := ihs q firm₁ written.2 prunedS
    exact ⟨List.forall_mem_append.mpr ⟨first, rest⟩, firm₂⟩
  | sizeof => exact ⟨⟨.inl ⟨rfl, Ty.known_of_ref? rfl⟩, List.forall_mem_nil _⟩, firm⟩
  | print _ _ ih =>
    obtain ⟨⟨_, given⟩, firm₁⟩ := ih q firm written.2 pruned.2
    exact ⟨⟨.inl ⟨rfl, Ty.known_of_ref? rfl⟩, given⟩, firm₁⟩
  | unreachable => exact completed_unreachable q firm written pruned
  | cast _ typed ih =>
    obtain rfl := notes_castType.quiet typed q
    obtain ⟨prunedE, _⟩ := List.cons.inj pruned.2
    obtain ⟨⟨_, value⟩, firm₁⟩ := ih q firm written.2.1 prunedE
    obtain ⟨rfl, _⟩ := (silent_castType q.uncapped).mp typed
    exact ⟨⟨.inl (pruned.1 rfl), List.forall_mem_append.mpr ⟨value, List.forall_mem_nil _⟩⟩, firm₁⟩
  | alloc _ typed ih =>
    obtain rfl := notes_expectInteger.quiet typed q
    obtain ⟨prunedE, _⟩ := List.cons.inj pruned.2
    obtain ⟨⟨_, size⟩, firm₁⟩ := ih q firm written.2.1 prunedE
    exact ⟨⟨.inl (Ty.complete_pointer (pruned.1 rfl).1),
      List.forall_mem_append.mpr ⟨size, List.forall_mem_nil _⟩⟩,
      firm₁⟩
  | free _ typed ih =>
    obtain rfl := notes_expectPointer.quiet typed q
    obtain ⟨prunedE, _⟩ := List.cons.inj pruned.2
    obtain ⟨⟨_, value⟩, firm₁⟩ := ih q firm written.2.1 prunedE
    exact ⟨⟨.inl ⟨rfl, Ty.known_of_ref? rfl⟩,
      List.forall_mem_append.mpr ⟨value, List.forall_mem_nil _⟩⟩, firm₁⟩
  | realloc _ typed size sized ih ihn =>
    exact completed_realloc steady typed size sized @ih @ihn q firm written pruned
  | codeless => exact absurd q (not_quiet_note _ _)
  | asm code given ih =>
    obtain rfl := notes_checkAssembly.quiet code (given.quiet steady q)
    obtain ⟨⟨_, args⟩, firm₁⟩ := ih q firm written.2 pruned.2
    exact ⟨⟨.inl (pruned.1 rfl), args⟩, firm₁⟩
  | commas _ ih =>
    obtain ⟨⟨all, given⟩, firm₁⟩ := ih q firm written (Node.comma.inj (Expr.mk.inj pruned).1)
    have complete : Ty.void.Complete := ⟨rfl, Ty.known_of_ref? rfl⟩
    exact ⟨⟨by simpa [Expr.valueTypes] using all,
      List.forall_mem_cons.mpr ⟨.inl complete, given⟩⟩, firm₁⟩
  | single noComma value ih =>
    have single := value.valueTypes_of_single noComma
    obtain ⟨⟨closed, value⟩, firm₁⟩ := ih q firm written pruned
    refine ⟨⟨?_, value⟩, firm₁⟩
    rw [single]
    exact List.forall_mem_singleton.mpr closed
  | condition _ typed ih =>
    obtain rfl := notes_checkCondition.quiet typed q
    obtain ⟨⟨_, value⟩, firm₁⟩ := ih q firm written pruned
    exact ⟨value, firm₁⟩
  | unguarded | nothing => exact ⟨List.forall_mem_nil _, firm⟩
  | guarded _ ih => exact ih q firm (written _ rfl) (pruned _ rfl)
  | something _ ih =>
    obtain ⟨⟨_, value⟩, firm₁⟩ := ih q firm (written _ rfl) (pruned _ rfl)
    exact ⟨value, firm₁⟩
  | @body _ s _ s₁ _ _ inner left ih =>
    obtain ⟨_, rfl⟩ := inner.left_body steady left
    obtain ⟨xs, firm₁⟩ := ih ⟨q.uncapped, q.errors⟩ ⟨firm.context.enter, firm.expected⟩ written
      pruned
    exact ⟨xs rfl, firm₁.context.leave firm.context, firm₁.expected⟩
  | function inner left ih => exact completed_function steady inner left @ih q firm written pruned
  | absent => exact ⟨List.forall_mem_nil _, firm⟩
  | present _ ih => exact ih q firm (written _ rfl) (pruned _ rfl)
  | expression _ ih =>
    obtain ⟨⟨_, value⟩, firm₁⟩ := ih q firm written (Stmt.expression.inj pruned).2
    exact ⟨List.forall_mem_cons.mpr ⟨trivial, value⟩, firm₁⟩
  | declare _ typed ih => exact completed_declare typed @ih q firm written pruned
  | declareAll _ typed ih => exact completed_declareAll typed @ih q firm written pruned
  | assign _ targets fits ihv iht =>
    obtain rfl := notes_checkAssignment.quiet fits q
    obtain ⟨_, prunedT, prunedV⟩ := Stmt.assign.inj pruned
    obtain ⟨⟨_, value⟩, firm₁⟩ := ihv (targets.quiet steady q) firm written.2 prunedV
    obtain ⟨⟨_, target⟩, firm₂⟩ := iht q firm₁ written.1 prunedT
    exact ⟨List.forall_mem_cons.mpr ⟨trivial, List.forall_mem_append.mpr ⟨value, target⟩⟩, firm₂⟩
  | record declared =>
    obtain ⟨closed, context⟩ := firm_recordDecl firm.context
      (Ty.firm_of_fields written (Stmt.record.inj pruned).2) declared q
    exact ⟨List.forall_mem_singleton.mpr closed, context,
      (grows_recordDecl declared).expected.trans firm.expected⟩
  | @define _ sig _ s _ _ _ ih =>
    have resolver : s.resolver.Firm := firm.context.resolver
    obtain ⟨_, prunedS, prunedX⟩ := Stmt.function.inj pruned
    have closed := resolver.firm_resolveSignature (Ty.firm_of_signature written.1 prunedS)
    have context := firm.context.declare sig.name closed fun _ => Ty.known_of_ref? rfl
    obtain ⟨inner, firm₁⟩ := ih ⟨q.uncapped, q.errors⟩ ⟨context, firm.expected⟩
      ⟨Ty.settled_of_firm _ closed, written.2⟩ ⟨closed, prunedX⟩
    exact ⟨List.forall_mem_cons.mpr ⟨trivial, inner⟩, firm₁.context.recordFunction _,
      firm₁.expected⟩
  | choose _ taken others ihe ihx ihm =>
    exact completed_choose steady taken others @ihe @ihx @ihm q firm written pruned
  | chooseElse _ taken others otherwise ihe ihx ihm ihy =>
    exact completed_chooseElse steady taken others otherwise @ihe @ihx @ihm @ihy q firm
      written pruned
  | loop before guard after inner leftLoop leftScope ihi ihe ihp ihx =>
    exact completed_loop steady before guard after inner leftLoop leftScope @ihi @ihe @ihp @ihx
      q firm written pruned
  | returned _ fits ih => exact completed_returned fits @ih q firm written pruned
  | breaks inLoop | continues inLoop =>
    obtain rfl := notes_checkInLoop.quiet inLoop q
    exact ⟨List.forall_mem_singleton.mpr trivial, firm⟩
  | @external _ sig s =>
    have resolver : s.resolver.Firm := firm.context.resolver
    have closed := resolver.firm_resolveSignature
      (Ty.firm_of_signature written (Stmt.external.inj pruned).2)
    exact ⟨List.forall_mem_singleton.mpr trivial,
      firm.context.declare _ closed fun _ => Ty.known_of_ref? rfl, firm.expected⟩
  | importUnit types imported =>
    have q₁ := (keeps_imports steady (runs_importUnit.mp imported)).quiet q
    obtain rfl := (notes_resolveTypeArgs _).quiet types q₁
    obtain ⟨_, _, prunedT, _⟩ := Stmt.importUnit.inj pruned
    obtain ⟨_, all⟩ := complete_resolveTypeArgs q₁.uncapped firm.context
      (Ty.firm_of_pruned written prunedT) types
    exact ⟨List.forall_mem_singleton.mpr trivial, firm.imports completes q₁.uncapped
      (fun t ht => (all t ht).1) (runs_importUnit.mp imported) q⟩
  | generic => exact ⟨List.forall_mem_singleton.mpr trivial, firm⟩
  | branchesNil => exact ⟨List.forall_mem_nil _, firm⟩
  | branchesCons _ taken others ihe ihx ihs =>
    have q₂ := others.quiet steady q
    obtain ⟨prunedB, prunedS⟩ := List.cons.inj pruned
    obtain ⟨prunedE, prunedX⟩ := Branch.mk.inj prunedB
    obtain ⟨condition, firm₁⟩ := ihe (taken.quiet steady q₂) firm written.1.1 prunedE
    obtain ⟨taken, firm₂⟩ := ihx q₂ firm₁ written.1.2 prunedX
    obtain ⟨others, firm₃⟩ := ihs q firm₂ written.2 prunedS
    refine ⟨?_, firm₃⟩
    exact List.forall_mem_append.mpr ⟨List.forall_mem_append.mpr ⟨condition, taken⟩, others⟩
  | stmtsNil _ => exact ⟨fun _ => List.forall_mem_nil _, firm⟩
  | stmtsCons reached first rest ih ihs =>
    exact completed_stmtsCons steady reached first rest @ih @ihs q firm written pruned
  | dead notReached => exact ⟨fun reached => by simp [reached] at notReached, firm⟩
  | topNil => exact ⟨List.forall_mem_nil _, firm⟩
  | topCons _ rest ih ihs =>
    obtain ⟨prunedX, prunedS⟩ := List.cons.inj pruned
    obtain ⟨first, firm₁⟩ := ih (rest.quiet steady q) firm written.1 prunedX
    obtain ⟨rest, firm₂⟩ := ihs q firm₁ written.2 prunedS
    exact ⟨List.forall_mem_append.mpr ⟨first, rest⟩, firm₂⟩

theorem Importer.Completes.unitWith (steady : imp.Steady) (total : imp.Total)
    (completes : imp.Completes) : Importer.Completes (Build.unitWith imp) := by
  intro source path typeArgs session unit session' uncapped closed defined h
  have ok := Lawful.any steady total
  cases Build.unitWith_eq_ok.mp h with
  | accepted readable checked noErrors =>
    have derived : Checks imp _ (.top _) _ _ _ := Checks.of_runs ok checked
    have grown : Grows _ _ := derived.change steady
    have quiet : CheckState.Quiet _ :=
      ⟨(congrArg Config.maxCheckErrors grown.config).trans uncapped, noErrors⟩
    have started : (Build.begun source path typeArgs session).Firm none :=
      ⟨Context.Firm.start _ _ defined, rfl⟩
    have settled := fun t ht => Ty.settled_of_firm t (closed t ht)
    obtain ⟨parts, firm⟩ := derived.completed steady completes quiet started
      (Program.written_read settled readable) (Program.pruned_read (Name.plain_toString _) closed)
    have top := firm.context.vars.outside grown.vars.depth_eq
    exact ⟨.intro parts (fun name t bound => ⟨(top name t bound).1, (top name t bound).2 rfl⟩)
      firm.context.types firm.context.modules, firm.context.registry⟩

theorem CheckedUnit.Complete.of_uses {unit other : CheckedUnit} (h : unit.Complete)
    (uses : Relation.ReflTransGen CheckedUnit.Uses unit other) : other.Complete := by
  induction uses with
  | refl => exact h
  | tail _ last ih =>
    obtain ⟨p, mem, rfl⟩ := last
    cases ih with
    | intro _ _ _ modules => exact modules p mem

namespace Build

theorem within_completes (n : Nat) : Importer.Completes (within n) := by
  induction n with
  | zero =>
    intro _ _ _ _ _ _ _ _ _ h
    cases h
  | succ n ih =>
    obtain ⟨steady, total⟩ := within_steady_total n
    exact ih.unitWith steady total

variable {config : Config} {files : List (String × String)} {source : String} {path : Path}
  {unit : CheckedUnit} {session : Session}

theorem complete_of_accepted (uncapped : config.maxCheckErrors = none)
    (accepted : file source path (.start config (.ofFiles files)) = .ok (.ok unit, session)) :
    unit.Complete := by
  obtain ⟨session', checked, _⟩ := file_start_eq_ok.mp accepted
  exact (within_completes _ uncapped (by simp) (by simp) checked).1

/-- In a program that is accepted, and in the units that it imports, no expression that is looked at
has a type with an open part, and references are left behind pointers and in signatures only. Two
forms are apart: the name of a module has no type of a value, and `@unreachable()` has the result
of the function around it, in which references may be unknown. -/
theorem file_complete (uncapped : config.maxCheckErrors = none)
    (accepted : file source path (.start config (.ofFiles files)) = .ok (.ok unit, session))
    {m : CheckedUnit} (uses : Relation.ReflTransGen CheckedUnit.Uses unit m) {around : Option Ty}
    {e : Expr} (part : .expr around e ∈ m.program.parts) :
    e.ty.Complete ∨ (∃ name, e.node = .ident name ∧ e.ty = .module name) ∨
      e.node = .builtin "unreachable" [] [] ∧ e.ty = around.getD .void ∧ e.ty.firm = true := by
  cases (complete_of_accepted uncapped accepted).of_uses uses with
  | intro parts _ _ _ => exact parts _ part

/-- An expression in a unit that is imported, where a type is used before it is declared. -/
theorem file_complete_imported :
    ∃ unit session m around e, file "import a, \"a.cd\"\nx := a.h" ⟨"main.cd"⟩
        (.start .default (.ofFiles
          [("a.cd", "func g() *T \x7b return g() \x7d\nstruct T \x7b i i32 \x7d\nh := *g()")])) =
        .ok (.ok unit, session) ∧ unit.Uses m ∧ .expr around e ∈ m.program.parts ∧
      (e.ty.Complete ∨ (∃ name, e.node = .ident name ∧ e.ty = .module name) ∨
        e.node = .builtin "unreachable" [] [] ∧ e.ty = around.getD .void ∧ e.ty.firm = true) := by
  have test : acceptsWith (fun unit => unit.env.modules.any fun p =>
      p.2.unit.program.parts.any fun
        | .expr _ _ => true
        | .stmt _ => false)
      (file "import a, \"a.cd\"\nx := a.h" ⟨"main.cd"⟩ (.start .default (.ofFiles
        [("a.cd", "func g() *T \x7b return g() \x7d\nstruct T \x7b i i32 \x7d\nh := *g()")]))) =
      true := by
    decide +kernel
  obtain ⟨unit, session, accepted, found⟩ := exists_of_acceptsWith test
  obtain ⟨p, mem, found⟩ := List.any_eq_true.mp found
  obtain ⟨part, inside, isExpr⟩ := List.any_eq_true.mp found
  have uses : unit.Uses p.2.unit := ⟨p, mem, rfl⟩
  cases part with
  | expr around e =>
    exact ⟨unit, session, p.2.unit, around, e, accepted, uses, inside,
      file_complete rfl accepted (.single uses) inside⟩
  | stmt x => simp at isExpr

/-- The result of the function around is taken over as it is. -/
theorem unreachable_unresolved :
    (match file "func f() Foo \x7b\n @unreachable()\n\x7d" ⟨"main.cd"⟩
        (.start .default (.ofFiles [])) with
      | .ok (.ok unit, _) =>
        unit.program.parts.filterMap fun
          | .expr _ e => e.ty.ref?
          | .stmt _ => none
      | _ => []) = [⟨"Foo-0", []⟩] := by
  decide +kernel

/-- The types that are declared in a program that is accepted, and in the units that it imports,
have layouts, and so have the types of its variables, as far as statements are looked at. -/
theorem file_has_layouts (uncapped : config.maxCheckErrors = none)
    (accepted : file source path (.start config (.ofFiles files)) = .ok (.ok unit, session))
    {m : CheckedUnit} (uses : Relation.ReflTransGen CheckedUnit.Uses unit m) :
    (∀ token decl, .stmt (.record token decl) ∈ m.program.parts → decl.HasLayout) ∧
    (∀ name t, m.env.types.get? name = some t → ∃ decl, t = .record decl ∧ decl.HasLayout) ∧
    (∀ token name ty value, .stmt (.declare token name ty value) ∈ m.program.parts →
      ty.HasLayout) ∧
    (∀ token names ty types value,
      .stmt (.declareAll token names ty types value) ∈ m.program.parts →
      ∀ t ∈ types, t.HasLayout) := by
  cases (complete_of_accepted uncapped accepted).of_uses uses with
  | intro parts _ types _ =>
    refine ⟨?_, ?_, ?_, ?_⟩
    · intro token decl part
      exact Record.hasLayout (parts _ part)
    · intro name t bound
      obtain ⟨closed, decl, rfl⟩ := types name t bound
      exact ⟨decl, rfl, Record.hasLayout closed⟩
    · intro token name ty value part
      have complete : ty.Complete := parts _ part
      exact complete.hasLayout
    · intro token names ty types value part t ht
      have complete : ∀ t ∈ types, t.Complete := parts _ part
      exact (complete t ht).hasLayout

/-- A union of a struct of another unit and an array, in a variable. -/
theorem file_has_layouts_union :
    ∃ unit session, file ("import a, \"a.cd\"\nunion U \x7b s a.S; n [3]i16 \x7d\n" ++
        "func f(u *U) \x7b x, y := *u, u.s \x7d") ⟨"main.cd"⟩
        (.start .default (.ofFiles [("a.cd", "struct S \x7b next *S; v f64 \x7d")])) =
        .ok (.ok unit, session) ∧
      (∀ token decl, .stmt (.record token decl) ∈ unit.program.parts → decl.HasLayout) ∧
      (∀ name t, unit.env.types.get? name = some t → ∃ decl, t = .record decl ∧ decl.HasLayout) ∧
      (∀ token name ty value, .stmt (.declare token name ty value) ∈ unit.program.parts →
        ty.HasLayout) ∧
      (∀ token names ty types value,
        .stmt (.declareAll token names ty types value) ∈ unit.program.parts →
          ∀ t ∈ types, t.HasLayout) := by
  refine exists_of_accepts ?_ fun accepted => file_has_layouts rfl accepted .refl
  decide +kernel

end Build

end FrontEnd
