import FrontEnd.Proofs.Build
import FrontEnd.Proofs.Checking.Returns
import FrontEnd.Proofs.Reading.Written

namespace FrontEnd

open Check CheckState

namespace CheckState

variable (s : CheckState)

theorem context_declareEach (names : List String) (types : List Ty) :
    (s.declareEach names types).context = s.context.declareEach names types := by
  induction names generalizing s types with
  | nil => rfl
  | cons name names ih =>
    cases types with
    | nil => rfl
    | cons ty types => exact ih (s.declare name ty) types

theorem context_define (name : String) (ty : Ty) :
    (s.define name ty).context = s.context.define name ty := by
  unfold define Context.define context
  by_cases h : s.env.types.depth = 0
  · simp only [if_pos h]
    rfl
  · simp only [if_neg h]

theorem context_enterFunction (sig : Signature) :
    (s.enterFunction sig).context = s.context.enterFunction sig := by
  have entered := context_declareEach s.enter sig.names sig.params
  unfold Context.enterFunction
  rw [show s.context.enter = s.enter.context from rfl, ← entered]
  rfl

end CheckState

def Item.Written : Item → Prop
  | .expr e | .node e | .list e | .condition _ e => e.Written
  | .exprs es | .args _ es | .elements _ es => Expr.AllWritten es
  | .values fs | .fields _ _ fs => Expr.FieldsWritten fs
  | .builtin b ty _ es => (b.typeArgs = 1 → ty.settled = true) ∧ Expr.AllWritten es
  | .guard _ e? | .result e? => ∀ e, e? = some e → e.Written
  | .body xs | .stmts xs | .top xs => Stmt.AllWritten xs
  | .function sig _ _ xs => (Ty.func sig).settled = true ∧ Stmt.AllWritten xs
  | .stmt x => x.Written
  | .clause x? => ∀ x, x? = some x → x.Written
  | .branches _ bs => Stmt.BranchesWritten bs

def Item.Sound : (i : Item) → CheckState → i.Result → CheckState → Prop
  | .expr _, s, e', s' => Typed s.context (.expr e') s'.context ∧ e'.ty.settled = true
  | .node _, s, e', s' => Typed s.context (.node e') s'.context ∧ e'.ty.settled = true
  | .exprs _, s, es', s' =>
    Typed s.context (.exprs es') s'.context ∧ ∀ e ∈ es', e.ty.settled = true
  | .args params es, s, es', s' =>
    es.length = params.length → Typed s.context (.args params es') s'.context
  | .elements element es, s, es', s' =>
    es'.length = es.length ∧ Typed s.context (.elements element es') s'.context
  | .values _, _, _, _ => True
  | .fields decl seen _, s, fs', s' => Typed s.context (.fields decl seen fs') s'.context
  | .builtin b ty token _, s, (es', ty'), s' => ∀ name typeArgs, Builtin.ofName? name = some b →
    typeArgs.length = b.typeArgs → typeArgs.headD .todo = ty →
      (∀ t ∈ typeArgs, t.firstRef? = none ∧ t.settled = true) →
        Typed s.context (.node ⟨.builtin name typeArgs es', ty', token⟩) s'.context ∧
          ty'.settled = true
  | .list _, s, e', s' =>
    Typed s.context (.list e') s'.context ∧ ∀ t ∈ e'.valueTypes, t.settled = true
  | .condition token _, s, e', s' => Typed s.context (.condition token e') s'.context
  | .guard token _, s, e', s' => Typed s.context (.guard token e') s'.context
  | .result _, s, e', s' => Typed s.context (.result e') s'.context
  | .body _, s, (xs', _), s' => Typed s.context (.body xs') s'.context
  | .function sig name token _, s, xs', s' =>
    Typed s.context (.function sig name token xs') s'.context
  | .stmt _, s, x', s' => Typed s.context (.stmt x') s'.context
  | .clause _, s, x', s' => Typed s.context (.clause x') s'.context
  | .stmts _, s, xs', s' => s.returns = false → Typed s.context (.stmts xs') s'.context
  | .branches token _, s, (bs', _), s' => Typed s.context (.branches token bs') s'.context
  | .top _, s, xs', s' => Typed s.context (.top xs') s'.context

section Builtin

variable {b : Builtin} {ty ty' : Ty} {token : Token} {es es' : List Expr} {s s' : CheckState}

theorem Item.sound_builtin (typeless : b.typeArgs = 0)
    (typed : Typed s.context (.node ⟨.builtin b.name [] es', ty', token⟩) s'.context ∧
      ty'.settled = true) :
    Item.Sound (.builtin b ty token es) s (es', ty') s' := by
  intro name typeArgs named count _ _
  obtain rfl := Builtin.eq_name named
  obtain rfl := List.length_eq_zero_iff.mp (count.trans typeless)
  exact typed

theorem Item.sound_builtin_of_type (typeful : b.typeArgs = 1)
    (typed : ty.firstRef? = none → ty.settled = true →
      Typed s.context (.node ⟨.builtin b.name [ty] es', ty', token⟩) s'.context ∧
        ty'.settled = true) :
    Item.Sound (.builtin b ty token es) s (es', ty') s' := by
  intro name typeArgs named count head all
  obtain rfl := Builtin.eq_name named
  obtain ⟨t, rfl⟩ := List.length_eq_one_iff.mp (count.trans typeful)
  obtain rfl : t = ty := head
  obtain ⟨known, settled⟩ := all t List.mem_cons_self
  exact typed known settled

end Builtin

def Importer.Sound (imp : Importer) : Prop :=
  ∀ {source path typeArgs session unit session'}, session.config.maxCheckErrors = none →
    (∀ t ∈ typeArgs, t.settled = true) → (∀ p ∈ session.registry, p.2.Declared) →
    imp source path typeArgs session = .ok (.ok unit, session') →
    ∃ Γ, Typed (.start (toString session.nextId) (path.parent?.getD ⟨""⟩) session.registry)
        (.top unit.program.statements) Γ ∧
      unit.env = Γ.env ∧ session'.registry = Γ.registry ∧ Γ.Clean

namespace Typed

variable {imp : Importer} {s : CheckState} {Γ : Context} {token : Token}

theorem of_isLiteral {e : Expr} (literal : e.isLiteral) (written : e.Written) :
    Typed Γ (.node e) Γ ∧ e.ty.settled = true := by
  obtain ⟨node, ty, token⟩ := e
  cases node with
  | integer value =>
    obtain rfl | rfl := written
    · exact ⟨.integer (.inl rfl), rfl⟩
    · exact ⟨.integer (.inr rfl), rfl⟩
  | float value =>
    obtain rfl := written
    exact ⟨.float, rfl⟩
  | string value =>
    obtain rfl := written
    exact ⟨.string, rfl⟩
  | _ => exact absurd literal (by simp [Expr.isLiteral])

theorem not_comma {e : Expr} {Γ' : Context} (h : Typed Γ (.expr e) Γ') (items : List Expr) :
    e.node ≠ .comma items := by
  cases h with
  | expr node _ => cases node <;> simp

theorem settled_structNamed? {name : String} {module? : Option String} {r : String × Ty}
    (clean : Γ.Clean) (named : Γ.structNamed? name module? = some r) : r.2.settled = true := by
  cases module? with
  | none =>
    obtain rfl := Option.some.inj named
    exact clean.settled_resolve rfl
  | some module =>
    obtain ⟨m, isModule, found⟩ := Option.bind_eq_some_iff.mp named
    obtain ⟨t, declared, rfl⟩ := Option.map_eq_some_iff.mp found
    exact ((clean.env.module? isModule).types.get? declared).1

section Silent

variable (u : s.Uncapped) (clean : s.context.Clean)

include u clean

variable {ty written : Ty} {left right : Expr}

theorem of_identType {name : String} (typed : Runs imp (identType name token) s ty s) :
    Typed s.context (.node ⟨.ident name, ty, token⟩) s.context ∧ ty.settled = true := by
  obtain ⟨t, bound, reachable, rfl, known⟩ := (silent_identType u).mp typed
  exact ⟨.ident bound reachable known, clean.settled_resolve (clean.env.vars.get? bound)⟩

theorem of_moduleMember {right' : Expr} {m : Module} (isModule : s.moduleOf? left = some m)
    (typed : Runs imp (moduleMember m right token) s (right', ty) s) :
    Typed s.context (.node ⟨.binary .dot ⟨left.node, .module (left.name?.getD ""), left.token⟩
      right', ty, token⟩) s.context ∧ ty.settled = true := by
  obtain ⟨name, t, _, bound, ⟨rfl, rfl⟩⟩ := (silent_moduleMember u).mp typed
  obtain ⟨_, _, token₁⟩ := left
  obtain ⟨module, rfl, notHidden, isModule⟩ := moduleOf?_eq_some isModule
  have settled := (clean.env.module? isModule).vars.get? bound
  exact ⟨.member notHidden isModule bound, clean.settled_resolve settled⟩

theorem of_fieldAccess {right' : Expr} (object : Typed Γ (.expr left) s.context)
    (settled : left.ty.settled = true)
    (typed : Runs imp (fieldAccess left.ty right token) s (right', ty) s) :
    Typed Γ (.node ⟨.binary .dot left right', ty, token⟩) s.context ∧ ty.settled = true := by
  obtain ⟨t, accessed, field⟩ := silent_fieldAccess.mp typed
  have reached : s.context.object left.ty = t ∧ t.settled = true := by
    have resolved := clean.settled_resolve settled
    obtain ⟨target, pointer, rfl, _⟩ | ⟨notPointer, rfl⟩ := (silent_accessedType u).mp accessed
    · have same : s.context.resolve left.ty = .pointer target := pointer
      rw [same] at resolved
      simp only [Context.object, same]
      exact ⟨rfl, clean.settled_resolve resolved⟩
    · refine ⟨?_, resolved⟩
      unfold Context.object
      split
      case h_1 target pointer =>
        have pointer : s.resolver.resolve left.ty = .pointer target := pointer
        simp [pointer, Ty.isPointer] at notPointer
      case h_2 => rfl
  obtain ⟨decl, name, f, rfl, named, declared, known, ⟨rfl, rfl⟩⟩ | ⟨rfl, _⟩ :=
    (silent_recordField u).mp field
  · obtain ⟨node, ty, token₁⟩ := right
    have named : node = .ident name := by
      cases node <;> simp_all [Expr.name?]
    subst named
    refine ⟨.field object reached.1 declared known, clean.settled_resolve ?_⟩
    exact Ty.settled_record.mp reached.2 f (List.mem_of_find?_eq_some declared)
  · exact absurd reached.2 (by simp [Ty.settled])

theorem of_binaryType {op : InfixOp} {Γ₁ : Context} (notDot : op ≠ .dot) (notAssign : op ≠ .assign)
    (first : Typed Γ (.expr left) Γ₁) (second : Typed Γ₁ (.expr right) s.context)
    (hl : left.ty.settled = true) (hr : right.ty.settled = true)
    (typed : Runs imp (binaryType op left.ty right.ty token) s ty s) :
    Typed Γ (.node ⟨.binary op left right, ty, token⟩) s.context ∧ ty.settled = true := by
  have resolver : s.resolver.Clean := clean.resolver
  obtain ⟨left', right', same, rfl⟩ := (silent_binaryType u).mp typed
  obtain ⟨numeric, hl'⟩ := resolver.isNumeric_of_resolve hl left'
  obtain ⟨_, hr'⟩ := resolver.isNumeric_of_resolve hr right'
  have equal : right.ty = left.ty := by
    rw [Ty.equals, hl', hl', hr', hr'] at same
    exact Ty.eq_of_agrees numeric hr same
  rw [hl', Ty.isTodo_of_settled hl]
  refine ⟨.binary notDot notAssign first second numeric equal, ?_⟩
  split
  · rfl
  · exact hl

theorem of_unaryType {op : PrefixOp} {operand : Expr} (first : Typed Γ (.expr operand) s.context)
    (settled : operand.ty.settled = true)
    (typed : Runs imp (unaryType op operand.ty token) s ty s) :
    Typed Γ (.node ⟨.unary op operand, ty, token⟩) s.context ∧ ty.settled = true := by
  have resolver : s.resolver.Clean := clean.resolver
  have sign (hop : op = .not ∨ op = .negate ∨ op = .identity) :
      Typed Γ (.node ⟨.unary op operand, ty, token⟩) s.context ∧ ty.settled = true := by
    obtain ⟨rfl, ok⟩ := (silent_unaryType_numeric u hop).mp typed
    obtain ⟨numeric, same⟩ := resolver.isNumeric_of_resolve settled ok
    rw [same]
    exact ⟨.sign hop first numeric, settled⟩
  cases op with
  | not => exact sign (.inl rfl)
  | negate => exact sign (.inr (.inl rfl))
  | identity => exact sign (.inr (.inr rfl))
  | reference =>
    obtain rfl := silent_unaryType_reference.mp typed
    exact ⟨.reference first, clean.settled_resolve settled⟩
  | dereference =>
    obtain ⟨target, pointer, rfl, known⟩ | ⟨todo, _⟩ := (silent_unaryType_dereference u).mp typed
    · obtain ⟨target, written, rfl⟩ := resolver.resolve_eq_pointer pointer
      rw [resolver.resolve_resolve] at known ⊢
      rw [written] at settled
      exact ⟨.dereference first written known, clean.settled_resolve settled⟩
    · exact absurd (resolver.settled_resolve settled) (by simp [todo, Ty.settled])

theorem of_indexType {base index : Expr} {Γ₁ : Context} (first : Typed Γ (.expr base) Γ₁)
    (second : Typed Γ₁ (.expr index) s.context) (hb : base.ty.settled = true)
    (hi : index.ty.settled = true) (typed : Runs imp (indexType base.ty index.ty token) s ty s) :
    Typed Γ (.node ⟨.index base index, ty, token⟩) s.context ∧ ty.settled = true := by
  have resolver : s.resolver.Clean := clean.resolver
  obtain ⟨ok, reached⟩ := (silent_indexType u).mp typed
  obtain ⟨numeric, _⟩ := resolver.isNumeric_of_resolve hi ok
  obtain ⟨t, form, rfl, known⟩ | ⟨todo, _⟩ := (silent_elementType u).mp reached
  · have indexable : ∃ element, ((∃ n, base.ty = .array element n) ∨ base.ty = .pointer element) ∧
        t = s.resolver.resolve element ∧ element.settled = true := by
      obtain ⟨n, array⟩ | pointer := form
      · obtain ⟨element, written, rfl⟩ := resolver.resolve_eq_array array
        rw [written] at hb
        exact ⟨element, .inl ⟨n, written⟩, rfl, hb⟩
      · obtain ⟨element, written, rfl⟩ := resolver.resolve_eq_pointer pointer
        rw [written] at hb
        exact ⟨element, .inr written, rfl, hb⟩
    obtain ⟨element, written, rfl, settled⟩ := indexable
    rw [resolver.resolve_resolve] at known ⊢
    exact ⟨.index first second written numeric known, clean.settled_resolve settled⟩
  · exact absurd (resolver.settled_resolve hb) (by simp [todo, Ty.settled])

theorem func_of_calleeSignature {callee : Expr} {sig? : Option Signature}
    (settled : callee.ty.settled = true)
    (callable : Runs imp (calleeSignature callee token) s sig? s) :
    ∃ sig, callee.ty = .func sig ∧ sig? = some (s.resolver.resolveSignature sig) := by
  have resolver : s.resolver.Clean := clean.resolver
  obtain ⟨sig, func, rfl⟩ | ⟨todo, _⟩ := (silent_calleeSignature u).mp callable
  · obtain ⟨written, function, rfl⟩ := resolver.resolve_eq_func func
    exact ⟨written, function, rfl⟩
  · exact absurd (resolver.settled_resolve settled) (by simp [todo, Ty.settled])

theorem settled_resolveTypeArgs {ts us : List Ty} (settled : ∀ t ∈ ts, t.settled = true)
    (types : Runs imp (resolveTypeArgs token ts) s us s) :
    us.length = ts.length ∧ ∀ t ∈ us, t.firstRef? = none ∧ t.settled = true := by
  obtain ⟨rfl, refs⟩ := (silent_resolveTypeArgs u.room).mp types
  refine ⟨by simp, fun t ht => ⟨refs t ht, ?_⟩⟩
  obtain ⟨v, hv, rfl⟩ := List.mem_map.mp ht
  exact clean.settled_resolve (settled v hv)

theorem of_castType {target : Ty} {e : Expr} (known : target.firstRef? = none)
    (closed : target.settled = true) (value : Typed Γ (.expr e) s.context)
    (settled : e.ty.settled = true) (typed : Runs imp (castType target e.ty token) s ty s) :
    Typed Γ (.node ⟨.builtin "cast" [target] [e], ty, token⟩) s.context ∧ ty.settled = true := by
  have resolver : s.resolver.Clean := clean.resolver
  obtain ⟨rfl, castable⟩ := (silent_castType u).mp typed
  rw [resolver.isTodo_resolve settled, Ty.isTodo_of_settled closed, resolver.isCastable_resolve,
    resolver.equals_resolve] at castable
  exact ⟨.cast known value (by simpa using castable), closed⟩

theorem declares_of_fits {value : Ty} {written? : Option Ty}
    (open? : written.isTodo = true ∨ written.settled = true) (settled : value.settled = true)
    (found : Runs imp (writtenType? written token) s written? s) (fits : s.Fits value written?) :
    s.context.Declares (s.declaredAs written? value) value ∧
      (s.declaredAs written? value).settled = true := by
  obtain ⟨_, rfl⟩ | ⟨notOpen, rfl, known⟩ := (silent_writtenType? u).mp found
  · exact ⟨.inr ⟨rfl, fits⟩, clean.settled_resolve settled⟩
  · have closed := open?.resolve_left (by simp [notOpen])
    exact ⟨.inl ⟨known, fits⟩, clean.settled_resolve closed⟩

theorem of_declaredType {name : String} {value : Expr} (given : Typed Γ (.expr value) s.context)
    (open? : written.isTodo = true ∨ written.settled = true) (settled : value.ty.settled = true)
    (typed : Runs imp (declaredType written value.ty token) s ty s) :
    Typed Γ (.stmt (.declare token name ty value)) (s.context.declare name ty) ∧ ty.settled =
      true := by
  obtain ⟨written?, found, fits, rfl⟩ := (silent_declaredType u).mp typed
  obtain ⟨declares, closed⟩ := declares_of_fits u clean open? settled found fits
  exact ⟨.declare given closed declares, closed⟩

theorem of_declaredAll {names : List String} {types : List Ty} {value : Expr}
    (given : Typed Γ (.list value) s.context)
    (open? : written.isTodo = true ∨ written.settled = true)
    (settled : ∀ t ∈ value.valueTypes, t.settled = true)
    (typed : Runs imp (declaredAll token names written value.valueTypes) s (ty, types) s) :
    Typed Γ (.stmt (.declareAll token names ty types value)) (s.context.declareEach names types) ∧
      ∀ t ∈ types, t.settled = true := by
  obtain ⟨count, written?, found, fits, ⟨rfl, rfl⟩⟩ := (silent_declaredAll u).mp typed
  have each := fun v hv => declares_of_fits u clean open? (settled v hv) found (fits v hv)
  have closed : ∀ t ∈ value.valueTypes.map (s.declaredAs written?), t.settled = true := by
    intro t ht
    obtain ⟨v, hv, rfl⟩ := List.mem_map.mp ht
    exact (each v hv).2
  refine ⟨.declareAll given (by simpa using count.symm) closed ?_ ?_, closed⟩
  · rw [List.forall₂_map_left_iff, List.forall₂_same]
    exact fun v hv => (each v hv).1
  · obtain ⟨isOpen, rfl⟩ | ⟨_, rfl, _⟩ := (silent_writtenType? u).mp found
    · exact .inl isOpen
    · refine .inr fun t ht => ?_
      obtain ⟨v, _, rfl⟩ := List.mem_map.mp ht
      rfl

end Silent

theorem known_of_storable {owner : String} {t : Ty} (clean : s.context.Clean)
    (storable : s.Storable owner t) : (s.context.fieldType t).Known := by
  induction t using Ty.nested with
  | array t n ih => exact ih storable
  | named ref =>
    have resolver : s.resolver.Clean := clean.resolver
    have known := storable.2.1
    obtain ⟨decl, hr⟩ | hr := resolver.resolve_named ref
    · have same : s.context.fieldType (.named ref) = .record decl := hr
      rw [same]
      exact Ty.known_of_ref? rfl
    · simp [hr, Ty.ref?] at known
  | _ => exact Ty.known_of_ref? rfl

theorem of_recordDecl {s' : CheckState} {decl decl' : Record} (clean : s.context.Clean)
    (settled : (Ty.record decl).settled = true)
    (declared : Runs imp (recordDecl token decl) s decl' s') (q : s'.Quiet) :
    Typed s.context (.stmt (.record token decl')) s'.context ∧ s'.context.Clean := by
  obtain ⟨distinct, storable, rfl, rfl⟩ := clear_recordDecl declared q.clear
  have same := context_define s decl.name (.record decl)
  have clean₁ := same ▸ clean.define decl.name settled
  have known := fun f hf => known_of_storable clean₁ (storable f hf)
  rw [same, context_define, same]
  rw [same] at known clean₁
  refine ⟨.record distinct known settled, clean₁.define decl.name (Ty.settled_record.mpr ?_)⟩
  intro f hf
  obtain ⟨g, hg, rfl⟩ := List.mem_map.mp hf
  exact clean₁.settled_fieldType (Ty.settled_record.mp settled g hg)

theorem of_imports {name : String} {typeArgs : List Ty} {path : String} {s' : CheckState}
    (sound : imp.Sound) (u : s.Uncapped) (clean : s.context.Clean)
    (all : ∀ t ∈ typeArgs, t.firstRef? = none ∧ t.settled = true)
    (imported : Imports imp token name typeArgs path s s') (q : s'.Quiet) :
    Typed s.context (.stmt (.importUnit token name typeArgs path)) s'.context ∧
      s'.context.Clean := by
  obtain ⟨session, source, unit, session', begins, _, checked, same⟩ :=
    clear_imports imported q.clear
  have started := Session.begin?_eq_some begins
  have uncapped : session.config.maxCheckErrors = none := by
    rw [started]
    exact u
  have declared : ∀ p ∈ session.registry, p.2.Declared := by
    rw [started]
    exact clean.registry
  obtain ⟨Γ, inner, env, registry, clean₁⟩ :=
    sound uncapped (fun t ht => (all t ht).2) declared checked
  have left : s'.context =
      s.context.addModule ⟨name, s.context.importedFile path, unit⟩ Γ.registry := by
    rw [same, ← registry]
    rfl
  have known : session.registry = s.context.registry := by
    rw [started]
    rfl
  rw [known] at inner
  rw [left]
  exact ⟨.importUnit (fun t ht => (all t ht).1) inner env,
    clean.addModule (env ▸ clean₁.env) clean₁.registry⟩

end Typed

/-- What is to be shown of an item: checked without errors, it is well typed. -/
def Item.SoundIfQuiet (i : Item) (s : CheckState) (r : i.Result) (s' : CheckState) : Prop :=
  s'.Quiet → s.context.Clean → i.Written → i.Sound s r s' ∧ s'.context.Clean

namespace Checks

variable {imp : Importer} {P : Law} {s s₁ s₂ s₃ s₄ s₅ s' : CheckState} {token : Token} {t ty : Ty}
variable {e e' : Expr} {es es' : List Expr} {x x' : Stmt} {xs xs' : List Stmt} {u v : Unit}

theorem sound_call {callee callee' : Expr} {sig : Signature} (steady : imp.Steady)
    (callable : Runs imp (calleeSignature callee' token) s₁ (some sig) s₂)
    (given : Checks imp P (.args sig.params es)
      (s₂.noteUnless (es.length = sig.params.length)
        ⟨.check (.argumentCount sig.params.length es.length), token.start⟩) es' s₃)
    (typed : Runs imp (resolveValue sig.result token) s₃ ty s')
    (ih : (Item.expr callee).SoundIfQuiet s callee' s₁)
    (ihs : (Item.args sig.params es).SoundIfQuiet
      (s₂.noteUnless (es.length = sig.params.length)
        ⟨.check (.argumentCount sig.params.length es.length), token.start⟩) es' s₃) :
    (Item.node ⟨.call callee es, t, token⟩).SoundIfQuiet s ⟨.call callee' es', ty, token⟩ s' := by
  intro q clean written
  obtain rfl := notes_resolveValue.quiet typed q
  have q₂ := given.quiet steady q
  obtain ⟨count, same⟩ := quiet_noteUnless q₂
  rw [same] at q₂ ihs
  obtain rfl := notes_calleeSignature.quiet callable q₂
  obtain ⟨⟨called, settled⟩, clean₁⟩ := ih q₂ clean written.1
  obtain ⟨sig, function, ⟨rfl⟩⟩ :=
    Typed.func_of_calleeSignature q₂.uncapped clean₁ settled callable
  obtain ⟨args, clean₂⟩ := ihs q clean₁ written.2
  obtain ⟨rfl, known⟩ := (silent_resolveValue q.uncapped).mp typed
  rw [function] at settled
  have result := (Ty.settled_func.mp settled).2
  exact ⟨⟨.call called function (args count) known,
    clean₂.settled_resolve (clean₁.settled_resolve result)⟩, clean₂⟩

theorem sound_builtin {name : String} {b : Builtin} {typeArgs typeArgs' : List Ty}
    (steady : imp.Steady) (known : Runs imp (builtin? name es.length token) s (some b) s₁)
    (types : Runs imp (resolveTypeArgs token typeArgs) s₁ typeArgs' s₂)
    (given : Checks imp P (.builtin b (typeArgs'.headD .todo) token es) s₂ (es', ty) s')
    (ih : (Item.builtin b (typeArgs'.headD .todo) token es).SoundIfQuiet s₂ (es', ty) s') :
    (Item.node ⟨.builtin name typeArgs es, t, token⟩).SoundIfQuiet s
      ⟨.builtin name typeArgs' es', ty, token⟩ s' := by
  intro q clean written
  have q₂ := given.quiet steady q
  obtain rfl := (notes_resolveTypeArgs _).quiet types q₂
  obtain rfl := notes_builtin?.quiet known q₂
  obtain ⟨_, named, _, ⟨rfl⟩⟩ := (silent_builtin? q₂.uncapped.room).mp known
  obtain ⟨⟨b', named', count⟩, settled, written⟩ := written
  obtain rfl : b = b' := Option.some.inj (named.symm.trans named')
  obtain ⟨same, all⟩ := Typed.settled_resolveTypeArgs q₂.uncapped clean settled types
  have first : b.typeArgs = 1 → (typeArgs'.headD .todo).settled = true := by
    intro one
    obtain ⟨t, rfl⟩ := List.length_eq_one_iff.mp (same.trans (count.trans one))
    exact (all _ List.mem_cons_self).2
  obtain ⟨call, clean₁⟩ := ih q clean ⟨first, written⟩
  exact ⟨call name _ named (same.trans count) rfl all, clean₁⟩

theorem sound_arrayLit {written element : Ty} {length : Nat} (steady : imp.Steady)
    (array : Runs imp (resolveAll written token) s (.array element length) s₁)
    (given : Checks imp P (.elements element es)
      (s₁.noteUnless (es.length ≤ length)
        ⟨.check (.arrayLiteralTooLong length es.length), token.start⟩) es' s')
    (ih : (Item.elements element es).SoundIfQuiet
      (s₁.noteUnless (es.length ≤ length)
        ⟨.check (.arrayLiteralTooLong length es.length), token.start⟩) es' s') :
    (Item.node ⟨.arrayLit written es, t, token⟩).SoundIfQuiet s
      ⟨.arrayLit (.array element length) es', .array element length, token⟩ s' := by
  intro q clean written
  have q₁ := given.quiet steady q
  obtain ⟨fits, same⟩ := quiet_noteUnless q₁
  rw [same] at q₁ ih
  obtain rfl := notes_resolveAll.quiet array q₁
  obtain ⟨resolved, known⟩ := (silent_resolveAll q₁.uncapped.room).mp array
  obtain ⟨⟨count, elements⟩, clean₁⟩ := ih q clean written.2
  refine ⟨⟨.arrayLit known (count ▸ fits) elements, ?_⟩, clean₁⟩
  have settled := clean.settled_resolve written.1.2
  rw [context_resolve, ← resolved] at settled
  exact settled

theorem sound_fieldsCons {decl : Record} {seen : List String} {name : String}
    {fs fs' : List FieldInit} (steady : imp.Steady)
    (first : Checks imp P (.expr e)
      (s.noteUnless (name ∉ seen) ⟨.check (.duplicateField name), e.token.start⟩) e' s₁)
    (fits : Runs imp (checkField decl name e') s₁ u s₂)
    (rest : Checks imp P (.fields decl (name :: seen) fs) s₂ fs' s')
    (ih : (Item.expr e).SoundIfQuiet
      (s.noteUnless (name ∉ seen) ⟨.check (.duplicateField name), e.token.start⟩) e' s₁)
    (ihs : (Item.fields decl (name :: seen) fs).SoundIfQuiet s₂ fs' s') :
    (Item.fields decl seen (⟨name, e⟩ :: fs)).SoundIfQuiet s (⟨name, e'⟩ :: fs') s' := by
  intro q clean written
  have q₂ := rest.quiet steady q
  obtain rfl := notes_checkField.quiet fits q₂
  obtain ⟨new, same⟩ := quiet_noteUnless (first.quiet steady q₂)
  rw [same] at ih
  obtain ⟨⟨first, _⟩, clean₁⟩ := ih q₂ clean written.1
  obtain ⟨rest, clean₂⟩ := ihs q clean₁ written.2
  obtain ⟨f, declared, equal⟩ := (silent_checkField q₂.uncapped).mp fits
  exact ⟨.fieldsCons first new declared equal rest, clean₂⟩

theorem sound_realloc {n n' : Expr} (steady : imp.Steady)
    (typed : Runs imp (expectPointer (s₁.resolver.resolve e'.ty) token) s₁ u s₂)
    (size : Checks imp P (.expr n) s₂ n' s₃) (sized : Runs imp (expectInteger n'.ty token) s₃ v s')
    (ih : (Item.expr e).SoundIfQuiet s e' s₁) (ihn : (Item.expr n).SoundIfQuiet s₂ n' s₃) :
    (Item.builtin .realloc ty token [e, n]).SoundIfQuiet s
      ([e', n'], s₁.resolver.resolve e'.ty) s' := by
  intro q clean written
  obtain rfl := notes_expectInteger.quiet sized q
  have q₂ := size.quiet steady q
  obtain rfl := notes_expectPointer.quiet typed q₂
  obtain ⟨⟨value, settled⟩, clean₁⟩ := ih q₂ clean written.2.1
  obtain ⟨⟨size, settledSize⟩, clean₂⟩ := ihn q clean₁ written.2.2.1
  have resolved := clean₁.settled_resolve settled
  have pointer := clean₁.resolver.isPointer_of_resolve resolved
    ((silent_expectPointer q₂.uncapped).mp typed)
  rw [Context.resolve, clean₁.resolver.isPointer_resolve] at pointer
  have integer := clean₂.resolver.isInteger_of_resolve settledSize
    ((silent_expectInteger q.uncapped).mp sized)
  exact ⟨Item.sound_builtin rfl ⟨.realloc value pointer size integer, resolved⟩, clean₂⟩

theorem sound_asm (steady : imp.Steady) (code : Runs imp (checkAssembly e token) s u s₁)
    (given : Checks imp P (.exprs (e :: es)) s₁ es' s')
    (ih : (Item.exprs (e :: es)).SoundIfQuiet s₁ es' s') :
    (Item.builtin .asm ty token (e :: es)).SoundIfQuiet s (es', ty) s' := by
  intro q clean written
  have q₁ := given.quiet steady q
  obtain rfl := notes_checkAssembly.quiet code q₁
  obtain ⟨⟨args, _⟩, clean₁⟩ := ih q clean written.2
  refine ⟨Item.sound_builtin_of_type rfl fun known closed => ?_, clean₁⟩
  obtain ⟨value, string⟩ := (silent_checkAssembly q₁.uncapped).mp code
  obtain ⟨_, _, _⟩ := e
  obtain rfl := string
  cases given with
  | exprsCons first _ =>
    cases first with
    | expr node _ =>
      cases node
      exact ⟨.asm known args, closed⟩

theorem sound_function {sig : Signature} {name : String} (steady : imp.Steady)
    (inner : Checks imp P (.stmts xs) (s.enterFunction sig) xs' s₁)
    (left : Runs imp (leaveFunction s sig name token) s₁ u s')
    (ih : (Item.stmts xs).SoundIfQuiet (s.enterFunction sig) xs' s₁) :
    (Item.function sig name token xs).SoundIfQuiet s xs' s' := by
  intro q clean written
  obtain rfl := inner.left_function steady left
  obtain ⟨returns, same⟩ := clear_leaveFunction q.clear
  rw [same] at q ⊢
  have q₁ : s₁.Quiet := ⟨q.uncapped, q.errors⟩
  have entered := context_enterFunction s sig
  obtain ⟨xs, clean₁⟩ := ih q₁ (entered ▸ clean.enterFunction written.1) written.2
  have paths := inner.returns steady q₁
  have typed := xs rfl
  rw [entered] at typed
  refine ⟨.function typed ?_, ?_⟩
  · rw [paths.1]
    exact returns.imp_left fun done => paths.2.symm.trans done
  · have left := clean₁.leave clean
    exact ⟨left.env, left.registry, clean.expected⟩

theorem sound_declareAll {names : List String} {types types' : List Ty} {ty' : Ty}
    (typed : Runs imp (declaredAll token names ty e'.valueTypes) s₁ (ty', types') s₂)
    (ih : (Item.list e).SoundIfQuiet s e' s₁) :
    (Item.stmt (.declareAll token names ty types e)).SoundIfQuiet s
      (.declareAll token names ty' types' e') (s₂.declareEach names types') := by
  intro q clean written
  have q₂ := (grows_declareEach _ _ _).quiet q
  obtain rfl := notes_declaredAll.quiet typed q₂
  obtain ⟨⟨given, settled⟩, clean₁⟩ := ih q₂ clean written.2
  obtain ⟨declared, closed⟩ :=
    Typed.of_declaredAll q₂.uncapped clean₁ given written.1 settled typed
  have clean₂ := clean₁.declareEach names closed
  rw [← context_declareEach] at declared clean₂
  exact ⟨declared, clean₂⟩

theorem sound_chooseElse {more more' : List Branch} {ys ys' : List Stmt} {first all last : Bool}
    (steady : imp.Steady) (taken : Checks imp P (.body xs) s₁ (xs', first) s₂)
    (others : Checks imp P (.branches token more) s₂ (more', all) s₃)
    (otherwise : Checks imp P (.body ys) s₃ (ys', last) s₄)
    (ihe : (Item.condition token e).SoundIfQuiet s e' s₁)
    (ihx : (Item.body xs).SoundIfQuiet s₁ (xs', first) s₂)
    (ihm : (Item.branches token more).SoundIfQuiet s₂ (more', all) s₃)
    (ihy : (Item.body ys).SoundIfQuiet s₃ (ys', last) s₄) :
    (Item.stmt (.choose token ⟨e, xs⟩ more (some ys))).SoundIfQuiet s
      (.choose token ⟨e', xs'⟩ more' (some ys')) { s₄ with returns := first && all && last } := by
  intro q clean written
  have q₄ := (keeps_returns _ _).quiet q
  have q₃ := otherwise.quiet steady q₄
  have q₂ := others.quiet steady q₃
  obtain ⟨condition, clean₁⟩ := ihe (taken.quiet steady q₂) clean written.1.1
  obtain ⟨taken, clean₂⟩ := ihx q₂ clean₁ written.1.2
  obtain ⟨others, clean₃⟩ := ihm q₃ clean₂ written.2.1
  obtain ⟨otherwise, clean₄⟩ := ihy q₄ clean₃ written.2.2
  exact ⟨.chooseElse condition taken others otherwise, clean₄⟩

theorem sound_loop {init init' post post' : Option Stmt} {e e' : Option Expr} {returns : Bool}
    (steady : imp.Steady) (before : Checks imp P (.clause init) s.enter init' s₁)
    (guard : Checks imp P (.guard token e) s₁ e' s₂)
    (after : Checks imp P (.clause post) s₂ post' s₃)
    (inner : Checks imp P (.body xs) { s₃ with loopDepth := s₃.loopDepth + 1 } (xs', returns) s₄)
    (leftLoop : Runs imp leaveLoop s₄ u s₅)
    (leftScope : Runs imp leaveScope { s₅ with returns := false } v s')
    (ihi : (Item.clause init).SoundIfQuiet s.enter init' s₁)
    (ihe : (Item.guard token e).SoundIfQuiet s₁ e' s₂)
    (ihp : (Item.clause post).SoundIfQuiet s₂ post' s₃)
    (ihx : (Item.body xs).SoundIfQuiet { s₃ with loopDepth := s₃.loopDepth + 1 } (xs', returns)
      s₄) :
    (Item.stmt (.loop token init e post xs)).SoundIfQuiet s
      (.loop token init' e' post' xs') s' := by
  intro q clean written
  obtain rfl := Checks.left_loop steady before guard after inner leftLoop leftScope
  have q₄ : s₄.Quiet := ⟨q.uncapped, q.errors⟩
  have entered := inner.quiet steady q₄
  have q₃ : s₃.Quiet := ⟨entered.uncapped, entered.errors⟩
  have q₂ := after.quiet steady q₃
  obtain ⟨initWritten, guardWritten, postWritten, bodyWritten⟩ := Stmt.written_loop.mp written
  obtain ⟨before, clean₁⟩ := ihi (guard.quiet steady q₂) clean.enter initWritten
  obtain ⟨guard, clean₂⟩ := ihe q₂ clean₁ guardWritten
  obtain ⟨after, clean₃⟩ := ihp q₃ clean₂ postWritten
  obtain ⟨inner, clean₄⟩ := ihx q₄ ⟨clean₃.env, clean₃.registry, clean₃.expected⟩ bodyWritten
  have before : Typed s.context.enter _ _ := before
  have left := clean₄.leave clean
  exact ⟨.loop before guard after inner, left.env, left.registry, left.expected⟩

theorem sound_returned {value value' : Option Expr}
    (fits : Runs imp (checkReturn token (value'.elim .void (·.ty))) s₁ u s')
    (ih : (Item.result value).SoundIfQuiet s value' s₁) :
    (Item.stmt (.return token value)).SoundIfQuiet s (.return token value') s' := by
  intro q clean written
  obtain ⟨_, rfl⟩ | ⟨expected, s₁, inFunction, equal, rfl⟩ := runs_checkReturn.mp fits
  · exact absurd q (not_quiet_note _ _)
  · have q₁ : s₁.Quiet := ⟨q.uncapped, q.errors⟩
    obtain rfl := notes_expectEqual.quiet equal q₁
    obtain ⟨given, clean₁⟩ := ih q₁ clean ((Stmt.written_return token).mp written)
    exact ⟨.returned given inFunction ((silent_expectEqual q₁.uncapped).mp equal), clean₁.env,
      clean₁.registry, clean₁.expected⟩

theorem sound_stmtsCons (steady : imp.Steady) (reached : s.returns = false)
    (first : Checks imp P (.stmt x) s x' s₁) (rest : Checks imp P (.stmts xs) s₁ xs' s')
    (ih : (Item.stmt x).SoundIfQuiet s x' s₁) (ihs : (Item.stmts xs).SoundIfQuiet s₁ xs' s') :
    (Item.stmts (x :: xs)).SoundIfQuiet s (x' :: xs') s' := by
  intro q clean written
  have q₁ := rest.quiet steady q
  obtain ⟨typed, clean₁⟩ := ih q₁ clean written.1
  obtain ⟨others, clean₂⟩ := ihs q clean₁ written.2
  obtain ⟨same, returns⟩ := first.returns steady q₁
  rw [← same] at returns
  refine ⟨fun _ => ?_, clean₂⟩
  by_cases stops : Stmt.returns x' = true
  · -- What follows is taken over as it is, and the state with it.
    cases rest with
    | dead _ => exact .stmtsStop typed stops
    | stmtsNil reached | stmtsCons reached _ _ =>
      exact absurd reached (by simp [returns ‹_›, stops])
  · have goesOn := Bool.eq_false_iff.mpr stops
    exact .stmtsCons typed goesOn (others ((returns reached).trans goesOn))

end Checks

theorem Checks.sound {imp : Importer} {P : Law} {i : Item} {s s' : CheckState} {r : i.Result}
    (steady : imp.Steady) (sound : imp.Sound) (h : Checks imp P i s r s') (q : s'.Quiet)
    (clean : s.context.Clean) (written : i.Written) : i.Sound s r s' ∧ s'.context.Clean := by
  induction h with
  | expr _ _ ih =>
    obtain ⟨⟨node, settled⟩, clean'⟩ := ih q clean written
    exact ⟨⟨.expr node settled, settled⟩, clean'⟩
  | ident typed =>
    obtain rfl := notes_identType.quiet typed q
    exact ⟨Typed.of_identType q.uncapped clean typed, clean⟩
  | literal literal => exact ⟨Typed.of_isLiteral literal written, clean⟩
  | member isModule typed =>
    obtain rfl := notes_moduleMember.quiet typed q
    exact ⟨Typed.of_moduleMember q.uncapped clean isModule typed, clean⟩
  | field _ _ typed ih =>
    obtain rfl := notes_fieldAccess.quiet typed q
    obtain ⟨⟨object, settled⟩, clean₁⟩ := ih q clean written.1
    exact ⟨Typed.of_fieldAccess q.uncapped clean₁ object settled typed, clean₁⟩
  | misplaced _ _ _ _ => exact absurd q (not_quiet_note _ _)
  | binary notDot notAssign _ second typed ih₁ ih₂ =>
    obtain rfl := notes_binaryType.quiet typed q
    obtain ⟨⟨first, hl⟩, clean₁⟩ := ih₁ (second.quiet steady q) clean written.1
    obtain ⟨⟨second, hr⟩, clean₂⟩ := ih₂ q clean₁ written.2
    exact ⟨Typed.of_binaryType q.uncapped clean₂ notDot notAssign first second hl hr typed, clean₂⟩
  | unary _ typed ih =>
    obtain rfl := notes_unaryType.quiet typed q
    obtain ⟨⟨first, settled⟩, clean₁⟩ := ih q clean written
    exact ⟨Typed.of_unaryType q.uncapped clean₁ first settled typed, clean₁⟩
  | index _ second typed ih₁ ih₂ =>
    obtain rfl := notes_indexType.quiet typed q
    obtain ⟨⟨first, hb⟩, clean₁⟩ := ih₁ (second.quiet steady q) clean written.1
    obtain ⟨⟨second, hi⟩, clean₂⟩ := ih₂ q clean₁ written.2
    exact ⟨Typed.of_indexType q.uncapped clean₂ first second hb hi typed, clean₂⟩
  | call _ callable given typed ih ihs =>
    exact sound_call steady callable given typed ih ihs q clean written
  | uncallable _ notCallable given ih ihs =>
    have q₂ := given.quiet steady q
    obtain rfl := notes_calleeSignature.quiet notCallable q₂
    obtain ⟨⟨called, settled⟩, clean₁⟩ := ih q₂ clean written.1
    obtain ⟨sig, _, ⟨⟩⟩ := Typed.func_of_calleeSignature q₂.uncapped clean₁ settled notCallable
  | builtin known types given ih => exact sound_builtin steady known types given ih q clean written
  | unknown notKnown given _ =>
    exact absurd (given.quiet steady q) (not_quiet_builtin? notKnown)
  | structLit struct given ih =>
    have q₁ := given.quiet steady q
    obtain rfl := notes_literalRecord.quiet struct q₁
    obtain ⟨_, named, isStruct, ⟨rfl⟩⟩ := (silent_literalRecord q₁.uncapped).mp struct
    obtain ⟨fields, clean₁⟩ := ih q clean written
    exact ⟨⟨.structLit named isStruct fields, Typed.settled_structNamed? clean named⟩, clean₁⟩
  | structless notStruct given _ =>
    exact absurd (given.quiet steady q) (not_quiet_literalRecord notStruct)
  | arrayLit array given ih => exact sound_arrayLit steady array given ih q clean written
  | @arrayless ty _ _ _ s _ _ _ _ notArray resolved given _ =>
    have q₁ := given.quiet steady q
    obtain rfl := notes_resolveAll.quiet resolved q₁
    obtain ⟨rfl, _⟩ := (silent_resolveAll q₁.uncapped.room).mp resolved
    cases ty with
    | array t n => exact absurd notArray (by simp [Ty.isArray])
    | _ => exact absurd written.1.1 (by simp [Ty.isArray])
  | comma _ _ => exact absurd q (not_quiet_note _ _)
  | @lambda sig _ _ _ s _ _ _ ih =>
    have resolver : s.context.resolver.Clean := clean.resolver
    have settled := resolver.settled_resolveSignature written.1
    obtain ⟨inner, clean₁⟩ := ih ⟨q.uncapped, q.errors⟩
      ⟨clean.env, clean.registry, clean.expected⟩ ⟨settled, written.2⟩
    exact ⟨⟨.lambda (resolver.resolveSignature_resolveSignature sig) inner, settled⟩,
      clean₁.env, clean₁.registry, clean₁.expected⟩
  | exprsNil => exact ⟨⟨.exprsNil, nofun⟩, clean⟩
  | exprsCons _ rest ih ihs =>
    obtain ⟨⟨first, settled⟩, clean₁⟩ := ih (rest.quiet steady q) clean written.1
    obtain ⟨⟨rest, all⟩, clean₂⟩ := ihs q clean₁ written.2
    exact ⟨⟨.exprsCons first rest, List.forall_mem_cons.mpr ⟨settled, all⟩⟩, clean₂⟩
  | argsNil =>
    refine ⟨fun count => ?_, clean⟩
    obtain rfl := List.length_eq_zero_iff.mp count.symm
    exact .argsNil
  | argsCons _ fits rest ih ihs =>
    have q₂ := rest.quiet steady q
    obtain rfl := notes_expectEqual.quiet fits q₂
    obtain ⟨⟨first, _⟩, clean₁⟩ := ih q₂ clean written.1
    obtain ⟨rest, clean₂⟩ := ihs q clean₁ written.2
    have equal := (silent_expectEqual q₂.uncapped).mp fits
    exact ⟨fun count => .argsCons first equal (rest (by simpa using count)), clean₂⟩
  | argsMore _ rest ih ihs =>
    obtain ⟨_, clean₁⟩ := ih (rest.quiet steady q) clean written.1
    exact ⟨fun count => absurd count (by simp), (ihs q clean₁ written.2).2⟩
  | elementsNil => exact ⟨⟨rfl, .elementsNil⟩, clean⟩
  | elementsCons _ fits rest ih ihs =>
    have q₂ := rest.quiet steady q
    obtain rfl := notes_expectEqual.quiet fits q₂
    obtain ⟨⟨first, _⟩, clean₁⟩ := ih q₂ clean written.1
    obtain ⟨⟨count, rest⟩, clean₂⟩ := ihs q clean₁ written.2
    have equal := (silent_expectEqual q₂.uncapped).mp fits
    exact ⟨⟨congrArg (· + 1) count, .elementsCons first equal rest⟩, clean₂⟩
  | valuesNil => exact ⟨trivial, clean⟩
  | valuesCons _ rest ih ihs =>
    obtain ⟨_, clean₁⟩ := ih (rest.quiet steady q) clean written.1
    exact ⟨trivial, (ihs q clean₁ written.2).2⟩
  | fieldsNil => exact ⟨.fieldsNil, clean⟩
  | fieldsCons first fits rest ih ihs =>
    exact sound_fieldsCons steady first fits rest ih ihs q clean written
  | sizeof =>
    exact ⟨Item.sound_builtin_of_type rfl fun known settled => ⟨.sizeof known settled, rfl⟩, clean⟩
  | print prints _ ih =>
    obtain ⟨⟨given, _⟩, clean₁⟩ := ih q clean written.2
    refine ⟨?_, clean₁⟩
    obtain rfl | rfl := prints
    · exact Item.sound_builtin rfl ⟨.print (.inl rfl) given, rfl⟩
    · exact Item.sound_builtin rfl ⟨.print (.inr rfl) given, rfl⟩
  | @unreachable _ _ s =>
    refine ⟨Item.sound_builtin rfl ⟨.unreachable, ?_⟩, clean.env, clean.registry, clean.expected⟩
    cases he : s.expected with
    | none => rfl
    | some t => exact clean.expected t he
  | cast _ typed ih =>
    obtain rfl := notes_castType.quiet typed q
    obtain ⟨⟨value, settled⟩, clean₁⟩ := ih q clean written.2.1
    refine ⟨Item.sound_builtin_of_type rfl fun known closed => ?_, clean₁⟩
    exact Typed.of_castType q.uncapped clean₁ known closed value settled typed
  | alloc _ typed ih =>
    obtain rfl := notes_expectInteger.quiet typed q
    obtain ⟨⟨size, settled⟩, clean₁⟩ := ih q clean written.2.1
    have integer := clean₁.resolver.isInteger_of_resolve settled
      ((silent_expectInteger q.uncapped).mp typed)
    exact ⟨Item.sound_builtin_of_type rfl fun known closed => ⟨.alloc known size integer, closed⟩,
      clean₁⟩
  | free _ typed ih =>
    obtain rfl := notes_expectPointer.quiet typed q
    obtain ⟨⟨value, settled⟩, clean₁⟩ := ih q clean written.2.1
    have pointer := clean₁.resolver.isPointer_of_resolve settled
      ((silent_expectPointer q.uncapped).mp typed)
    exact ⟨Item.sound_builtin rfl ⟨.free value pointer, rfl⟩, clean₁⟩
  | realloc _ typed size sized ih ihn =>
    exact sound_realloc steady typed size sized ih ihn q clean written
  | codeless => exact absurd q (not_quiet_note _ _)
  | asm code given ih => exact sound_asm steady code given ih q clean written
  | commas _ ih =>
    obtain ⟨⟨given, all⟩, clean₁⟩ := ih q clean written
    exact ⟨⟨.commas given, by simpa [Expr.valueTypes] using all⟩, clean₁⟩
  | single noComma _ ih =>
    obtain ⟨⟨value, settled⟩, clean₁⟩ := ih q clean written
    refine ⟨⟨.single value.not_comma value, ?_⟩, clean₁⟩
    unfold Expr.valueTypes
    split
    case h_1 items comma => exact absurd comma (value.not_comma items)
    case h_2 => simpa using settled
  | condition _ typed ih =>
    obtain rfl := notes_checkCondition.quiet typed q
    obtain ⟨⟨value, settled⟩, clean₁⟩ := ih q clean written
    obtain ⟨numeric, _⟩ := clean₁.resolver.isNumeric_of_resolve settled
      ((silent_checkCondition q.uncapped).mp typed)
    exact ⟨.condition value numeric, clean₁⟩
  | unguarded => exact ⟨.unguarded, clean⟩
  | guarded _ ih =>
    obtain ⟨value, clean₁⟩ := ih q clean (written _ rfl)
    exact ⟨.guarded value, clean₁⟩
  | nothing => exact ⟨.nothing, clean⟩
  | something _ ih =>
    obtain ⟨⟨value, _⟩, clean₁⟩ := ih q clean (written _ rfl)
    exact ⟨.something value, clean₁⟩
  | @body _ s _ _ _ _ inner left ih =>
    obtain ⟨_, rfl⟩ := inner.left_body steady left
    obtain ⟨xs, clean₁⟩ := ih ⟨q.uncapped, q.errors⟩ clean.enter written
    have xs : Typed s.context.enter _ _ := xs rfl
    exact ⟨.body xs, clean₁.leave clean⟩
  | function inner left ih => exact sound_function steady inner left ih q clean written
  | absent => exact ⟨.absent, clean⟩
  | present _ ih =>
    obtain ⟨x, clean₁⟩ := ih q clean (written _ rfl)
    exact ⟨.present x, clean₁⟩
  | expression _ ih =>
    obtain ⟨⟨value, _⟩, clean₁⟩ := ih q clean written
    exact ⟨.expression value, clean₁⟩
  | @declare _ name _ _ _ _ _ _ _ _ typed ih =>
    have q₂ := (grows_declare _ _ _).quiet q
    obtain rfl := notes_declaredType.quiet typed q₂
    obtain ⟨⟨given, settled⟩, clean₁⟩ := ih q₂ clean written.2
    obtain ⟨declared, closed⟩ :=
      Typed.of_declaredType q₂.uncapped clean₁ given written.1 settled typed
    exact ⟨declared, clean₁.declare name closed⟩
  | declareAll _ typed ih => exact sound_declareAll typed ih q clean written
  | assign _ targets fits ihv iht =>
    obtain rfl := notes_checkAssignment.quiet fits q
    obtain ⟨⟨given, _⟩, clean₁⟩ := ihv (targets.quiet steady q) clean written.2
    obtain ⟨⟨targets, _⟩, clean₂⟩ := iht q clean₁ written.1
    exact ⟨.assign given targets ((silent_checkAssignment q.uncapped).mp fits), clean₂⟩
  | record declared => exact Typed.of_recordDecl clean written declared q
  | @define _ sig _ s _ _ _ ih =>
    have resolver : s.context.resolver.Clean := clean.resolver
    have settled := resolver.settled_resolveSignature written.1
    obtain ⟨inner, clean₁⟩ := ih ⟨q.uncapped, q.errors⟩ (clean.declare sig.name settled)
      ⟨settled, written.2⟩
    exact ⟨.define (resolver.resolveSignature_resolveSignature sig) settled inner,
      clean₁.recordFunction _⟩
  | choose _ taken others ihe ihx ihm =>
    have q₃ := (keeps_returns _ _).quiet q
    have q₂ := others.quiet steady q₃
    obtain ⟨condition, clean₁⟩ := ihe (taken.quiet steady q₂) clean written.1.1
    obtain ⟨taken, clean₂⟩ := ihx q₂ clean₁ written.1.2
    obtain ⟨others, clean₃⟩ := ihm q₃ clean₂ written.2.1
    exact ⟨.choose condition taken others, clean₃⟩
  | chooseElse _ taken others otherwise ihe ihx ihm ihy =>
    exact sound_chooseElse steady taken others otherwise ihe ihx ihm ihy q clean written
  | loop before guard after inner leftLoop leftScope ihi ihe ihp ihx =>
    exact sound_loop steady before guard after inner leftLoop leftScope ihi ihe ihp ihx q clean
      written
  | returned _ fits ih => exact sound_returned fits ih q clean written
  | breaks inLoop =>
    obtain rfl := notes_checkInLoop.quiet inLoop q
    exact ⟨.breaks ((silent_checkInLoop q.uncapped.room).mp inLoop), clean⟩
  | continues inLoop =>
    obtain rfl := notes_checkInLoop.quiet inLoop q
    exact ⟨.continues ((silent_checkInLoop q.uncapped.room).mp inLoop), clean⟩
  | @external _ sig s =>
    have resolver : s.context.resolver.Clean := clean.resolver
    have settled := resolver.settled_resolveSignature written
    exact ⟨.external (resolver.resolveSignature_resolveSignature sig) settled,
      clean.declare _ settled⟩
  | importUnit types imported =>
    have q₁ := (keeps_imports steady (runs_importUnit.mp imported)).quiet q
    obtain rfl := (notes_resolveTypeArgs _).quiet types q₁
    obtain ⟨_, all⟩ := Typed.settled_resolveTypeArgs q₁.uncapped clean written types
    exact Typed.of_imports sound q₁.uncapped clean all (runs_importUnit.mp imported) q
  | generic => exact ⟨.generic, clean⟩
  | branchesNil => exact ⟨.branchesNil, clean⟩
  | branchesCons _ taken others ihe ihx ihs =>
    have q₂ := others.quiet steady q
    obtain ⟨condition, clean₁⟩ := ihe (taken.quiet steady q₂) clean written.1.1
    obtain ⟨taken, clean₂⟩ := ihx q₂ clean₁ written.1.2
    obtain ⟨others, clean₃⟩ := ihs q clean₂ written.2
    exact ⟨.branchesCons condition taken others, clean₃⟩
  | stmtsNil _ => exact ⟨fun _ => .stmtsNil, clean⟩
  | stmtsCons reached first rest ih ihs =>
    exact sound_stmtsCons steady reached first rest ih ihs q clean written
  | dead notReached => exact ⟨fun reached => by simp [reached] at notReached, clean⟩
  | topNil => exact ⟨.topNil, clean⟩
  | topCons _ rest ih ihs =>
    obtain ⟨first, clean₁⟩ := ih (rest.quiet steady q) clean written.1
    obtain ⟨rest, clean₂⟩ := ihs q clean₁ written.2
    exact ⟨.topCons first rest, clean₂⟩

theorem Importer.Sound.unitWith {imp : Importer} (steady : imp.Steady) (total : imp.Total)
    (sound : imp.Sound) : Importer.Sound (Build.unitWith imp) := by
  intro source path typeArgs session unit session' uncapped settled declared h
  have ok := Lawful.any steady total
  cases Build.unitWith_eq_ok.mp h with
  | accepted readable checked noErrors =>
    have derived : Checks imp _ (.top _) _ _ _ := Checks.of_runs ok checked
    have grown : Grows _ _ := derived.change steady
    have quiet : CheckState.Quiet _ :=
      ⟨(congrArg Config.maxCheckErrors grown.config).trans uncapped, noErrors⟩
    obtain ⟨typed, clean⟩ := derived.sound steady sound quiet (Context.clean_start _ _ declared)
      (Program.written_read settled readable)
    exact ⟨_, typed, rfl, rfl, clean⟩

namespace Build

theorem within_sound (n : Nat) : Importer.Sound (within n) := by
  induction n with
  | zero =>
    intro _ _ _ _ _ _ _ _ _ h
    cases h
  | succ n ih =>
    obtain ⟨steady, total⟩ := within_steady_total n
    exact ih.unitWith steady total

/-- A program that is accepted is well typed, and so are the units that it imports: nothing is
left open in the types that are filled in, and they satisfy the rules wherever they are looked at,
so in all statements but those after a statement that returns on every path. -/
theorem file_typed {config : Config} {files : List (String × String)} {source : String}
    {path : Path} {unit : CheckedUnit} {session : Session} (uncapped : config.maxCheckErrors = none)
    (accepted : file source path (.start config (.ofFiles files)) = .ok (.ok unit, session)) :
    ∃ Γ, Typed (.start "0" (path.normalize.parent?.getD ⟨""⟩) []) (.top unit.program.statements) Γ ∧
      unit.env = Γ.env ∧ session.registry = Γ.registry := by
  obtain ⟨session', checked, rfl⟩ := file_start_eq_ok.mp accepted
  obtain ⟨Γ, typed, env, registry, _⟩ := within_sound _ uncapped (by simp) (by simp) checked
  have first : toString 0 = "0" := by decide
  rw [first] at typed
  exact ⟨Γ, typed, env, registry⟩

/-- A list whose record points to itself, a loop that goes through it, a call of a function of
another unit, and a statement that is never reached. -/
theorem file_typed_list :
    ∃ unit session, file ("import a, \"a.cd\"\nstruct Node \x7b v i32; next *Node \x7d\n" ++
      "func f(n *Node) i32 \x7b for n.v < 3 \x7b n = n.next \x7d; return a.g(n.v); n = 0 \x7d")
      ⟨"main.cd"⟩ (.start .default (.ofFiles [("a.cd", "func g(x i32) i32 \x7b return -x \x7d")])) =
        .ok (.ok unit, session) ∧
      ∃ Γ, Typed (.start "0" ⟨""⟩ []) (.top unit.program.statements) Γ ∧
        unit.env = Γ.env ∧ session.registry = Γ.registry := by
  refine exists_of_accepts ?_ fun accepted => file_typed rfl accepted
  decide +kernel

end Build

end FrontEnd
