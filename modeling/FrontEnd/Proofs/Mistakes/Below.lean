import FrontEnd.Proofs.Checking.Silent

namespace FrontEnd

/-- The types that `todo` fits below, on its own or behind pointers. -/
inductive Ty.Below : Ty → Ty → Prop
  | refl (t : Ty) : Below t t
  | todo (t : Ty) : Below .todo t
  | pointer {t u : Ty} (h : Below t u) : Below (.pointer t) (.pointer u)

namespace Ty

variable {t u a b a' b' : Ty}

theorem agrees_todo (a : Ty) : a.agrees .todo = true := by
  cases a <;> rfl

theorem agrees_pointer (h : a.agrees (.pointer b) = true) :
    a = .todo ∨ ∃ a₁, a = .pointer a₁ ∧ a₁.agrees b = true := by
  cases a with
  | todo => exact .inl rfl
  | pointer a₁ => exact .inr ⟨a₁, rfl, h⟩
  | _ => exact absurd h (by simp [agrees])

theorem pointer_agrees (h : (Ty.pointer a).agrees b = true) :
    b = .todo ∨ ∃ b₁, b = .pointer b₁ ∧ a.agrees b₁ = true := by
  cases b with
  | todo => exact .inl rfl
  | pointer b₁ => exact .inr ⟨b₁, rfl, h⟩
  | _ => exact absurd h (by simp [agrees])

namespace Below

theorem resolve (r : Resolver) (h : t.Below u) : (r.resolve t).Below (r.resolve u) := by
  induction h with
  | refl t => exact .refl _
  | todo t => exact .todo _
  | pointer _ ih => exact .pointer ih

theorem agrees_right (h : b'.Below b) (ok : a.agrees b = true) : a.agrees b' = true := by
  induction h generalizing a with
  | refl b => exact ok
  | todo b => exact agrees_todo a
  | pointer _ ih =>
    obtain rfl | ⟨a₁, rfl, ok₁⟩ := agrees_pointer ok
    · rfl
    · exact ih ok₁

theorem agrees (h : a'.Below a) (h' : b'.Below b) (ok : a.agrees b = true) :
    a'.agrees b' = true := by
  induction h generalizing b b' with
  | refl a => exact h'.agrees_right ok
  | todo a => cases b' <;> rfl
  | pointer _ ih =>
    obtain rfl | ⟨b₁, rfl, ok₁⟩ := pointer_agrees ok
    · cases h' <;> exact agrees_todo _
    · cases h' with
      | refl _ => exact ih (.refl b₁) ok₁
      | todo _ => rfl
      | pointer below => exact ih below ok₁

theorem equals (r : Resolver) (h : a'.Below a) (h' : b'.Below b) (ok : a.equals r b = true) :
    a'.equals r b' = true :=
  (h.resolve r).agrees (h'.resolve r) ok

/-- A property that pointers have whatever they point to is kept, if `todo` passes for it. -/
theorem or_todo {p : Ty → Bool} (hp : ∀ t u, p (.pointer t) = p (.pointer u)) (h : t.Below u)
    (ok : (u.isTodo || p u) = true) : (t.isTodo || p t) = true := by
  cases h with
  | refl _ => exact ok
  | todo _ => rfl
  | @pointer t u _ =>
    have same := hp t u
    simpa [isTodo, same] using ok

theorem known (h : t.Below u) (known : u.Known) : t.Known := by
  cases h with
  | refl _ => exact known
  | todo _ | pointer _ => exact nofun

theorem eq_todo (h : t.Below .todo) : t = .todo := by
  cases h <;> rfl

theorem stays_todo (h : t.Below u) (todo : u.isTodo = true) : t.isTodo = true := by
  cases h with
  | refl _ => exact todo
  | todo _ => rfl
  | pointer _ => exact todo

theorem pointer_or_todo (h : t.Below (.pointer u)) :
    (∃ t', t = .pointer t' ∧ t'.Below u) ∨ t = .todo := by
  cases h with
  | refl _ => exact .inl ⟨u, rfl, .refl u⟩
  | todo _ => exact .inr rfl
  | pointer less => exact .inl ⟨_, rfl, less⟩

theorem eq_or_todo (h : t.Below u) (ok : u.isPointer = false) : t = .todo ∨ t = u := by
  cases h with
  | refl _ => exact .inr rfl
  | todo _ => exact .inl rfl
  | pointer _ => exact absurd ok (by simp [isPointer])

theorem numeric (h : t.Below u) (ok : u.isNumeric = true) : t = .todo ∨ t = u := by
  apply h.eq_or_todo
  cases u <;> simp_all [isNumeric, isPointer]

theorem operand (r : Resolver) (left : a'.Below a) (right : b'.Below b)
    (numericLeft : (a.isTodo || a.isNumeric) = true)
    (numericRight : (b.isTodo || b.isNumeric) = true) (equal : a.equals r b = true) :
    (if a'.isTodo then b' else a').Below (if a.isTodo then b else a) := by
  obtain todo | numericLeft := (Bool.or_eq_true _ _).mp numericLeft
  · obtain rfl : a = .todo := by cases a <;> simp_all [isTodo]
    obtain rfl := left.eq_todo
    exact right
  have known : a.isTodo = false := by cases a <;> simp_all [isTodo, isNumeric]
  rw [known]
  obtain rfl | rfl := left.numeric numericLeft
  · obtain todo | numericRight := (Bool.or_eq_true _ _).mp numericRight
    · obtain rfl : b = .todo := by cases b <;> simp_all [isTodo]
      obtain rfl := right.eq_todo
      exact .todo a
    · have same : b = a := by
        cases a <;> cases b <;> simp_all [isNumeric, Ty.equals, Resolver.resolve,
          Resolver.resolveWithin, Ty.bind, Ty.agrees]
      exact same ▸ right
  · rw [known]
    exact .refl a'

end Below

variable {ts us ts' us' : List Ty}

theorem forall_mem_of_below {P Q : Ty → Prop} (less : List.Forall₂ Below ts us)
    (step : ∀ {t u : Ty}, t.Below u → P u → Q t) (all : ∀ u ∈ us, P u) : ∀ t ∈ ts, Q t := by
  induction less with
  | nil => exact nofun
  | cons first _ ih =>
    obtain ⟨ok, rest⟩ := List.forall_mem_cons.mp all
    exact List.forall_mem_cons.mpr ⟨step first ok, ih rest⟩

theorem equalAll_of_below (r : Resolver) (left : List.Forall₂ Below ts' ts)
    (right : List.Forall₂ Below us' us)
    (equal : List.Forall₂ (fun t u => t.equals r u = true) ts us) :
    List.Forall₂ (fun t u => t.equals r u = true) ts' us' := by
  induction left generalizing us us' with
  | nil =>
    cases equal
    cases right
    exact .nil
  | cons first _ ih =>
    cases equal with
    | cons ok all =>
      cases right with
      | cons second rest => exact .cons (first.equals r second ok) (ih rest all)

end Ty

namespace Scopes

/-- The same bindings, of which less is known. -/
inductive Entry.Below : Entry Ty → Entry Ty → Prop
  | frame : Below .frame .frame
  | binding {name : String} {t u : Ty} (h : t.Below u) : Below (.binding name t) (.binding name u)

def Below (a b : Scopes Ty) : Prop :=
  List.Forall₂ Entry.Below a.entries b.entries

variable {a b : Scopes Ty} {es fs : List (Entry Ty)}

theorem frames_of_below (h : List.Forall₂ Entry.Below es fs) : frames es = frames fs := by
  induction h with
  | nil => rfl
  | cons first _ ih =>
    cases first with
    | frame => exact congrArg (· + 1) ih
    | binding _ => exact ih

theorem find?_of_below (h : List.Forall₂ Entry.Below es fs) (name : String) :
    (find? name es = none ∧ find? name fs = none) ∨
      ∃ t u n, find? name es = some (t, n) ∧ find? name fs = some (u, n) ∧ t.Below u := by
  induction h with
  | nil => exact .inl ⟨rfl, rfl⟩
  | cons first rest ih =>
    cases first with
    | frame => exact ih
    | @binding bound t u below =>
      by_cases same : bound = name
      · have depth := frames_of_below rest
        exact .inr ⟨t, u, _, if_pos same, by simp [find?, same, depth], below⟩
      · simpa [find?, same] using ih

namespace Below

theorem refl (a : Scopes Ty) : a.Below a :=
  List.forall₂_same.mpr fun e _ =>
    match e with
    | .frame => .frame
    | .binding _ t => .binding (.refl t)

theorem add (h : a.Below b) {t u : Ty} (below : t.Below u) (name : String) :
    (a.add name t).Below (b.add name u) :=
  .cons (.binding below) h

theorem enter (h : a.Below b) : a.enter.Below b.enter :=
  .cons .frame h

theorem get?_eq_none (h : a.Below b) {name : String} (hb : b.get? name = none) :
    a.get? name = none := by
  obtain ⟨found, _⟩ | ⟨t, u, n, _, found, _⟩ := find?_of_below h name
  · simp [get?, found]
  · simp [get?, found] at hb

theorem get?_eq_some (h : a.Below b) {name : String} {u : Ty} (hb : b.get? name = some u) :
    ∃ t, a.get? name = some t ∧ t.Below u := by
  obtain ⟨_, found⟩ | ⟨t, u', n, found, found', below⟩ := find?_of_below h name
  · simp [get?, found] at hb
  · obtain rfl : u' = u := by simpa [get?, found'] using hb
    exact ⟨t, by simp [get?, found], below⟩

theorem depthOf? (h : a.Below b) (name : String) : a.depthOf? name = b.depthOf? name := by
  obtain ⟨found, found'⟩ | ⟨t, u, n, found, found', _⟩ := find?_of_below h name <;>
    simp [Scopes.depthOf?, found, found']

theorem contains (h : a.Below b) (name : String) : a.contains name = b.contains name := by
  obtain ⟨found, found'⟩ | ⟨t, u, n, found, found', _⟩ := find?_of_below h name <;>
    simp [Scopes.contains, get?, found, found']

theorem depth (h : a.Below b) : a.depth = b.depth :=
  frames_of_below h

end Below

end Scopes

namespace CheckState

/-- The state with other types of the variables, other functions recorded and other errors. -/
def vary (s : CheckState) (vars : Scopes Ty) (functions : List (String × FunctionDecl))
    (errors : List Diagnostic) : CheckState :=
  { s with env := { s.env with vars := vars, functions := functions }, errors := errors }

/-- The state `t` is what `s` would be after some mistakes: the errors have been recorded, and less
is known of the variables. -/
def Behind (errors : List Diagnostic) (t s : CheckState) : Prop :=
  ∃ vars functions, vars.Below s.env.vars ∧ t = s.vary vars functions errors

namespace Behind

variable {es : List Diagnostic} {s t : CheckState}

theorem of_quiet (q : s.Quiet) : Behind [] s s := by
  refine ⟨s.env.vars, s.env.functions, .refl _, ?_⟩
  rw [← q.errors]
  obtain ⟨⟨_, _, _, _, _, _⟩, _, _, _, _, _, _⟩ := s
  rfl

variable (h : Behind es t s)
include h

theorem errors_eq : t.errors = es := by
  obtain ⟨_, _, _, rfl⟩ := h
  rfl

theorem resolver : t.resolver = s.resolver := by
  obtain ⟨_, _, _, rfl⟩ := h
  rfl

theorem returns : t.returns = s.returns := by
  obtain ⟨_, _, _, rfl⟩ := h
  rfl

theorem expected : t.expected = s.expected := by
  obtain ⟨_, _, _, rfl⟩ := h
  rfl

theorem barrier : t.barrier = s.barrier := by
  obtain ⟨_, _, _, rfl⟩ := h
  rfl

theorem depth : t.env.vars.depth = s.env.vars.depth := by
  obtain ⟨_, _, below, rfl⟩ := h
  exact below.depth

theorem loopDepth : t.loopDepth = s.loopDepth := by
  obtain ⟨_, _, _, rfl⟩ := h
  rfl

theorem id : t.env.id = s.env.id := by
  obtain ⟨_, _, _, rfl⟩ := h
  rfl

theorem uncapped (u : s.Uncapped) : t.Uncapped := by
  obtain ⟨_, _, _, rfl⟩ := h
  exact u

theorem note (u : s.Uncapped) (d : Diagnostic) : Behind (es ++ [d]) (t.note d) s := by
  rw [note_of_uncapped (h.uncapped u)]
  obtain ⟨vars, functions, below, rfl⟩ := h
  exact ⟨vars, functions, below, rfl⟩

theorem setReturns (b : Bool) : Behind es { t with returns := b } { s with returns := b } := by
  obtain ⟨vars, functions, below, rfl⟩ := h
  exact ⟨vars, functions, below, rfl⟩

theorem setBarrier (barrier : Option Nat) :
    Behind es { t with barrier := barrier } { s with barrier := barrier } := by
  obtain ⟨vars, functions, below, rfl⟩ := h
  exact ⟨vars, functions, below, rfl⟩

theorem setLoopDepth (n : Nat) : Behind es { t with loopDepth := n } { s with loopDepth := n } := by
  obtain ⟨vars, functions, below, rfl⟩ := h
  exact ⟨vars, functions, below, rfl⟩

theorem declare (name : String) {ty ty' : Ty} (less : ty'.Below ty) :
    Behind es (t.declare name ty') (s.declare name ty) := by
  obtain ⟨vars, functions, below, rfl⟩ := h
  exact ⟨vars.add name ty', functions, below.add less name, rfl⟩

theorem declareEach (names : List String) {types types' : List Ty}
    (less : List.Forall₂ Ty.Below types' types) :
    Behind es (t.declareEach names types') (s.declareEach names types) := by
  induction names generalizing s t types types' with
  | nil => exact h
  | cons name names ih =>
    cases less with
    | nil => exact h
    | cons first rest => exact ih (h.declare name first) rest

theorem define (name : String) (ty : Ty) : Behind es (t.define name ty) (s.define name ty) := by
  obtain ⟨vars, functions, below, rfl⟩ := h
  exact ⟨vars, functions, below, rfl⟩

theorem enter : Behind es t.enter s.enter := by
  obtain ⟨vars, functions, below, rfl⟩ := h
  exact ⟨vars.enter, functions, below.enter, rfl⟩

theorem enterFunction (sig : Signature) :
    Behind es (t.enterFunction sig) (s.enterFunction sig) := by
  have same : List.Forall₂ Ty.Below sig.params sig.params :=
    List.forall₂_same.mpr fun ty _ => .refl ty
  obtain ⟨vars, functions, below, entered⟩ := h.enter.declareEach sig.names same
  refine ⟨vars, functions, below, ?_⟩
  unfold CheckState.enterFunction
  rw [entered]
  rfl

theorem leave {t' s' : CheckState} {es' : List Diagnostic}
    (around : Behind es' t' s') : Behind es (t.leave t') (s.leave s') := by
  obtain ⟨_, functions, _, rfl⟩ := h
  obtain ⟨vars, _, below, rfl⟩ := around
  exact ⟨vars, functions, below, rfl⟩

theorem leaveLoop {t' s' : CheckState} {es' : List Diagnostic} (around : Behind es' t' s') :
    Behind es { t.leave t' with loopDepth := t'.loopDepth, returns := false }
      { s.leave s' with loopDepth := s'.loopDepth, returns := false } := by
  obtain ⟨_, functions, _, rfl⟩ := h
  obtain ⟨vars, _, below, rfl⟩ := around
  exact ⟨vars, functions, below, rfl⟩

theorem recordFunction (f g : FunctionDecl) :
    Behind es (t.recordFunction g) (s.recordFunction f) := by
  obtain ⟨vars, functions, below, rfl⟩ := h
  exact ⟨vars, _, below, rfl⟩

theorem moduleOf? (e : Expr) : t.moduleOf? e = s.moduleOf? e := by
  obtain ⟨vars, functions, below, rfl⟩ := h
  unfold CheckState.moduleOf? vary
  simp only [below.contains]
  rfl

open Check

variable {imp : Importer} {token token' : Token}

variable (u : s.Uncapped)
include u

variable {a a' ty b b' : Ty} {name : String} {r : Expr × Ty}

theorem resolveValue (less : a'.Below a) (run : Runs imp (resolveValue a token) s ty s) :
    ∃ ty', Runs imp (Check.resolveValue a' token') t ty' t ∧ ty'.Below ty := by
  obtain ⟨rfl, known⟩ := (silent_resolveValue u).mp run
  have below := less.resolve s.resolver
  refine ⟨s.resolver.resolve a', (silent_resolveValue (h.uncapped u)).mpr ?_, below⟩
  rw [h.resolver]
  exact ⟨rfl, below.known known⟩

theorem identType (run : Runs imp (identType name token) s ty s) :
    ∃ ty', Runs imp (Check.identType name token') t ty' t ∧ ty'.Below ty := by
  obtain ⟨v, bound, reachable, rfl, known⟩ := (silent_identType u).mp run
  have uncapped := h.uncapped u
  obtain ⟨vars, functions, below, rfl⟩ := h
  obtain ⟨v', bound', less⟩ := below.get?_eq_some bound
  have resolved := less.resolve s.resolver
  refine ⟨s.resolver.resolve v', (silent_identType uncapped).mpr ?_, resolved⟩
  refine ⟨v', bound', ?_, rfl, resolved.known known⟩
  have depth : (s.vary vars functions es).env.vars.depthOf? name = s.env.vars.depthOf? name :=
    below.depthOf? name
  rw [← reachable, Context.captures, Context.captures, context_env, context_env, depth]
  rfl

theorem undefined (unbound : s.env.vars.get? name = none) (noModule : s.env.module? name = none) :
    ∃ t', Runs imp (Check.identType name token) t .todo t' ∧
      Behind (es ++ [⟨.check (.undefinedVariable (Name.bare name)), token.start⟩]) t' s := by
  refine ⟨_, ?_, h.note u _⟩
  obtain ⟨vars, functions, below, rfl⟩ := h
  have unbound' : (s.vary vars functions es).env.vars.get? name = none :=
    below.get?_eq_none unbound
  have noModule' : (s.vary vars functions es).env.module? name = none := noModule
  unfold Check.identType
  rw [runs_get_bind]
  simp only [unbound', noModule', Option.isSome_none, Bool.false_eq_true, if_false]
  exact Runs.error.bind .ret

theorem expectEqual (left : a'.Below a) (right : b'.Below b)
    (run : Runs imp (expectEqual a b token) s () s) :
    Runs imp (Check.expectEqual a' b' token') t () t := by
  rw [silent_expectEqual (h.uncapped u), h.resolver]
  exact left.equals s.resolver right ((silent_expectEqual u).mp run)

theorem binaryType {op : InfixOp} (left : a'.Below a) (right : b'.Below b)
    (run : Runs imp (binaryType op a b token) s ty s) :
    ∃ ty', Runs imp (Check.binaryType op a' b' token') t ty' t ∧ ty'.Below ty := by
  obtain ⟨numericLeft, numericRight, equal, rfl⟩ := (silent_binaryType u).mp run
  have left := left.resolve s.resolver
  have right := right.resolve s.resolver
  refine ⟨_, (silent_binaryType (h.uncapped u)).mpr ⟨?_, ?_, ?_, rfl⟩, ?_⟩
  · rw [h.resolver]
    exact left.or_todo (fun _ _ => rfl) numericLeft
  · rw [h.resolver]
    exact right.or_todo (fun _ _ => rfl) numericRight
  · rw [h.resolver]
    exact left.equals s.resolver right equal
  · rw [h.resolver]
    split
    · exact .refl _
    · exact left.operand s.resolver right numericLeft numericRight equal

theorem unaryType {op : PrefixOp} (less : a'.Below a)
    (run : Runs imp (unaryType op a token) s ty s) :
    ∃ ty', Runs imp (Check.unaryType op a' token') t ty' t ∧ ty'.Below ty := by
  have uncapped := h.uncapped u
  have resolved := less.resolve s.resolver
  by_cases number : op = .not ∨ op = .negate ∨ op = .identity
  · obtain ⟨rfl, numeric⟩ := (silent_unaryType_numeric u number).mp run
    refine ⟨_, (silent_unaryType_numeric uncapped number).mpr ⟨rfl, ?_⟩, ?_⟩ <;> rw [h.resolver]
    · exact resolved.or_todo (fun _ _ => rfl) numeric
    · exact resolved
  cases op with
  | not | negate | identity => simp at number
  | reference =>
    obtain rfl := silent_unaryType_reference.mp run
    refine ⟨_, silent_unaryType_reference.mpr rfl, ?_⟩
    rw [h.resolver]
    exact .pointer resolved
  | dereference =>
    obtain ⟨target, pointer, rfl, known⟩ | ⟨todo, rfl⟩ := (silent_unaryType_dereference u).mp run
    · rw [pointer] at resolved
      obtain ⟨target', pointer', less⟩ | todo' := resolved.pointer_or_todo
      · have below := less.resolve s.resolver
        refine ⟨_, (silent_unaryType_dereference uncapped).mpr (.inl ?_), below⟩
        rw [h.resolver]
        exact ⟨target', pointer', rfl, below.known known⟩
      · refine ⟨.todo, (silent_unaryType_dereference uncapped).mpr (.inr ?_), .todo _⟩
        rw [h.resolver]
        exact ⟨todo', rfl⟩
    · rw [todo] at resolved
      refine ⟨.todo, (silent_unaryType_dereference uncapped).mpr (.inr ?_), .refl _⟩
      rw [h.resolver]
      exact ⟨resolved.eq_todo, rfl⟩

theorem elementType (less : a'.Below a) (run : Runs imp (elementType a token) s ty s) :
    ∃ ty', Runs imp (Check.elementType a' token') t ty' t ∧ ty'.Below ty := by
  have uncapped := h.uncapped u
  obtain ⟨vars, functions, _, rfl⟩ := h
  have resolved := less.resolve s.resolver
  have unknown (todo : s.resolver.resolve a' = .todo) :
      Runs imp (Check.elementType a' token') (s.vary vars functions es) .todo
        (s.vary vars functions es) :=
    (silent_elementType uncapped).mpr (.inr ⟨todo, rfl⟩)
  obtain ⟨target, ⟨n, array⟩ | pointer, rfl, known⟩ | ⟨todo, rfl⟩ := (silent_elementType u).mp run
  · rw [array] at resolved
    obtain todo | array' := resolved.eq_or_todo rfl
    · exact ⟨.todo, unknown todo, .todo _⟩
    · exact ⟨_, (silent_elementType uncapped).mpr (.inl ⟨target, .inl ⟨n, array'⟩, rfl, known⟩),
        .refl _⟩
  · rw [pointer] at resolved
    obtain ⟨target', pointer', less⟩ | todo := resolved.pointer_or_todo
    · have below := less.resolve s.resolver
      exact ⟨_, (silent_elementType uncapped).mpr
        (.inl ⟨target', .inr pointer', rfl, below.known known⟩), below⟩
    · exact ⟨.todo, unknown todo, .todo _⟩
  · rw [todo] at resolved
    exact ⟨.todo, unknown resolved.eq_todo, .refl _⟩

theorem indexType (base : a'.Below a) (index : b'.Below b)
    (run : Runs imp (indexType a b token) s ty s) :
    ∃ ty', Runs imp (Check.indexType a' b' token') t ty' t ∧ ty'.Below ty := by
  obtain ⟨numeric, element⟩ := (silent_indexType u).mp run
  obtain ⟨ty', element', less⟩ := h.elementType u base element
  refine ⟨ty', (silent_indexType (h.uncapped u)).mpr ⟨?_, element'⟩, less⟩
  rw [h.resolver]
  exact (index.resolve s.resolver).or_todo (fun _ _ => rfl) numeric

theorem calleeSignature {callee callee' : Expr} {sig? : Option Signature}
    (less : callee'.ty.Below callee.ty) (run : Runs imp (calleeSignature callee token) s sig? s) :
    Runs imp (Check.calleeSignature callee' token') t sig? t ∨
      Runs imp (Check.calleeSignature callee' token') t none t := by
  have uncapped := h.uncapped u
  obtain ⟨vars, functions, _, rfl⟩ := h
  have resolved := less.resolve s.resolver
  obtain ⟨sig, function, rfl⟩ | ⟨todo, rfl⟩ := (silent_calleeSignature u).mp run
  · rw [function] at resolved
    obtain todo | function' := resolved.eq_or_todo rfl
    · exact .inr ((silent_calleeSignature uncapped).mpr (.inr ⟨todo, rfl⟩))
    · exact .inl ((silent_calleeSignature uncapped).mpr (.inl ⟨sig, function', rfl⟩))
  · rw [todo] at resolved
    exact .inr ((silent_calleeSignature uncapped).mpr (.inr ⟨resolved.eq_todo, rfl⟩))

theorem moduleMember {m : Module} {member member' : Expr} (named : member'.name? = member.name?)
    (run : Runs imp (moduleMember m member token) s r s) :
    ∃ right, Runs imp (Check.moduleMember m member' token') t (right, r.2) t := by
  have uncapped := h.uncapped u
  obtain ⟨vars, functions, _, rfl⟩ := h
  obtain ⟨name, ty, hn, bound, rfl⟩ := (silent_moduleMember u).mp run
  exact ⟨_, (silent_moduleMember uncapped).mpr ⟨name, ty, named.trans hn, bound, rfl⟩⟩

theorem accessedType (less : a'.Below a) (run : Runs imp (accessedType a token) s ty s) :
    ∃ ty', Runs imp (Check.accessedType a' token') t ty' t ∧ ty'.Below ty := by
  have uncapped := h.uncapped u
  obtain ⟨vars, functions, _, rfl⟩ := h
  have resolved := less.resolve s.resolver
  have unknown (todo : s.resolver.resolve a' = .todo) :
      Runs imp (Check.accessedType a' token') (s.vary vars functions es) .todo
        (s.vary vars functions es) := by
    refine (silent_accessedType uncapped).mpr (.inr ?_)
    have todo : (s.vary vars functions es).resolver.resolve a' = .todo := todo
    rw [todo]
    exact ⟨rfl, rfl⟩
  obtain ⟨target, pointer, rfl, known⟩ | ⟨notPointer, rfl⟩ := (silent_accessedType u).mp run
  · rw [pointer] at resolved
    obtain ⟨target', pointer', less⟩ | todo := resolved.pointer_or_todo
    · have below := less.resolve s.resolver
      exact ⟨_, (silent_accessedType uncapped).mpr
        (.inl ⟨target', pointer', rfl, below.known known⟩), below⟩
    · exact ⟨.todo, unknown todo, .todo _⟩
  · obtain todo | same := resolved.eq_or_todo notPointer
    · exact ⟨.todo, unknown todo, .todo _⟩
    · refine ⟨_, (silent_accessedType uncapped).mpr (.inr ⟨?_, rfl⟩), resolved⟩
      rw [← notPointer, ← same]
      rfl

theorem recordField {field field' : Expr} (less : a'.Below a) (named : field'.name? = field.name?)
    (run : Runs imp (recordField a field token) s r s) :
    ∃ r', Runs imp (Check.recordField a' field' token') t r' t ∧ r'.2.Below r.2 := by
  have uncapped := h.uncapped u
  obtain ⟨vars, functions, _, rfl⟩ := h
  have unknown : Runs imp (Check.recordField .todo field' token') (s.vary vars functions es)
      (field', .todo) (s.vary vars functions es) :=
    (silent_recordField uncapped).mpr (.inr ⟨rfl, rfl⟩)
  obtain ⟨decl, name, f, rfl, hn, declared, known, rfl⟩ | ⟨rfl, rfl⟩ :=
    (silent_recordField u).mp run
  · obtain rfl | rfl := less.eq_or_todo rfl
    · exact ⟨_, unknown, .todo _⟩
    · exact ⟨_, (silent_recordField uncapped).mpr
        (.inl ⟨decl, name, f, rfl, named.trans hn, declared, known, rfl⟩), .refl _⟩
  · obtain rfl := less.eq_todo
    exact ⟨_, unknown, .refl _⟩

theorem fieldAccess {field field' : Expr} (less : a'.Below a) (named : field'.name? = field.name?)
    (run : Runs imp (fieldAccess a field token) s r s) :
    ∃ r', Runs imp (Check.fieldAccess a' field' token') t r' t ∧ r'.2.Below r.2 := by
  obtain ⟨ty, accessed, taken⟩ := silent_fieldAccess.mp run
  obtain ⟨ty', accessed', below⟩ := h.accessedType u less accessed
  obtain ⟨r', taken', result⟩ := h.recordField u below named taken
  exact ⟨r', silent_fieldAccess.mpr ⟨ty', accessed', taken'⟩, result⟩

theorem resolveAll (run : Runs imp (resolveAll a token) s ty s) :
    Runs imp (Check.resolveAll a token') t ty t := by
  rw [silent_resolveAll (h.uncapped u).room, h.resolver]
  exact (silent_resolveAll u.room).mp run

theorem resolveTypeArgs {ts us : List Ty} (run : Runs imp (resolveTypeArgs token ts) s us s) :
    Runs imp (Check.resolveTypeArgs token' ts) t us t := by
  rw [silent_resolveTypeArgs (h.uncapped u).room, h.resolver]
  exact (silent_resolveTypeArgs u.room).mp run

theorem builtin? {args : Nat} {b? : Option Builtin}
    (run : Runs imp (builtin? name args token) s b? s) :
    Runs imp (Check.builtin? name args token') t b? t :=
  (silent_builtin? (h.uncapped u).room).mpr ((silent_builtin? u.room).mp run)

theorem literalRecord {module? : Option String} {r : String × Option Record}
    (run : Runs imp (literalRecord name module? token) s r s) :
    Runs imp (Check.literalRecord name module? token') t r t := by
  have uncapped := h.uncapped u
  obtain ⟨vars, functions, _, rfl⟩ := h
  obtain ⟨decl, named, struct, found⟩ := (silent_literalRecord u).mp run
  refine (silent_literalRecord uncapped).mpr ⟨decl, ?_, struct, found⟩
  cases module? <;> exact named

theorem checkInLoop {keyword : String} (run : Runs imp (checkInLoop keyword token) s () s) :
    Runs imp (Check.checkInLoop keyword token') t () t := by
  have uncapped := h.uncapped u
  obtain ⟨vars, functions, _, rfl⟩ := h
  exact (silent_checkInLoop uncapped.room).mpr ((silent_checkInLoop u.room).mp run)

theorem checkField {decl : Record} {value value' : Expr} (less : value'.ty.Below value.ty)
    (run : Runs imp (checkField decl name value) s () s) :
    Runs imp (Check.checkField decl name value') t () t := by
  obtain ⟨f, declared, equal⟩ := (silent_checkField u).mp run
  refine (silent_checkField (h.uncapped u)).mpr ⟨f, declared, ?_⟩
  rw [h.resolver]
  exact (Ty.Below.refl f.ty).equals s.resolver less equal

theorem castType {target : Ty} (less : a'.Below a)
    (run : Runs imp (castType target a token) s ty s) :
    Runs imp (Check.castType target a' token') t ty t := by
  obtain ⟨rfl, castable⟩ := (silent_castType u).mp run
  have resolved := less.resolve s.resolver
  refine (silent_castType (h.uncapped u)).mpr ⟨rfl, ?_⟩
  rw [h.resolver]
  have source (ok : ((s.resolver.resolve a).isTodo || isCastable (s.resolver.resolve a)) = true) :
      (s.resolver.resolve a').isTodo = true ∨ isCastable (s.resolver.resolve a') = true :=
    (Bool.or_eq_true _ _).mp (resolved.or_todo (fun _ _ => rfl) ok)
  obtain todo | todo | ⟨ok, ok'⟩ | equal := castable
  · exact .inl (resolved.stays_todo todo)
  · exact .inr (.inl todo)
  · obtain todo | ok := source (by simp [ok])
    · exact .inl todo
    · exact .inr (.inr (.inl ⟨ok, ok'⟩))
  · exact .inr (.inr (.inr (resolved.equals s.resolver (.refl _) equal)))

theorem expectInteger (less : a'.Below a) (run : Runs imp (expectInteger a token) s () s) :
    Runs imp (Check.expectInteger a' token') t () t := by
  rw [silent_expectInteger (h.uncapped u), h.resolver]
  exact (less.resolve s.resolver).or_todo (fun _ _ => rfl) ((silent_expectInteger u).mp run)

theorem expectPointer (less : a'.Below a) (run : Runs imp (expectPointer a token) s () s) :
    Runs imp (Check.expectPointer a' token') t () t := by
  rw [silent_expectPointer (h.uncapped u), h.resolver]
  exact (less.resolve s.resolver).or_todo (fun _ _ => rfl) ((silent_expectPointer u).mp run)

theorem checkCondition (less : a'.Below a) (run : Runs imp (checkCondition a token) s () s) :
    Runs imp (Check.checkCondition a' token') t () t := by
  rw [silent_checkCondition (h.uncapped u), h.resolver]
  exact (less.resolve s.resolver).or_todo (fun _ _ => rfl) ((silent_checkCondition u).mp run)

theorem writtenType? {written : Ty} {written? : Option Ty}
    (run : Runs imp (writtenType? written token) s written? s) :
    Runs imp (Check.writtenType? written token') t written? t := by
  rw [silent_writtenType? (h.uncapped u), h.resolver]
  exact (silent_writtenType? u).mp run

omit u in
theorem fits {a a' : Ty} (less : a'.Below a) {written? : Option Ty}
    (ok : s.Fits a written?) : t.Fits a' written? := by
  cases written? with
  | none =>
    rw [Fits, h.resolver]
    exact (less.resolve s.resolver).known ok
  | some ty =>
    rw [Fits, h.resolver]
    exact (Ty.Below.refl ty).equals s.resolver less ok

omit u in
theorem declaredAs {a a' : Ty} (less : a'.Below a) (written? : Option Ty) :
    (t.declaredAs written? a').Below (s.declaredAs written? a) := by
  cases written? with
  | none =>
    rw [CheckState.declaredAs, h.resolver]
    exact less.resolve s.resolver
  | some ty => exact .refl ty

theorem declaredType {written a a' ty : Ty} (less : a'.Below a)
    (run : Runs imp (declaredType written a token) s ty s) :
    ∃ ty', Runs imp (Check.declaredType written a' token') t ty' t ∧ ty'.Below ty := by
  obtain ⟨written?, known, ok, rfl⟩ := (silent_declaredType u).mp run
  exact ⟨_, (silent_declaredType (h.uncapped u)).mpr
    ⟨written?, h.writtenType? u known, h.fits less ok, rfl⟩, h.declaredAs less written?⟩

theorem declaredAll {names : List String} {written : Ty}
    {values values' : List Ty} {r : Ty × List Ty} (less : List.Forall₂ Ty.Below values' values)
    (run : Runs imp (declaredAll token names written values) s r s) :
    ∃ types, Runs imp (Check.declaredAll token' names written values') t (r.1, types) t ∧
      List.Forall₂ Ty.Below types r.2 := by
  obtain ⟨count, written?, known, ok, rfl⟩ := (silent_declaredAll u).mp run
  refine ⟨values'.map (t.declaredAs written?), (silent_declaredAll (h.uncapped u)).mpr
    ⟨less.length_eq.trans count, written?, h.writtenType? u known, ?_, rfl⟩, ?_⟩
  · exact Ty.forall_mem_of_below less (fun below => h.fits below) ok
  · rw [List.forall₂_map_left_iff, List.forall₂_map_right_iff]
    exact less.imp fun _ _ below => h.declaredAs below written?

theorem checkAssignment {targets values targets' values' : List Ty}
    (left : List.Forall₂ Ty.Below targets' targets) (right : List.Forall₂ Ty.Below values' values)
    (run : Runs imp (checkAssignment token targets values) s () s) :
    Runs imp (Check.checkAssignment token' targets' values') t () t := by
  rw [silent_checkAssignment (h.uncapped u), h.resolver]
  exact Ty.equalAll_of_below s.resolver left right ((silent_checkAssignment u).mp run)

omit u

theorem checkReturn {s' : CheckState} {a a' : Ty} (less : a'.Below a)
    (run : Runs imp (checkReturn token a) s () s') (q : s'.Quiet) :
    ∃ t', Runs imp (Check.checkReturn token' a') t () t' ∧ Behind es t' s' := by
  obtain ⟨_, rfl⟩ | ⟨expected, s₁, inside, fits, rfl⟩ := runs_checkReturn.mp run
  · exact absurd q (not_quiet_note _ _)
  have q₁ : s₁.Quiet := ⟨q.uncapped, q.errors⟩
  obtain rfl := notes_expectEqual.quiet fits q₁
  have fits' : Runs imp (Check.expectEqual expected a' token') t () t :=
    h.expectEqual q₁.uncapped (.refl expected) less fits
  refine ⟨{ t with returns := true }, runs_checkReturn.mpr (.inr ⟨expected, t, ?_, fits', rfl⟩),
    h.setReturns true⟩
  obtain ⟨_, _, _, rfl⟩ := h
  exact inside

theorem leaveFunction {t' s' : CheckState} {es' : List Diagnostic} (around : Behind es' t' s')
    {sig : Signature} {name : String} (q : (s.leaveFunction s' sig name token).Quiet) :
    Behind es (t.leaveFunction t' sig name token') (s.leaveFunction s' sig name token) := by
  obtain ⟨ok, left⟩ := clear_leaveFunction q.clear
  rw [left]
  obtain ⟨vars, functions, below, rfl⟩ := h
  obtain ⟨vars', functions', below', rfl⟩ := around
  have ok : (s.vary vars functions es).returns = true ∨
      sig.result.equals (s.vary vars functions es).resolver .void = true := ok
  refine ⟨vars', functions, below', ?_⟩
  unfold CheckState.leaveFunction
  rw [noteUnless, if_pos ok]
  rfl

theorem stores_eq (owner : String) (ty : Ty) : t.stores owner ty = s.stores owner ty := by
  obtain ⟨vars, functions, _, rfl⟩ := h
  have declared : (s.vary vars functions es).declared = s.declared := by
    unfold CheckState.declared
    rw [Environment.declared_eq, Environment.declared_eq]
    rfl
  unfold CheckState.stores
  rw [declared]
  rfl

theorem storable {owner : String} {ty : Ty} (ok : s.Storable owner ty) : t.Storable owner ty := by
  have stores := h.stores_eq owner
  obtain ⟨vars, functions, _, rfl⟩ := h
  induction ty using Ty.nested with
  | array ty n ih =>
    simp only [Storable] at ok ⊢
    exact ih ok
  | named ref =>
    simp only [Storable, stores] at ok ⊢
    exact ok
  | record decl =>
    simp only [Storable, stores] at ok ⊢
    exact ok
  | _ => simp only [Storable]

theorem fieldType (ty : Ty) : t.context.fieldType ty = s.context.fieldType ty := by
  obtain ⟨vars, functions, _, rfl⟩ := h
  induction ty using Ty.nested with
  | array ty n ih => simp only [Context.fieldType, ih]
  | named ref =>
    simp only [Context.fieldType]
    rfl
  | _ => simp only [Context.fieldType]

theorem recordDecl {s' : CheckState} {decl decl' : Record}
    (run : Runs imp (recordDecl token decl) s decl' s') (q : s'.Quiet) :
    ∃ t', Runs imp (Check.recordDecl token' decl) t decl' t' ∧ Behind es t' s' := by
  obtain ⟨distinct, storable, rfl, rfl⟩ := clear_recordDecl run q.clear
  have q₁ := (grows_define _ _ _).quiet q
  have first := h.define decl.name (.record decl)
  have fields : (s.define decl.name (.record decl)).context.fieldTypes decl =
      (t.define decl.name (.record decl)).context.fieldTypes decl := by
    simp only [Context.fieldTypes, first.fieldType]
  refine ⟨_, ?_, first.define decl.name _⟩
  rw [fields]
  exact runs_recordDecl.mpr ⟨_, _, (silent_resolveFields (first.uncapped q₁.uncapped).room).mpr
    ⟨rfl, distinct, by simp, fun f hf => first.storable (storable f hf)⟩, .inr ⟨_, rfl, rfl, rfl⟩⟩

theorem imports {name : String} {typeArgs : List Ty} {path : String}
    {s' : CheckState} (imported : Imports imp token name typeArgs path s s') (q : s'.Quiet) :
    ∃ t', Imports imp token' name typeArgs path t t' ∧ Behind es t' s' := by
  obtain ⟨session, source, unit, session', begins, text, checked, rfl⟩ :=
    clear_imports imported q.clear
  obtain ⟨vars, functions, below, rfl⟩ := h
  exact ⟨_, .loaded begins text checked, vars, functions, below, rfl⟩

end Behind

end CheckState

end FrontEnd
