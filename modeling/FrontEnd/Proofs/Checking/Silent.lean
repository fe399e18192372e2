import FrontEnd.Proofs.Checking.Frame

namespace FrontEnd

/-- What the types depend on in a state. -/
def CheckState.context (s : CheckState) : Context :=
  ⟨s.env, s.session.registry, s.expected, s.loopDepth, s.barrier⟩

@[simp]
theorem CheckState.context_env (s : CheckState) : s.context.env = s.env :=
  rfl

@[simp]
theorem CheckState.context_barrier (s : CheckState) : s.context.barrier = s.barrier :=
  rfl

@[simp]
theorem CheckState.context_resolver (s : CheckState) : s.context.resolver = s.resolver :=
  rfl

@[simp]
theorem CheckState.context_resolve (s : CheckState) (t : Ty) :
    s.context.resolve t = s.resolver.resolve t :=
  rfl

def CheckState.declaredAs (s : CheckState) (written? : Option Ty) (value : Ty) : Ty :=
  written?.getD (s.resolver.resolve value)

/-- A value fits the type that is declared for it; without one, what it stores is known. -/
def CheckState.Fits (s : CheckState) (value : Ty) : Option Ty → Prop
  | some ty => ty.equals s.resolver value = true
  | none => (s.resolver.resolve value).Known

/-- A field of `owner` may have the type: what is stored in it is known, and holds no value of the
owner. -/
def CheckState.Storable (s : CheckState) (owner : String) : Ty → Prop
  | .array t _ => s.Storable owner t
  | .named ref =>
    ¬ (ref.modules = [] ∧ ref.name = owner) ∧ (s.resolver.resolve (.named ref)).ref? = none ∧
      s.stores owner (s.resolver.resolve (.named ref)) = false
  | .record decl => s.stores owner (.record decl) = false
  | _ => True

def Builtin.Takes (b : Builtin) (args : Nat) : Prop :=
  ∀ n, b.params = some n → args = n

namespace Check

open CheckState

variable {α β : Type} {imp : Importer} {s : CheckState} {token : Token}
variable {e : CheckError} {b : β} {t ty operand object written : Ty} {name owner : String}
  {r : Expr × Ty} {written? : Option Ty} {values : List Ty}

theorem not_note_eq (h : s.Room) (d : Diagnostic) : ¬ s = s.note d := by
  rw [note_of_room h]
  simp

theorem not_silent_error (h : s.Room) {u : Unit} : ¬ Runs imp (error e token) s u s := by
  rw [runs_error]
  exact not_note_eq h _

theorem Notes.silent_bind {m : Check α} {f : α → Check β} (hm : Notes m) (hf : ∀ a, Notes (f a)) :
    Runs imp (m >>= f) s b s ↔ ∃ a, Runs imp m s a s ∧ Runs imp (f a) s b s := by
  constructor
  · intro h
    obtain ⟨a, s₁, first, second⟩ := runs_bind.mp h
    obtain ⟨ds, rfl⟩ := hm.state first
    obtain ⟨es, he⟩ := (hf a).state second
    obtain rfl : ds = [] := by
      rw [notes_notes, self_eq_notes] at he
      exact (List.append_eq_nil_iff.mp he).1
    rw [notes_nil] at first second
    exact ⟨a, first, second⟩
  · rintro ⟨a, first, second⟩
    exact first.bind second

theorem Notes.silent_map {m : Check α} {f : α → β} (hm : Notes m) :
    Runs imp (m >>= fun a => pure (f a)) s b s ↔
      ∃ a, Runs imp m s a s ∧ Runs imp (pure (f a)) s b s :=
  hm.silent_bind fun _ => notes_pure

theorem silent_error_bind (h : s.Room) {f : Unit → Check β} (hf : ∀ u, Notes (f u)) :
    ¬ Runs imp (error e token >>= f) s b s := by
  rw [notes_error.silent_bind hf]
  rintro ⟨_, first, _⟩
  exact not_silent_error h first

theorem silent_failed (h : s.Room) {a : β} : ¬ Runs imp (do error e token; return a) s b s :=
  silent_error_bind h fun _ => notes_pure

theorem silent_expectEqual (h : s.Uncapped) {a b : Ty} :
    Runs imp (expectEqual a b token) s () s ↔ a.equals s.resolver b = true := by
  unfold expectEqual
  rw [runs_equals_bind]
  cases a.equals s.resolver b with
  | true => simp
  | false => simp [mismatch, not_note_eq h.room]

theorem silent_resolveAll (h : s.Room) :
    Runs imp (resolveAll t token) s ty s ↔ ty = s.resolver.resolve t ∧ ty.firstRef? = none := by
  unfold resolveAll
  rw [runs_resolve_bind]
  split
  case h_1 ref unknown =>
    refine iff_of_false (silent_failed h) ?_
    rintro ⟨rfl, known⟩
    simp [unknown] at known
  case h_2 known =>
    simp only [runs_pure, and_true]
    exact ⟨fun ht => ⟨ht, ht ▸ known⟩, And.left⟩

theorem silent_builtin? (h : s.Room) {args : Nat} {b? : Option Builtin} :
    Runs imp (builtin? name args token) s b? s ↔
      ∃ b, Builtin.ofName? name = some b ∧ b.Takes args ∧ b? = some b := by
  unfold builtin?
  cases Builtin.ofName? name with
  | none => exact iff_of_false (silent_failed h) (by simp)
  | some b =>
    dsimp only
    cases hp : b.params with
    | none => simp [Builtin.Takes, hp]
    | some n =>
      by_cases same : n = args
      · simp [Builtin.Takes, hp, same]
      · simp only [if_neg same]
        refine iff_of_false (silent_failed h) ?_
        rintro ⟨_, ⟨rfl⟩, takes, _⟩
        exact same (takes n hp).symm

theorem not_quiet_builtin? {args : Nat} {s' : CheckState}
    (unknown : Runs imp (builtin? name args token) s none s') : ¬ s'.Quiet := by
  intro q
  obtain rfl := notes_builtin?.quiet unknown q
  obtain ⟨_, _, _, found⟩ := (silent_builtin? q.uncapped.room).mp unknown
  cases found

theorem silent_resolveTypeArgs (h : s.Room) {ts us : List Ty} :
    Runs imp (resolveTypeArgs token ts) s us s ↔
      us = ts.map s.resolver.resolve ∧ ∀ u ∈ us, u.firstRef? = none := by
  induction ts generalizing us with
  | nil =>
    simp only [resolveTypeArgs, runs_pure, and_true, List.map_nil]
    exact ⟨fun hu => ⟨hu, by simp [hu]⟩, And.left⟩
  | cons t ts ih =>
    unfold resolveTypeArgs
    rw [notes_resolveAll.silent_bind fun _ => (notes_resolveTypeArgs ts).map]
    constructor
    · rintro ⟨u, first, rest⟩
      obtain ⟨us', more, result⟩ :=
        ((notes_resolveTypeArgs ts).silent_map).mp rest
      obtain ⟨rfl, known⟩ := (silent_resolveAll h).mp first
      obtain ⟨rfl, all⟩ := ih.mp more
      obtain rfl := (runs_pure.mp result).1
      exact ⟨rfl, by simpa using ⟨known, by simpa using all⟩⟩
    · rintro ⟨rfl, all⟩
      have split := List.forall_mem_cons.mp all
      exact ⟨_, (silent_resolveAll h).mpr ⟨rfl, split.1⟩, (ih.mpr ⟨rfl, split.2⟩).bind .ret⟩

section Uncapped

variable (h : s.Uncapped)
include h

theorem silent_resolveValue :
    Runs imp (resolveValue t token) s ty s ↔ ty = s.resolver.resolve t ∧ ty.Known := by
  unfold resolveValue
  rw [runs_resolve_bind]
  split
  case h_1 ref unknown =>
    refine iff_of_false (silent_failed h.room) ?_
    rintro ⟨rfl, known⟩
    exact known ref unknown
  case h_2 known =>
    simp only [runs_pure, and_true]
    exact ⟨fun ht => ⟨ht, fun ref href => known ref (ht ▸ href)⟩, And.left⟩

theorem silent_expectNumeric {b : Bool} :
    Runs imp (expectNumeric t token) s b s ↔ b = true ∧ (t.isTodo || t.isNumeric) = true := by
  unfold expectNumeric
  split
  case isTrue ok => simp [ok]
  case isFalse no =>
    exact iff_of_false (silent_failed h.room) fun ok => no ok.2

omit h in
theorem runs_isCaptured (name : String) :
    Runs imp (isCaptured name) s (s.context.captures name) s := by
  unfold isCaptured Context.captures
  rw [context_barrier, context_env]
  refine Runs.get.bind ?_
  cases s.barrier <;> cases s.env.vars.depthOf? name <;> exact .ret

theorem silent_identType :
    Runs imp (identType name token) s ty s ↔
      ∃ t, s.env.vars.get? name = some t ∧ s.context.captures name = false ∧
        ty = s.resolver.resolve t ∧ ty.Known := by
  unfold identType
  rw [runs_get_bind]
  split
  case h_1 t bound =>
    rw [(runs_isCaptured name).bind_iff, bound]
    cases s.context.captures name with
    | true => exact iff_of_false (silent_failed h.room) (by simp)
    | false => simp [silent_resolveValue h]
  case h_2 unbound =>
    refine iff_of_false ?_ (by simp [unbound])
    split <;> exact silent_failed h.room

theorem silent_binaryType {op : InfixOp} {left right : Ty} :
    Runs imp (binaryType op left right token) s ty s ↔
      ((s.resolver.resolve left).isTodo || (s.resolver.resolve left).isNumeric) = true ∧
      ((s.resolver.resolve right).isTodo || (s.resolver.resolve right).isNumeric) = true ∧
      (s.resolver.resolve left).equals s.resolver (s.resolver.resolve right) = true ∧
      ty = if op.isComparison then .bool
        else if (s.resolver.resolve left).isTodo then s.resolver.resolve right
        else s.resolver.resolve left := by
  unfold binaryType
  rw [runs_resolve_bind, runs_resolve_bind,
    notes_expectNumeric.silent_bind fun _ => notes_expectNumeric.bind fun _ =>
      Notes.ite notes_expectEqual.map notes_pure]
  constructor
  · rintro ⟨_, first, rest⟩
    obtain ⟨rfl, left⟩ := (silent_expectNumeric h).mp first
    obtain ⟨_, second, rest⟩ := (notes_expectNumeric.silent_bind fun _ =>
      Notes.ite notes_expectEqual.map notes_pure).mp rest
    obtain ⟨rfl, right⟩ := (silent_expectNumeric h).mp second
    obtain ⟨_, same, result⟩ := (notes_expectEqual.silent_map).mp rest
    exact ⟨left, right, (silent_expectEqual h).mp same, (runs_pure.mp result).1⟩
  · rintro ⟨left, right, same, rfl⟩
    exact ⟨true, (silent_expectNumeric h).mpr ⟨rfl, left⟩,
      ((silent_expectNumeric h).mpr ⟨rfl, right⟩).bind
        (((silent_expectEqual h).mpr same).bind .ret)⟩

theorem silent_unaryType_numeric {op : PrefixOp} (hop : op = .not ∨ op = .negate ∨ op = .identity) :
    Runs imp (unaryType op operand token) s ty s ↔
      ty = s.resolver.resolve operand ∧
        ((s.resolver.resolve operand).isTodo || (s.resolver.resolve operand).isNumeric) = true := by
  have numeric : Runs imp (do
        let _ ← expectNumeric (s.resolver.resolve operand) token
        return s.resolver.resolve operand) s ty s ↔
      ty = s.resolver.resolve operand ∧
        ((s.resolver.resolve operand).isTodo || (s.resolver.resolve operand).isNumeric) = true := by
    rw [notes_expectNumeric.silent_map]
    simp [silent_expectNumeric h, and_comm]
  unfold unaryType
  rw [runs_resolve_bind]
  obtain rfl | rfl | rfl := hop <;> exact numeric

omit h in
theorem silent_unaryType_reference :
    Runs imp (unaryType .reference operand token) s ty s ↔
      ty = .pointer (s.resolver.resolve operand) := by
  unfold unaryType
  rw [runs_resolve_bind]
  simp

theorem silent_unaryType_dereference :
    Runs imp (unaryType .dereference operand token) s ty s ↔
      (∃ target, s.resolver.resolve operand = .pointer target ∧
        ty = s.resolver.resolve target ∧ ty.Known) ∨
      s.resolver.resolve operand = .todo ∧ ty = .todo := by
  unfold unaryType
  rw [runs_resolve_bind]
  cases s.resolver.resolve operand with
  | pointer target => simp [silent_resolveValue h]
  | todo => simp
  | _ => exact iff_of_false (silent_failed h.room) (by simp)

theorem silent_elementType {base : Ty} :
    Runs imp (elementType base token) s ty s ↔
      (∃ element, ((∃ n, s.resolver.resolve base = .array element n) ∨
          s.resolver.resolve base = .pointer element) ∧
        ty = s.resolver.resolve element ∧ ty.Known) ∨
      s.resolver.resolve base = .todo ∧ ty = .todo := by
  unfold elementType
  rw [runs_resolve_bind]
  cases s.resolver.resolve base with
  | pointer target => simp [silent_resolveValue h]
  | array element n => simp [silent_resolveValue h]
  | todo => simp
  | _ => exact iff_of_false (silent_failed h.room) (by simp)

theorem silent_indexType {base index : Ty} :
    Runs imp (indexType base index token) s ty s ↔
      ((s.resolver.resolve index).isTodo || (s.resolver.resolve index).isNumeric) = true ∧
        Runs imp (elementType base token) s ty s := by
  unfold indexType
  rw [runs_resolve_bind, notes_expectNumeric.silent_bind fun _ => notes_elementType]
  simp [silent_expectNumeric h]

theorem silent_calleeSignature {callee : Expr} {sig? : Option Signature} :
    Runs imp (calleeSignature callee token) s sig? s ↔
      (∃ sig, s.resolver.resolve callee.ty = .func sig ∧ sig? = some sig) ∨
      s.resolver.resolve callee.ty = .todo ∧ sig? = none := by
  unfold calleeSignature
  rw [runs_resolve_bind]
  cases s.resolver.resolve callee.ty with
  | func sig => simp
  | todo => simp
  | _ => exact iff_of_false (silent_failed h.room) (by simp)

theorem silent_moduleMember {m : Module} {member : Expr} :
    Runs imp (moduleMember m member token) s r s ↔
      ∃ name t, member.name? = some name ∧
        m.unit.env.vars.get? (Name.requalify name m.unit.env.id) = some t ∧
        r = (⟨.ident (Name.requalify name m.unit.env.id), s.resolver.resolve t, member.token⟩,
          s.resolver.resolve t) := by
  unfold moduleMember
  cases member.name? with
  | none => exact iff_of_false (silent_failed h.room) (by simp)
  | some name =>
    cases ht : m.unit.env.vars.get? (Name.requalify name m.unit.env.id) with
    | none =>
      simp only [Option.map_some, Option.bind_some, ht]
      exact iff_of_false (silent_failed h.room) (by simp [ht])
    | some t =>
      simp only [Option.map_some, Option.bind_some, ht]
      rw [runs_resolve_bind]
      simp [ht]

theorem silent_accessedType :
    Runs imp (accessedType object token) s ty s ↔
      (∃ target, s.resolver.resolve object = .pointer target ∧
        ty = s.resolver.resolve target ∧ ty.Known) ∨
      (s.resolver.resolve object).isPointer = false ∧ ty = s.resolver.resolve object := by
  unfold accessedType
  rw [runs_resolve_bind]
  cases s.resolver.resolve object with
  | pointer target => simp [silent_resolveValue h, Ty.isPointer]
  | _ => simp [Ty.isPointer]

theorem silent_recordField {field : Expr} :
    Runs imp (recordField object field token) s r s ↔
      (∃ decl name f, object = .record decl ∧ field.name? = some name ∧
        decl.field? (Name.bare name) = some f ∧ (s.resolver.resolve f.ty).Known ∧
        r = ({ field with ty := s.resolver.resolve f.ty }, s.resolver.resolve f.ty)) ∨
      object = .todo ∧ r = (field, .todo) := by
  unfold recordField
  cases object with
  | record decl =>
    cases hn : field.name? with
    | none => exact iff_of_false (silent_failed h.room) (by simp)
    | some name =>
      dsimp only [Option.map_some]
      cases hf : decl.field? (Name.bare name) with
      | none => exact iff_of_false (silent_failed h.room) (by simp [hf])
      | some f =>
        simp only [notes_resolveValue.silent_map, silent_resolveValue h,
          runs_pure, and_true]
        constructor
        · rintro ⟨_, ⟨rfl, known⟩, rfl⟩
          exact .inl ⟨decl, name, f, rfl, rfl, hf, known, rfl⟩
        · rintro (⟨_, _, g, ⟨rfl⟩, ⟨rfl⟩, hg, known, rfl⟩ | ⟨⟨⟩, _⟩)
          obtain rfl : f = g := Option.some.inj (hf.symm.trans hg)
          exact ⟨_, ⟨rfl, known⟩, rfl⟩
  | todo => simp
  | _ => exact iff_of_false (silent_failed h.room) (by simp)

omit h in
theorem silent_fieldAccess {field : Expr} :
    Runs imp (fieldAccess object field token) s r s ↔
      ∃ ty, Runs imp (accessedType object token) s ty s ∧
        Runs imp (recordField ty field token) s r s :=
  notes_accessedType.silent_bind fun _ => notes_recordField

theorem silent_structOf {ty? : Option Ty} {decl? : Option Record} :
    Runs imp (structOf name ty? token) s decl? s ↔
      ∃ decl, ty? = some (.record decl) ∧ decl.kind = .struct ∧ decl? = some decl := by
  unfold structOf
  split
  case h_1 n fields id => simp
  case h_2 other =>
    have notes : Notes (notStruct name ty? token) := by
      unfold notStruct
      split <;> exact notes_error
    have reports : ∀ u, ¬ Runs imp (notStruct name ty? token) s u s := by
      intro u
      unfold notStruct
      split <;> exact not_silent_error h.room
    constructor
    · intro run
      obtain ⟨u, first, _⟩ := (notes.silent_map).mp run
      exact absurd first (reports u)
    · rintro ⟨⟨kind, n, fields, id⟩, rfl, rfl, rfl⟩
      exact absurd rfl (other n fields id)

theorem silent_literalRecord {module? : Option String} {r : String × Option Record} :
    Runs imp (literalRecord name module? token) s r s ↔
      ∃ decl, s.context.structNamed? name module? = some (r.1, .record decl) ∧ decl.kind = .struct ∧
        r.2 = some decl := by
  obtain ⟨name', decl?⟩ := r
  unfold literalRecord
  cases module? with
  | none =>
    rw [runs_resolve_bind, notes_structOf.silent_map]
    simp only [silent_structOf h, runs_pure, Context.structNamed?, context_resolve]
    constructor
    · rintro ⟨_, ⟨decl, hd, hk, rfl⟩, hr, _⟩
      cases hr
      exact ⟨decl, by rw [Option.some.inj hd], hk, rfl⟩
    · rintro ⟨decl, hd, hk, rfl⟩
      obtain ⟨rfl, hr⟩ := Prod.mk.inj (Option.some.inj hd)
      exact ⟨some decl, ⟨decl, congrArg some hr, hk, rfl⟩, rfl, trivial⟩
  | some module =>
    rw [runs_get_bind]
    cases hm : s.env.module? module with
    | none =>
      refine iff_of_false (silent_failed h.room) ?_
      simp [Context.structNamed?, context_env, hm]
    | some m =>
      dsimp only
      rw [notes_structOf.silent_map]
      simp only [silent_structOf h, runs_pure, Context.structNamed?, context_env, hm,
        Option.bind_some]
      constructor
      · rintro ⟨_, ⟨decl, hd, hk, rfl⟩, hr, _⟩
        cases hr
        exact ⟨decl, by rw [hd]; rfl, hk, rfl⟩
      · rintro ⟨decl, hd, hk, rfl⟩
        obtain ⟨ty, ht, hp⟩ := Option.map_eq_some_iff.mp hd
        obtain ⟨rfl, rfl⟩ := Prod.mk.inj hp
        exact ⟨some decl, ⟨decl, ht, hk, rfl⟩, rfl, trivial⟩

omit h in
theorem not_quiet_literalRecord {module? : Option String} {name' : String} {s' : CheckState}
    (unknown : Runs imp (literalRecord name module? token) s (name', none) s') : ¬ s'.Quiet := by
  intro q
  obtain rfl := notes_literalRecord.quiet unknown q
  obtain ⟨_, _, _, found⟩ := (silent_literalRecord q.uncapped).mp unknown
  cases found

theorem silent_checkField {decl : Record} {value : Expr} :
    Runs imp (checkField decl name value) s () s ↔
      ∃ f, decl.field? name = some f ∧ f.ty.equals s.resolver value.ty = true := by
  unfold checkField
  cases decl.field? name with
  | none => exact iff_of_false (not_silent_error h.room) (by simp)
  | some f => simp [silent_expectEqual h]

theorem silent_castType {target source : Ty} :
    Runs imp (castType target source token) s ty s ↔
      ty = target ∧ ((s.resolver.resolve source).isTodo = true ∨ target.isTodo = true ∨
        (isCastable (s.resolver.resolve source) = true ∧ isCastable target = true) ∨
        (s.resolver.resolve source).equals s.resolver target = true) := by
  unfold castType
  rw [runs_resolve_bind]
  split
  case isTrue todo =>
    have ok := (Bool.or_eq_true _ _).mp todo
    simp only [runs_pure, and_true]
    exact ⟨fun ht => ⟨ht, ok.imp_right .inl⟩, And.left⟩
  case isFalse noTodo =>
    obtain ⟨noSource, noTarget⟩ := not_or.mp (mt (Bool.or_eq_true _ _).mpr noTodo)
    rw [runs_equals_bind]
    split
    case isTrue ok =>
      have ok := ((Bool.or_eq_true _ _).mp ok).imp_left (Bool.and_eq_true _ _).mp
      simp only [runs_pure, and_true]
      exact ⟨fun ht => ⟨ht, .inr (.inr ok)⟩, And.left⟩
    case isFalse no =>
      refine iff_of_false (silent_failed h.room) ?_
      rintro ⟨_, bad | bad | ok⟩
      · exact noSource bad
      · exact noTarget bad
      · exact no ((Bool.or_eq_true _ _).mpr (ok.imp_left (Bool.and_eq_true _ _).mpr))

theorem silent_expectInteger :
    Runs imp (expectInteger t token) s () s ↔
      ((s.resolver.resolve t).isTodo || (s.resolver.resolve t).isInteger) = true := by
  unfold expectInteger
  rw [runs_resolve_bind]
  cases (s.resolver.resolve t).isTodo || (s.resolver.resolve t).isInteger with
  | true => simp
  | false => simp [not_note_eq h.room]

theorem silent_expectPointer :
    Runs imp (expectPointer t token) s () s ↔
      ((s.resolver.resolve t).isTodo || (s.resolver.resolve t).isPointer) = true := by
  unfold expectPointer
  rw [runs_resolve_bind]
  cases (s.resolver.resolve t).isTodo || (s.resolver.resolve t).isPointer with
  | true => simp
  | false => simp [not_note_eq h.room]

theorem silent_checkCondition :
    Runs imp (checkCondition t token) s () s ↔
      ((s.resolver.resolve t).isTodo || (s.resolver.resolve t).isNumeric) = true := by
  unfold checkCondition
  rw [runs_resolve_bind]
  cases (s.resolver.resolve t).isTodo || (s.resolver.resolve t).isNumeric with
  | true => simp
  | false => simp [mismatch, not_note_eq h.room]

theorem silent_writtenType? :
    Runs imp (writtenType? written token) s written? s ↔
      written.isTodo = true ∧ written? = none ∨
      written.isTodo = false ∧ written? = some (s.resolver.resolve written) ∧
        (s.resolver.resolve written).firstRef? = none := by
  unfold writtenType?
  cases written.isTodo with
  | true => simp
  | false =>
    simp only [Bool.false_eq_true, if_false, notes_resolveAll.silent_map,
      silent_resolveAll h.room, runs_pure, false_and, false_or, true_and]
    constructor
    · rintro ⟨_, ⟨rfl, known⟩, rfl, _⟩
      exact ⟨rfl, known⟩
    · rintro ⟨rfl, known⟩
      exact ⟨_, ⟨rfl, known⟩, rfl, trivial⟩

theorem silent_typeFor {value : Ty} :
    Runs imp (typeFor written? value token) s ty s ↔
      s.Fits value written? ∧ ty = s.declaredAs written? value := by
  unfold typeFor
  cases written? with
  | none =>
    rw [silent_resolveValue h]
    simp only [Fits, declaredAs, Option.getD_none]
    exact ⟨fun ⟨ht, known⟩ => ⟨ht ▸ known, ht⟩, fun ⟨known, ht⟩ => ⟨ht, ht ▸ known⟩⟩
  | some written =>
    rw [notes_expectEqual.silent_map]
    simp [silent_expectEqual h, Fits, declaredAs]

theorem silent_declaredType {value : Ty} :
    Runs imp (declaredType written value token) s ty s ↔
      ∃ written?, Runs imp (writtenType? written token) s written? s ∧ s.Fits value written? ∧
        ty = s.declaredAs written? value := by
  unfold declaredType
  rw [notes_writtenType?.silent_bind fun _ => notes_typeFor]
  simp only [silent_typeFor h]

theorem silent_declaredTypes {names : List String} {types : List Ty}
    (hl : values.length = names.length) :
    Runs imp (declaredTypes written? token names values) s types s ↔
      (∀ v ∈ values, s.Fits v written?) ∧ types = values.map (s.declaredAs written?) := by
  induction names generalizing values types with
  | nil =>
    obtain rfl := List.length_eq_zero_iff.mp hl
    simp [declaredTypes]
  | cons name names ih =>
    obtain _ | ⟨value, values⟩ := values
    · simp at hl
    have ih := fun types => @ih values types (by simpa using hl)
    unfold declaredTypes
    rw [List.headD_cons, List.tail_cons, notes_typeFor.silent_bind fun _ =>
      (notes_declaredTypes names values).map]
    simp only [(notes_declaredTypes names values).silent_map,
      silent_typeFor h, ih, runs_pure, List.forall_mem_cons, List.map_cons]
    constructor
    · rintro ⟨_, ⟨first, rfl⟩, _, ⟨rest, rfl⟩, rfl, _⟩
      exact ⟨⟨first, rest⟩, rfl⟩
    · rintro ⟨⟨first, rest⟩, rfl⟩
      exact ⟨_, ⟨first, rfl⟩, _, ⟨rest, rfl⟩, rfl, trivial⟩

theorem silent_declaredAll {names : List String} {r : Ty × List Ty} :
    Runs imp (declaredAll token names written values) s r s ↔
      values.length = names.length ∧
      ∃ written?, Runs imp (writtenType? written token) s written? s ∧
        (∀ v ∈ values, s.Fits v written?) ∧
        r = (written?.getD written, values.map (s.declaredAs written?)) := by
  have rest : Notes (do
      let written? ← writtenType? written token
      let types ← declaredTypes written? token names values
      return (written?.getD written, types)) :=
    notes_writtenType?.bind fun _ => (notes_declaredTypes names values).map
  unfold declaredAll
  split
  case isTrue other =>
    exact iff_of_false (silent_error_bind h.room fun _ => rest) fun same => other same.1
  case isFalse same =>
    have hl : values.length = names.length := by simpa using same
    rw [notes_writtenType?.silent_bind fun _ =>
      (notes_declaredTypes names values).map]
    simp only [(notes_declaredTypes names values).silent_map,
      silent_declaredTypes h hl, runs_pure]
    constructor
    · rintro ⟨written?, hw, _, ⟨fits, rfl⟩, rfl, _⟩
      exact ⟨hl, written?, hw, fits, rfl⟩
    · rintro ⟨_, written?, hw, fits, rfl⟩
      exact ⟨written?, hw, _, ⟨fits, rfl⟩, rfl, trivial⟩

theorem silent_expectEqualAll {targets : List Ty} (hl : targets.length = values.length) :
    Runs imp (expectEqualAll token targets values) s () s ↔
      List.Forall₂ (fun target value => target.equals s.resolver value = true) targets values := by
  induction targets generalizing values with
  | nil =>
    obtain rfl := List.length_eq_zero_iff.mp hl.symm
    simp [expectEqualAll]
  | cons target targets ih =>
    obtain _ | ⟨value, values⟩ := values
    · simp at hl
    unfold expectEqualAll
    rw [notes_expectEqual.silent_bind fun _ => notes_expectEqualAll targets values,
      List.forall₂_cons, ← ih (by simpa using hl), ← silent_expectEqual h]
    exact ⟨fun ⟨_, first, rest⟩ => ⟨first, rest⟩, fun ⟨first, rest⟩ => ⟨(), first, rest⟩⟩

theorem silent_checkAssignment {targets : List Ty} :
    Runs imp (checkAssignment token targets values) s () s ↔
      List.Forall₂ (fun target value => target.equals s.resolver value = true) targets values := by
  unfold checkAssignment
  split
  case isTrue other =>
    exact iff_of_false (not_silent_error h.room) fun all => other all.length_eq
  case isFalse same => exact silent_expectEqualAll h (by simpa using same)

theorem silent_checkAssembly {code : Expr} :
    Runs imp (checkAssembly code token) s () s ↔ ∃ value, code.node = .string value := by
  unfold checkAssembly
  split
  case h_1 value hv => simp [hv]
  case h_2 other => exact iff_of_false (not_silent_error h.room) fun ⟨value, hv⟩ => other value hv

end Uncapped

theorem silent_checkInLoop (h : s.Room) {keyword : String} :
    Runs imp (checkInLoop keyword token) s () s ↔ s.loopDepth ≠ 0 := by
  unfold checkInLoop
  rw [runs_get_bind]
  by_cases hl : s.loopDepth = 0
  · simp [hl, not_note_eq h]
  · simp [hl]

theorem silent_checkContainment (h : s.Room) {t? : Option Ty} :
    Runs imp (checkContainment owner t token) s t? s ↔ t? = some t ∧ s.stores owner t = false := by
  unfold checkContainment
  rw [runs_get_bind]
  cases s.stores owner t with
  | true => exact iff_of_false (silent_failed h) (by simp)
  | false => simp

theorem silent_resolveField (h : s.Room) {t? : Option Ty} :
    Runs imp (resolveField owner token t) s t? s ↔
      t? = some (s.context.fieldType t) ∧ s.Storable owner t := by
  induction t using Ty.nested generalizing t? with
  | array t n ih =>
    simp only [resolveField, (notes_resolveField t).silent_map, ih, runs_pure,
      Context.fieldType, Storable]
    constructor
    · rintro ⟨_, ⟨rfl, ok⟩, rfl, _⟩
      exact ⟨rfl, ok⟩
    · rintro ⟨rfl, ok⟩
      exact ⟨_, ⟨rfl, ok⟩, rfl, trivial⟩
  | named ref =>
    simp only [resolveField, Context.fieldType, context_resolve, Storable]
    by_cases own : ref.modules = [] ∧ ref.name = owner
    · rw [if_pos own]
      exact iff_of_false (silent_failed h) fun ok => ok.2.1 own
    · rw [if_neg own, runs_resolve_bind]
      split
      case h_1 ref' unknown =>
        refine iff_of_false (silent_failed h) fun ok => ?_
        simp [unknown, Ty.ref?] at ok
      case h_2 known =>
        rw [silent_checkContainment h]
        have noRef : (s.resolver.resolve (.named ref)).ref? = none := by
          cases hr : s.resolver.resolve (.named ref) with
          | named ref' => exact absurd hr (known ref')
          | _ => rfl
        exact ⟨fun ok => ⟨ok.1, own, noRef, ok.2⟩, fun ok => ⟨ok.1, ok.2.2.2⟩⟩
  | record decl => exact silent_checkContainment h
  | _ => simp [resolveField, Context.fieldType, Storable]

theorem silent_resolveFields (h : s.Room) {seen : List String} {fields : List Field}
    {fields? : Option (List Field)} :
    Runs imp (resolveFields owner token seen fields) s fields? s ↔
      fields? = some (fields.map fun f => ⟨f.name, s.context.fieldType f.ty⟩) ∧
        (fields.map (·.name)).Nodup ∧ (∀ f ∈ fields, f.name ∉ seen) ∧
        ∀ f ∈ fields, s.Storable owner f.ty := by
  induction fields generalizing seen fields? with
  | nil => simp [resolveFields]
  | cons f fields ih =>
    have notes (ty? : Option Ty) :
        Notes (consField f (resolveFields owner token (f.name :: seen) fields) ty?) := by
      cases ty? with
      | none => exact notes_pure
      | some ty => exact (notes_resolveFields _ fields).map
    rw [resolveFields_cons]
    split
    case isTrue twice =>
      refine iff_of_false
        (silent_error_bind h fun _ => (notes_resolveField f.ty).bind notes) fun ok => ?_
      exact ok.2.2.1 f List.mem_cons_self (by simpa using twice)
    case isFalse once =>
      refine ((notes_resolveField f.ty).silent_bind notes).trans ?_
      constructor
      · rintro ⟨ty?, first, rest⟩
        obtain ⟨rfl, storable⟩ := (silent_resolveField h).mp first
        obtain ⟨fields', more, result⟩ :=
          ((notes_resolveFields _ fields).silent_map).mp rest
        obtain ⟨rfl, distinct, fresh, all⟩ := ih.mp more
        obtain rfl := (runs_pure.mp result).1
        refine ⟨rfl, ?_, ?_, List.forall_mem_cons.mpr ⟨storable, all⟩⟩
        · refine List.nodup_cons.mpr ⟨fun again => ?_, distinct⟩
          obtain ⟨g, hg, hn⟩ := List.mem_map.mp again
          exact fresh g hg (hn ▸ List.mem_cons_self)
        · refine List.forall_mem_cons.mpr ⟨by simpa using once, fun g hg seen => ?_⟩
          exact fresh g hg (List.mem_cons_of_mem _ seen)
      · rintro ⟨rfl, distinct, fresh, all⟩
        obtain ⟨new, distinct⟩ := List.nodup_cons.mp distinct
        obtain ⟨storable, all⟩ := List.forall_mem_cons.mp all
        refine ⟨_, (silent_resolveField h).mpr ⟨rfl, storable⟩, ?_⟩
        refine (ih.mpr ⟨rfl, distinct, fun g hg => ?_, all⟩).bind .ret
        rw [List.mem_cons, not_or]
        exact ⟨fun hn => new (List.mem_map.mpr ⟨g, hg, hn⟩),
          fresh g (List.mem_cons_of_mem _ hg)⟩

/-- A record that is declared without an error has fields of different names, in which what is
stored is known. -/
theorem clear_recordDecl {decl decl' : Record} {s' : CheckState}
    (h : Runs imp (recordDecl token decl) s decl' s') (c : s'.Clear) :
    (decl.fields.map (·.name)).Nodup ∧
      (∀ f ∈ decl.fields, (s.define decl.name (.record decl)).Storable decl.name f.ty) ∧
      decl' = (s.define decl.name (.record decl)).context.fieldTypes decl ∧
      s' = (s.define decl.name (.record decl)).define decl.name (.record decl') := by
  obtain ⟨fields?, s₁, resolved, h'⟩ := runs_recordDecl.mp h
  have c₁ : s₁.Clear := by
    obtain ⟨_, _, rfl⟩ | ⟨_, _, _, rfl⟩ := h'
    · exact c
    · exact (grows_define s₁ _ _).clear c
  obtain rfl := (notes_resolveFields [] _).clear resolved c₁
  obtain ⟨rfl, distinct, _, storable⟩ := (silent_resolveFields c₁.room).mp resolved
  obtain ⟨⟨⟩, _⟩ | ⟨_, ⟨rfl⟩, rfl, rfl⟩ := h'
  exact ⟨distinct, storable, rfl, rfl⟩

end Check

end FrontEnd
