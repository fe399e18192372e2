import FrontEnd.Proofs.Checking.Plan
import FrontEnd.Proofs.Sources.Steps

namespace FrontEnd.Sources

open Check CheckState

variable {S : Sources}
variable {e : Expr} {name : String}

theorem Has.withType (he : S.Has e.labels) {ty : Ty} (ht : ty.Of S.record) :
    S.Has ({ e with ty } : Expr).labels := by
  obtain ⟨node, _, _⟩ := e
  rw [Expr.labels, has_token, has_inferred] at he ⊢
  exact ⟨he.1, ht, he.2.2⟩

theorem Has.ty (he : S.Has e.labels) : e.ty.Of S.record := by
  obtain ⟨node, _, _⟩ := e
  rw [Expr.labels, has_token, has_inferred] at he
  exact he.2.1

theorem Has.token (he : S.Has e.labels) : S.place e.token.start := by
  obtain ⟨node, _, _⟩ := e
  rw [Expr.labels, has_token] at he
  exact he.1

theorem Has.node (he : S.Has e.labels) : S.Has e.node.labels := by
  obtain ⟨node, _, _⟩ := e
  rw [Expr.labels, has_token, has_inferred] at he
  exact he.2.2

theorem has_labelsOf {es : List Expr} : S.Has (Expr.labelsOf es) ↔ ∀ e ∈ es, S.Has e.labels := by
  induction es with
  | nil => simp [Expr.labelsOf]
  | cons e es ih => simp [Expr.labelsOf, ih]

theorem Has.valueTypes (he : S.Has e.labels) : ∀ t ∈ e.valueTypes, t.Of S.record := by
  have inside := he.node
  have own := he.ty
  obtain ⟨node, _, _⟩ := e
  cases node with
  | comma items =>
    intro t ht
    obtain ⟨item, mem, rfl⟩ := List.mem_map.mp ht
    exact (has_labelsOf.mp inside item mem).ty
  | _ => simpa [Expr.valueTypes] using own

theorem does_isCaptured : S.Does (isCaptured name) fun _ => True := by
  refine does_get.bind fun s _ => ?_
  cases s.barrier <;> cases s.env.vars.depthOf? name <;> exact does_pure trivial

theorem does_moduleOf? : S.Does (Check.moduleOf? e) fun m? => ∀ m, m? = some m → S.Unit m.unit where
  run {imp s m? s'} known ran := by
    obtain ⟨rfl, rfl⟩ := runs_moduleOf?.mp ran
    refine ⟨fun m found => ?_, .refl known⟩
    unfold CheckState.moduleOf? at found
    split at found
    · split at found
      · cases found
      · exact known.env.module? found
    · cases found

theorem of_field? {decl : Record} (h : (Ty.record decl).Of S.record) {f : Field}
    (found : decl.field? name = some f) : f.ty.Of S.record :=
  (Ty.of_record.mp h).2 f (List.mem_of_find?_eq_some found)

theorem does_checkField {decl : Record} {value : Expr} (he : S.Has value.labels) :
    S.Does (checkField decl name value) fun _ => True := by
  unfold checkField
  split
  · exact does_expectEqual he.token
  · exact does_error he.token

section Placed

variable {token : Token} (placed : S.place token.start)

include placed

variable {t object written : Ty} {name owner : String} {values : List Ty}

theorem does_failed {α : Type} {Q : α → Prop} {e : CheckError} {a : α} (h : Q a) :
    S.Does (do error e token; return a) Q :=
  (does_error placed).bind fun _ _ => does_pure h

theorem does_expectNumeric : S.Does (expectNumeric t token) fun _ => True :=
  .ite (does_pure trivial) (does_failed placed trivial)

theorem does_identType : S.Does (identType name token) (Ty.Of S.record) := by
  refine does_get.bind fun s known => ?_
  cases bound : s.env.vars.get? name with
  | none => exact .ite (does_error_todo placed) (does_error_todo placed)
  | some ty =>
    exact does_isCaptured.bind fun _ _ =>
      .ite (does_error_todo placed) (does_resolveValue (known.env.vars.get? bound) placed)

theorem does_binaryType {op : InfixOp} {left right : Ty} (hl : left.Of S.record)
    (hr : right.Of S.record) : S.Does (binaryType op left right token) (Ty.Of S.record) := by
  refine (does_resolve hl).bind fun left hl => (does_resolve hr).bind fun right hr =>
    (does_expectNumeric placed).bind fun _ _ => (does_expectNumeric placed).bind fun _ _ => ?_
  have given : Ty.Of S.record
      (if op.isComparison then .bool else if left.isTodo then right else left) := by
    split
    · exact Ty.of_bool
    · split
      · exact hr
      · exact hl
  exact .ite ((does_expectEqual placed).bind fun _ _ => does_pure given) (does_pure given)

theorem does_unaryType {op : PrefixOp} {operand : Ty} (ht : operand.Of S.record) :
    S.Does (unaryType op operand token) (Ty.Of S.record) := by
  refine (does_resolve ht).bind fun operand ht => ?_
  cases op with
  | not | negate | identity => exact (does_expectNumeric placed).bind fun _ _ => does_pure ht
  | reference => exact does_pure ht
  | dereference =>
    cases operand with
    | pointer target => exact does_resolveValue ht placed
    | todo => exact does_pure Ty.of_todo
    | _ => exact does_error_todo placed

theorem does_elementType {base : Ty} (ht : base.Of S.record) :
    S.Does (elementType base token) (Ty.Of S.record) := by
  refine (does_resolve ht).bind fun base ht => ?_
  cases base with
  | array element length => exact does_resolveValue ht placed
  | pointer target => exact does_resolveValue ht placed
  | todo => exact does_pure Ty.of_todo
  | _ => exact does_error_todo placed

theorem does_indexType {base index : Ty} (hb : base.Of S.record) (hi : index.Of S.record) :
    S.Does (indexType base index token) (Ty.Of S.record) :=
  (does_resolve hi).bind fun _ _ => (does_expectNumeric placed).bind fun _ _ =>
    does_elementType placed hb

theorem does_calleeSignature {callee : Expr} (ht : callee.ty.Of S.record) :
    S.Does (calleeSignature callee token) fun sig? =>
      ∀ sig, sig? = some sig → (Ty.func sig).Of S.record := by
  refine (does_resolve ht).bind fun t ht => ?_
  cases t with
  | func sig => exact does_pure fun _ same => Option.some.inj same ▸ ht
  | todo => exact does_pure nofun
  | _ => exact does_failed placed nofun

theorem does_moduleMember {m : Module} {member : Expr} (hm : S.Unit m.unit)
    (he : S.Has member.labels) :
    S.Does (moduleMember m member token) fun r => S.Has r.1.labels ∧ r.2.Of S.record := by
  unfold moduleMember
  extract_lets qualified? ty?
  have known : ∀ t, ty? = some t → t.Of S.record := by
    intro t found
    obtain ⟨name, _, bound⟩ := Option.bind_eq_some_iff.mp found
    exact hm.env.vars.get? bound
  clear_value qualified? ty?
  cases qualified? with
  | none => exact does_failed placed ⟨he, Ty.of_todo⟩
  | some qualified =>
    cases ty? with
    | none => exact does_failed placed ⟨he, Ty.of_todo⟩
    | some ty =>
      refine (does_resolve (known ty rfl)).bind fun ty ht => does_pure ⟨?_, ht⟩
      simp [Expr.labels, Node.labels, he.token, ht]

theorem does_accessedType (ht : object.Of S.record) :
    S.Does (accessedType object token) (Ty.Of S.record) := by
  refine (does_resolve ht).bind fun t ht => ?_
  cases t with
  | pointer target => exact does_resolveValue ht placed
  | _ => exact does_pure ht

theorem does_recordField {field : Expr} (ht : object.Of S.record) (he : S.Has field.labels) :
    S.Does (recordField object field token) fun r => S.Has r.1.labels ∧ r.2.Of S.record := by
  cases object with
  | record decl =>
    unfold recordField
    dsimp only
    split
    · exact does_failed placed ⟨he, Ty.of_todo⟩
    · split
      case h_1 f found =>
        exact (does_resolveValue (of_field? ht found) placed).bind fun ty ht =>
          does_pure ⟨he.withType ht, ht⟩
      case h_2 => exact does_failed placed ⟨he, Ty.of_todo⟩
  | todo => exact does_pure ⟨he, Ty.of_todo⟩
  | _ => exact does_failed placed ⟨he, Ty.of_todo⟩

theorem does_fieldAccess {field : Expr} (ht : object.Of S.record) (he : S.Has field.labels) :
    S.Does (fieldAccess object field token) fun r => S.Has r.1.labels ∧ r.2.Of S.record :=
  (does_accessedType placed ht).bind fun _ ht => does_recordField placed ht he

theorem does_notStruct {ty? : Option Ty} : S.Does (notStruct name ty? token) fun _ => True := by
  unfold notStruct
  split <;> exact does_error placed

theorem does_structOf {ty? : Option Ty} (ht : ∀ t, ty? = some t → t.Of S.record) :
    S.Does (structOf name ty? token) fun decl? =>
      ∀ decl, decl? = some decl → (Ty.record decl).Of S.record := by
  unfold structOf
  split
  · exact does_pure fun _ same => Option.some.inj same ▸ ht _ rfl
  · exact (does_notStruct placed).bind fun _ _ => does_pure nofun

theorem does_literalRecord {module? : Option String} :
    S.Does (literalRecord name module? token) fun r =>
      ∀ decl, r.2 = some decl → (Ty.record decl).Of S.record := by
  cases module? with
  | none =>
    refine (does_resolve Ty.of_named).bind fun t ht => ?_
    exact (does_structOf placed (fun _ same => Option.some.inj same ▸ ht)).bind fun _ h =>
      does_pure h
  | some module =>
    refine does_get.bind fun s known => ?_
    cases found : s.env.module? module with
    | none => exact does_failed placed nofun
    | some m =>
      have types := (known.env.module? found).env.types
      exact (does_structOf placed (fun _ declared => types.get? declared)).bind fun _ h =>
        does_pure h

theorem does_castType {target source : Ty} (ht : target.Of S.record) (hs : source.Of S.record) :
    S.Does (castType target source token) (Ty.Of S.record) := by
  refine (does_resolve hs).bind fun source _ => .ite (does_pure ht) ?_
  exact does_equals.bind fun _ _ => .ite (does_pure ht) (does_error_todo placed)

theorem does_expectInteger (ht : t.Of S.record) : S.Does (expectInteger t token) fun _ => True :=
  (does_resolve ht).bind fun _ _ => .ite (does_error placed) (does_pure trivial)

theorem does_expectPointer (ht : t.Of S.record) : S.Does (expectPointer t token) fun _ => True :=
  (does_resolve ht).bind fun _ _ => .ite (does_error placed) (does_pure trivial)

theorem does_builtin? {args : Nat} : S.Does (builtin? name args token) fun _ => True := by
  unfold builtin?
  split
  · exact does_failed placed trivial
  · split
    · exact .ite (does_pure trivial) (does_failed placed trivial)
    · exact does_pure trivial

theorem does_resolveTypeArgs {ts : List Ty} (ht : ∀ t ∈ ts, t.Of S.record) :
    S.Does (resolveTypeArgs token ts) fun us => ∀ t ∈ us, t.Of S.record := by
  induction ts with
  | nil => exact does_pure nofun
  | cons t ts ih =>
    rw [List.forall_mem_cons] at ht
    exact (does_resolveAll ht.1 placed).bind fun _ first => (ih ht.2).bind fun _ rest =>
      does_pure (List.forall_mem_cons.mpr ⟨first, rest⟩)

theorem does_checkCondition (ht : t.Of S.record) : S.Does (checkCondition t token) fun _ => True :=
  (does_resolve ht).bind fun _ _ => .ite (does_error placed) (does_pure trivial)

theorem does_writtenType? (ht : written.Of S.record) :
    S.Does (writtenType? written token) fun t? => ∀ t, t? = some t → t.Of S.record :=
  .ite (does_pure nofun) ((does_resolveAll ht placed).bind fun _ ht =>
    does_pure fun _ same => Option.some.inj same ▸ ht)

theorem does_typeFor {written? : Option Ty} {value : Ty}
    (hw : ∀ t, written? = some t → t.Of S.record) (ht : value.Of S.record) :
    S.Does (typeFor written? value token) (Ty.Of S.record) := by
  cases written? with
  | some ty => exact (does_expectEqual placed).bind fun _ _ => does_pure (hw ty rfl)
  | none => exact does_resolveValue ht placed

theorem does_declaredType {value : Ty} (hw : written.Of S.record) (ht : value.Of S.record) :
    S.Does (declaredType written value token) (Ty.Of S.record) :=
  (does_writtenType? placed hw).bind fun _ hw => does_typeFor placed hw ht

theorem does_declaredTypes {written? : Option Ty} (hw : ∀ t, written? = some t → t.Of S.record)
    (names : List String) (ht : ∀ t ∈ values, t.Of S.record) :
    S.Does (declaredTypes written? token names values) fun ts => ∀ t ∈ ts, t.Of S.record := by
  induction names generalizing values with
  | nil => exact does_pure nofun
  | cons name names ih =>
    have first : (values.headD .todo).Of S.record := by
      cases values with
      | nil => exact Ty.of_todo
      | cons value values => exact ht value List.mem_cons_self
    refine (does_typeFor placed hw first).bind fun _ first => ?_
    exact (ih fun t mem => ht t (List.mem_of_mem_tail mem)).bind fun _ rest =>
      does_pure (List.forall_mem_cons.mpr ⟨first, rest⟩)

theorem does_declaredAll {names : List String} (hw : written.Of S.record)
    (ht : ∀ t ∈ values, t.Of S.record) :
    S.Does (declaredAll token names written values) fun r =>
      r.1.Of S.record ∧ ∀ t ∈ r.2, t.Of S.record := by
  have rest : S.Does (do
      let written? ← writtenType? written token
      let types ← declaredTypes written? token names values
      return (written?.getD written, types)) fun r =>
        r.1.Of S.record ∧ ∀ t ∈ r.2, t.Of S.record := by
    refine (does_writtenType? placed hw).bind fun written? hw' =>
      (does_declaredTypes placed hw' names ht).bind fun types hts => does_pure ⟨?_, hts⟩
    cases written? with
    | none => exact hw
    | some t => exact hw' t rfl
  exact .ite ((does_error placed).bind fun _ _ => rest) rest

theorem does_expectEqualAll (targets values : List Ty) :
    S.Does (expectEqualAll token targets values) fun _ => True := by
  induction targets generalizing values with
  | nil => exact does_pure trivial
  | cons target targets ih =>
    cases values with
    | nil => exact does_pure trivial
    | cons value values => exact (does_expectEqual placed).bind fun _ _ => ih values

theorem does_checkAssignment {targets : List Ty} :
    S.Does (checkAssignment token targets values) fun _ => True :=
  .ite (does_error placed) (does_expectEqualAll placed targets values)

theorem does_checkReturn {got : Ty} : S.Does (checkReturn token got) fun _ => True := by
  refine does_get.bind fun s _ => ?_
  cases s.expected with
  | none => exact does_error placed
  | some expected => exact (does_expectEqual placed).bind fun _ _ => does_setReturns

theorem does_checkAssembly {code : Expr} : S.Does (checkAssembly code token) fun _ => True := by
  unfold checkAssembly
  split
  · exact does_pure trivial
  · exact does_error placed

-- Declarations of records.

theorem does_checkContainment (ht : t.Of S.record) :
    S.Does (checkContainment owner t token) fun u? => ∀ u, u? = some u → u.Of S.record :=
  does_get.bind fun _ _ => .ite (does_failed placed nofun)
    (does_pure fun _ same => Option.some.inj same ▸ ht)

theorem does_resolveField :
    ∀ t : Ty, t.Of S.record →
      S.Does (resolveField owner token t) fun u? => ∀ u, u? = some u → u.Of S.record
  | .array t n, ht => by
    refine (does_resolveField t ht).bind fun u? hu => does_pure fun u same => ?_
    obtain ⟨v, found, rfl⟩ := Option.map_eq_some_iff.mp same
    exact hu v found
  | .named ref, ht => by
    refine .ite (does_failed placed nofun) ?_
    refine (does_resolve ht).bind fun u hu => ?_
    cases u with
    | named ref' =>
      exact does_failed placed fun _ same =>
        Option.some.inj same ▸ Ty.of_todo
    | _ => exact does_checkContainment placed hu
  | .record decl, ht => does_checkContainment placed ht
  | .void, ht | .int _, ht | .uint _, ht | .float _, ht | .pointer _, ht | .func _, ht
  | .module _, ht | .todo, ht => does_pure fun _ same => Option.some.inj same ▸ ht

theorem does_resolveFields (seen : List String) {fs : List Field}
    (ht : ∀ f ∈ fs, f.ty.Of S.record) :
    S.Does (resolveFields owner token seen fs) fun fs? => ∀ fs', fs? = some fs' →
      fs'.map Field.name = fs.map Field.name ∧ ∀ f ∈ fs', f.ty.Of S.record := by
  induction fs generalizing seen with
  | nil => exact does_pure (by simp)
  | cons f fs ih =>
    rw [List.forall_mem_cons] at ht
    have rest : S.Does (resolveFrom owner token seen f fs) fun fs? => ∀ fs', fs? = some fs' →
          fs'.map Field.name = (f :: fs).map Field.name ∧ ∀ f ∈ fs', f.ty.Of S.record := by
      refine (does_resolveField placed f.ty ht.1).bind fun ty? hty => ?_
      cases ty? with
      | none => exact does_pure (by simp)
      | some ty =>
        refine (ih (f.name :: seen) ht.2).bind fun fs? hfs => does_pure fun fs' same => ?_
        obtain ⟨more, found, rfl⟩ := Option.map_eq_some_iff.mp same
        obtain ⟨names, types⟩ := hfs more found
        exact ⟨by simp [names], List.forall_mem_cons.mpr ⟨hty ty rfl, types⟩⟩
    exact .ite ((does_error placed).bind fun _ _ => rest) rest

/-- A record is entered under its own name, first as it is written and then with its fields
resolved. -/
theorem does_recordDecl {decl : Record} (ht : (Ty.record decl).Of S.record)
    (key : S.key decl.name) :
    S.Does (recordDecl token decl) fun decl' => (Ty.record decl').Of S.record := by
  refine (does_defineType ht key).bind fun _ _ => ?_
  refine (does_resolveFields placed [] (Ty.of_record.mp ht).2).bind fun fs? hfs => ?_
  cases fs? with
  | none => exact does_pure ht
  | some fs =>
    obtain ⟨names, types⟩ := hfs fs rfl
    have resolved : (Ty.record { decl with fields := fs }).Of S.record :=
      Ty.of_record.mpr ⟨S.fields (Ty.of_record.mp ht).1 names, types⟩
    exact (does_defineType resolved key).bind fun _ _ => does_pure resolved

end Placed

-- Imports.

theorem does_reportAll {ds : List Diagnostic} (placed : ∀ d ∈ ds, S.place d.position) :
    S.Does (reportAll ds) fun _ => True := by
  induction ds with
  | nil => exact does_pure trivial
  | cons d ds ih =>
    rw [List.forall_mem_cons] at placed
    exact (does_report placed.1).bind fun _ _ => ih placed.2

theorem does_begins {file : Path} : S.Does (begins file) fun _ => True where
  run {imp s a s'} known ran := by
    simp only [begins, runs_get_bind] at ran
    split at ran
    case h_1 =>
      obtain ⟨-, rfl⟩ := runs_pure.mp ran
      exact ⟨trivial, .refl known⟩
    case h_2 session begun =>
      simp only [runs_bind, runs_modify, runs_pure] at ran
      obtain ⟨_, _, rfl, -, rfl⟩ := ran
      obtain rfl := Session.begin?_eq_some begun
      exact ⟨trivial, ⟨known.env, known.registry, known.expected, known.errors⟩, rfl,
        fun _ changed => absurd rfl changed⟩

theorem does_finishes {file : Path} : S.Does (finishes file) fun _ => True :=
  does_modify fun _ known =>
    ⟨⟨known.env, known.registry, known.expected, known.errors⟩, rfl, fun _ changed =>
      absurd rfl changed⟩

end FrontEnd.Sources
