import FrontEnd.Proofs.Lockstep.Steps

namespace FrontEnd

namespace Renaming

variable (ρ : Renaming)

theorem name?_expr (e : Expr) : (ρ.map.tree.expr e).name? = e.name?.map ρ.name :=
  ρ.map.tree.name?_expr e

theorem ty_expr (e : Expr) : (ρ.map.tree.expr e).ty = ρ.type e.ty :=
  ρ.map.tree.ty_expr e

theorem token_expr (e : Expr) : (ρ.map.tree.expr e).token = e.token :=
  ρ.map.tree.token_expr e

theorem expr_withType (e : Expr) (ty : Ty) :
    ρ.map.tree.expr { e with ty := ty } = { ρ.map.tree.expr e with ty := ρ.type ty } := by
  obtain ⟨node, _, _⟩ := e
  cases node <;> rfl

theorem valueTypes_expr (e : Expr) : (ρ.map.tree.expr e).valueTypes = e.valueTypes.map ρ.type := by
  obtain ⟨node, ty, token⟩ := e
  cases node with
  | comma items =>
    simp [Relabelling.expr, Expr.valueTypes, ρ.map.tree.exprs_eq_map, Function.comp_def, ρ.ty_expr]
  | _ => rfl

theorem isCastable_type (t : Ty) : Check.isCastable (ρ.type t) = Check.isCastable t := by
  simp [Check.isCastable]

end Renaming

namespace Comparison

open Check CheckState

variable {C : Comparison} {imp imp' : Importer} {s t : CheckState} {token : Token}
variable {u object written : Ty} {name owner : String} {values : List Ty}

theorem follows_expectNumeric :
    C.Follows imp imp' s t id (expectNumeric u token) (expectNumeric (C.names.type u) token) := by
  unfold expectNumeric
  rw [C.names.isTodo_type, C.names.isNumeric_type, C.names.text_type]
  exact .ite (fun _ => follows_pure rfl) fun _ => follows_failed rfl rfl

theorem follows_isCaptured :
    C.Follows imp imp' s t id (isCaptured name) (isCaptured (C.names.name name)) := by
  refine follows_get fun h => ?_
  rw [h.barrier, h.env, C.names.environment_vars, Scopes.depthOf?_map C.names.name_injective]
  cases s.barrier with
  | none => exact follows_pure rfl
  | some barrier => cases s.env.vars.depthOf? name <;> exact follows_pure rfl

theorem follows_identType :
    C.Follows imp imp' s t C.names.type (identType name token)
      (identType (C.names.name name) token) := by
  refine follows_get fun h => ?_
  rw [h.env, C.names.environment_vars, Scopes.get?_map C.names.name_injective,
    C.names.module?_environment, C.names.bare_name]
  cases s.env.vars.get? name with
  | none =>
    dsimp only [Option.map_none]
    rw [Option.isSome_map]
    exact .ite (fun _ => follows_failed rfl rfl) fun _ => follows_failed rfl rfl
  | some ty =>
    exact follows_isCaptured.then <|
      .ite (fun _ => follows_failed rfl rfl) fun _ => follows_resolveValue

theorem follows_binaryType {op : InfixOp} {left right : Ty} :
    C.Follows imp imp' s t C.names.type (binaryType op left right token)
      (binaryType op (C.names.type left) (C.names.type right) token) := by
  refine follows_resolve.bind fun left _ _ => follows_resolve.bind fun right _ _ =>
    follows_expectNumeric.then <| follows_expectNumeric.bind fun _ s t => ?_
  have result :
      C.names.type (if op.isComparison then .bool else if left.isTodo then right else left) =
      if op.isComparison then .bool
        else if (C.names.type left).isTodo then C.names.type right else C.names.type left := by
    rw [C.names.isTodo_type]
    split
    · rfl
    · split <;> rfl
  exact .ite (fun _ => follows_expectEqual.then <| follows_pure result)
    fun _ => follows_pure result

theorem follows_unaryType {op : PrefixOp} {operand : Ty} :
    C.Follows imp imp' s t C.names.type (unaryType op operand token)
      (unaryType op (C.names.type operand) token) := by
  refine follows_resolve.bind fun operand s t => ?_
  cases op with
  | not | negate | identity =>
    exact follows_expectNumeric.map rfl
  | reference => exact follows_pure rfl
  | dereference =>
    match operand with
    | .pointer target => exact follows_resolveValue
    | .todo => exact follows_pure rfl
    | .record ⟨_, _, _, _⟩ | .func ⟨_, _, _, _⟩ | .void | .int _ | .uint _ | .float _ | .array _ _
    | .named _ | .module _ =>
      exact follows_failed (congrArg CheckError.expectedPointer (C.names.text_type _)) rfl

theorem follows_elementType {base : Ty} :
    C.Follows imp imp' s t C.names.type (elementType base token)
      (elementType (C.names.type base) token) := by
  refine follows_resolve.bind fun base s t => ?_
  match base with
  | .array element _ => exact follows_resolveValue
  | .pointer target => exact follows_resolveValue
  | .todo => exact follows_pure rfl
  | .record ⟨_, _, _, _⟩ | .func ⟨_, _, _, _⟩ | .void | .int _ | .uint _ | .float _ | .named _
  | .module _ => exact follows_failed (congrArg CheckError.notIndexable (C.names.text_type _)) rfl

theorem follows_indexType {base index : Ty} :
    C.Follows imp imp' s t C.names.type (indexType base index token)
      (indexType (C.names.type base) (C.names.type index) token) :=
  follows_resolve.then <| follows_expectNumeric.then <| follows_elementType

theorem follows_calleeSignature {callee : Expr} :
    C.Follows imp imp' s t (Option.map C.names.map.signature) (calleeSignature callee token)
      (calleeSignature (C.names.map.tree.expr callee) token) := by
  unfold calleeSignature
  rw [C.names.ty_expr, C.names.text_expr]
  refine follows_resolve.bind fun ty s t => ?_
  match ty with
  | .func sig =>
    rw [C.names.type_func]
    exact follows_pure rfl
  | .todo => exact follows_pure rfl
  | .record ⟨_, _, _, _⟩ | .pointer _ | .array _ _ | .void | .int _ | .uint _ | .float _ | .named _
  | .module _ =>
    exact follows_failed (congrArg (CheckError.notCallable callee.text) (C.names.text_type _)) rfl

theorem follows_moduleOf? {e : Expr} :
    C.Follows imp imp' s t (Option.map C.names.module) (Check.moduleOf? e)
      (Check.moduleOf? (C.names.map.tree.expr e)) := by
  refine follows_get fun h => ?_
  rw [C.names.name?_expr]
  cases e.name? with
  | none => exact follows_pure rfl
  | some name =>
    refine follows_pure ?_
    rw [h.env, C.names.environment_vars, Scopes.contains_map C.names.name_injective,
      C.names.module?_environment]
    split <;> rfl

theorem follows_moduleMember {m : Module} {member : Expr} :
    C.Follows imp imp' s t (Prod.map C.names.map.tree.expr C.names.type)
      (moduleMember m member token)
      (moduleMember (C.names.module m) (C.names.map.tree.expr member) token) := by
  have unknown : C.Follows imp imp' s t (Prod.map C.names.map.tree.expr C.names.type)
      (do error (.unknownModuleMember (Name.bare m.name) member.text) token
          return (member, .todo))
      (do error (.unknownModuleMember (Name.bare (C.names.name m.name))
            (C.names.map.tree.expr member).text) token
          return (C.names.map.tree.expr member, .todo)) := by
    rw [C.names.bare_name, C.names.text_expr]
    exact follows_failed rfl rfl
  unfold moduleMember
  rw [C.names.name?_expr]
  cases member.name? with
  | none => exact unknown
  | some name =>
    have id : (C.names.module m).unit.env.id = C.names.unit m.unit.env.id :=
      C.names.environment_id m.unit.env
    have vars : (C.names.module m).unit.env.vars = m.unit.env.vars.map C.names.name C.names.type :=
      C.names.environment_vars m.unit.env
    simp only [Option.map_some, Option.bind_some]
    rw [id, vars, ← C.names.name_requalify, Scopes.get?_map C.names.name_injective]
    cases m.unit.env.vars.get? (Name.requalify name m.unit.env.id) with
    | none => exact unknown
    | some ty =>
      refine follows_resolve.bind fun ty _ _ => follows_pure ?_
      rw [C.names.token_expr]
      rfl

theorem follows_accessedType :
    C.Follows imp imp' s t C.names.type (accessedType object token)
      (accessedType (C.names.type object) token) := by
  refine follows_resolve.bind fun object s t => ?_
  match object with
  | .pointer target => exact follows_resolveValue
  | .record ⟨_, _, _, _⟩ | .func ⟨_, _, _, _⟩ | .void | .int _ | .uint _ | .float _ | .array _ _
  | .named _ | .module _ | .todo => exact follows_pure rfl

theorem follows_recordField {field : Expr} :
    C.Follows imp imp' s t (Prod.map C.names.map.tree.expr C.names.type)
      (recordField object field token)
      (recordField (C.names.type object) (C.names.map.tree.expr field) token) := by
  match object with
  | .record decl =>
    have text := C.names.text_type (.record decl)
    rw [C.names.type_record] at text ⊢
    unfold recordField
    dsimp only
    rw [text, C.names.name?_expr, C.names.text_expr, Option.map_map]
    have bare : Name.bare ∘ C.names.name = Name.bare := funext C.names.bare_name
    rw [bare]
    cases field.name?.map Name.bare with
    | none => exact follows_failed rfl rfl
    | some name =>
      dsimp only
      rw [C.names.field?_record]
      cases decl.field? name with
      | none => exact follows_failed rfl rfl
      | some f =>
        refine follows_resolveValue.bind fun ty _ _ => follows_pure ?_
        rw [← C.names.expr_withType]
        rfl
  | .todo => exact follows_pure rfl
  | .func ⟨_, _, _, _⟩ | .void | .int _ | .uint _ | .float _ | .pointer _ | .array _ _ | .named _
  | .module _ => exact follows_failed (congrArg CheckError.expectedStruct (C.names.text_type _)) rfl

theorem follows_fieldAccess {field : Expr} :
    C.Follows imp imp' s t (Prod.map C.names.map.tree.expr C.names.type)
      (fieldAccess object field token)
      (fieldAccess (C.names.type object) (C.names.map.tree.expr field) token) :=
  follows_accessedType.then <| follows_recordField

theorem follows_structOf {ty? : Option Ty} :
    C.Follows imp imp' s t (Option.map C.names.map.record) (structOf name ty? token)
      (structOf (C.names.name name) (ty?.map C.names.type) token) := by
  match ty? with
  | some (.record ⟨.struct, n, fields, id⟩) =>
    refine follows_pure ?_
    rw [C.names.fields_eq_map]
    rfl
  | none | some (.named _) =>
    exact follows_failed (congrArg CheckError.unknownType (C.names.bare_name name)) rfl
  | some (.record ⟨.union, _, _, _⟩) | some (.func ⟨_, _, _, _⟩) | some .void | some (.int _)
  | some (.uint _) | some (.float _) | some (.pointer _) | some (.array _ _) | some (.module _)
  | some .todo =>
    exact follows_failed (congrArg CheckError.expectedStruct (C.names.text_type _)) rfl

theorem follows_literalRecord {module? : Option String} :
    C.Follows imp imp' s t (Prod.map C.names.name (Option.map C.names.map.record))
      (literalRecord name module? token)
      (literalRecord (C.names.name name) (module?.map C.names.name) token) := by
  cases module? with
  | none =>
    have resolved : C.Follows imp imp' s t C.names.type (resolve (.named ⟨name, []⟩))
        (resolve (.named ⟨C.names.name name, []⟩)) := follows_resolve
    refine resolved.bind fun ty s t => ?_
    have found : C.Follows imp imp' s t (Option.map C.names.map.record)
        (structOf name (some ty) token)
          (structOf (C.names.name name) (some (C.names.type ty)) token) :=
      follows_structOf
    exact found.map rfl
  | some module =>
    refine follows_get fun h => ?_
    rw [h.env, C.names.module?_environment]
    cases s.env.module? module with
    | none => exact follows_failed (congrArg CheckError.undefinedVariable (C.names.bare_name _)) rfl
    | some m =>
      have id : (C.names.module m).unit.env.id = C.names.unit m.unit.env.id :=
        C.names.environment_id m.unit.env
      have types : (C.names.module m).unit.env.types =
        m.unit.env.types.map C.names.name C.names.type := C.names.environment_types m.unit.env
      dsimp only [Option.map_some]
      rw [id, types, ← C.names.name_requalify, Scopes.get?_map C.names.name_injective]
      exact follows_structOf.map rfl

theorem follows_checkField {decl : Record} {value : Expr} :
    C.Follows imp imp' s t id (checkField decl name value)
      (checkField (C.names.map.record decl) name (C.names.map.tree.expr value)) := by
  unfold checkField
  rw [C.names.field?_record, C.names.ty_expr, C.names.token_expr]
  cases decl.field? name with
  | some f => exact follows_expectEqual
  | none =>
    have bare : Name.bare (C.names.map.record decl).name = Name.bare decl.name :=
      C.names.bare_name decl.name
    dsimp only [Option.map_none]
    rw [bare]
    exact follows_error

theorem follows_castType {target source : Ty} :
    C.Follows imp imp' s t C.names.type (castType target source token)
      (castType (C.names.type target) (C.names.type source) token) := by
  refine follows_resolve.bind fun source s t => ?_
  rw [C.names.isTodo_type, C.names.isTodo_type, C.names.isCastable_type, C.names.isCastable_type,
    C.names.text_type, C.names.text_type]
  refine .ite (fun _ => follows_pure rfl) fun _ => ?_
  exact follows_equals.then <| .ite (fun _ => follows_pure rfl)
    fun _ => follows_failed rfl rfl

theorem follows_expectInteger :
    C.Follows imp imp' s t id (expectInteger u token) (expectInteger (C.names.type u) token) := by
  refine follows_resolve.bind fun u s t => ?_
  rw [C.names.isTodo_type, C.names.isInteger_type, C.names.text_type]
  exact .ite (fun _ => follows_error) fun _ => follows_pure rfl

theorem follows_expectPointer :
    C.Follows imp imp' s t id (expectPointer u token) (expectPointer (C.names.type u) token) := by
  refine follows_resolve.bind fun u s t => ?_
  rw [C.names.isTodo_type, C.names.isPointer_type, C.names.text_type]
  exact .ite (fun _ => follows_error) fun _ => follows_pure rfl

theorem follows_builtin? {args : Nat} :
    C.Follows imp imp' s t id (builtin? name args token) (builtin? name args token) := by
  unfold builtin?
  cases Builtin.ofName? name with
  | none => exact follows_failed rfl rfl
  | some b =>
    dsimp only
    cases b.params with
    | none => exact follows_pure rfl
    | some n => exact .ite (fun _ => follows_pure rfl) fun _ => follows_failed rfl rfl

theorem follows_resolveTypeArgs {ts : List Ty} :
    C.Follows imp imp' s t (List.map C.names.type) (resolveTypeArgs token ts)
      (resolveTypeArgs token (ts.map C.names.type)) := by
  induction ts generalizing s t with
  | nil => exact follows_pure rfl
  | cons ty ts ih => exact follows_resolveAll.then <| ih.map rfl

theorem follows_checkCondition :
    C.Follows imp imp' s t id (checkCondition u token) (checkCondition (C.names.type u) token) := by
  refine follows_resolve.bind fun u s t => ?_
  unfold mismatch
  rw [C.names.isTodo_type, C.names.isNumeric_type, C.names.text_type]
  exact .ite (fun _ => follows_error) fun _ => follows_pure rfl

theorem follows_writtenType? :
    C.Follows imp imp' s t (Option.map C.names.type) (writtenType? written token)
      (writtenType? (C.names.type written) token) := by
  unfold writtenType?
  rw [C.names.isTodo_type]
  exact .ite (fun _ => follows_pure rfl) fun _ => follows_resolveAll.map rfl

theorem follows_typeFor {written? : Option Ty} {value : Ty} :
    C.Follows imp imp' s t C.names.type (typeFor written? value token)
      (typeFor (written?.map C.names.type) (C.names.type value) token) := by
  cases written? with
  | none => exact follows_resolveValue
  | some ty => exact follows_expectEqual.map rfl

theorem follows_declaredType {value : Ty} :
    C.Follows imp imp' s t C.names.type (Check.declaredType written value token)
      (Check.declaredType (C.names.type written) (C.names.type value) token) :=
  follows_writtenType?.then <| follows_typeFor

theorem follows_declaredTypes {written? : Option Ty} {names : List String} :
    C.Follows imp imp' s t (List.map C.names.type) (declaredTypes written? token names values)
      (declaredTypes (written?.map C.names.type) token (names.map C.names.name)
        (values.map C.names.type)) := by
  induction names generalizing values s t with
  | nil => exact follows_pure rfl
  | cons name names ih =>
    have head : (values.map C.names.type).headD .todo = C.names.type (values.headD .todo) := by
      cases values <;> rfl
    rw [List.map_cons, declaredTypes, declaredTypes, head, ← List.map_tail]
    exact follows_typeFor.then <| ih.map rfl

theorem follows_declaredAll {names : List String} :
    C.Follows imp imp' s t (Prod.map C.names.type (List.map C.names.type))
      (declaredAll token names written values)
      (declaredAll token (names.map C.names.name) (C.names.type written)
        (values.map C.names.type)) := by
  have rest (s t : CheckState) :
      C.Follows imp imp' s t (Prod.map C.names.type (List.map C.names.type))
      (do let written? ← writtenType? written token
          let types ← declaredTypes written? token names values
          return (written?.getD written, types))
      (do let written? ← writtenType? (C.names.type written) token
          let types ← declaredTypes written? token (names.map C.names.name)
            (values.map C.names.type)
          return (written?.getD (C.names.type written), types)) := by
    refine follows_writtenType?.bind fun written? _ _ => follows_declaredTypes.then <|
      follows_pure ?_
    cases written? <;> rfl
  unfold declaredAll
  rw [List.length_map, List.length_map]
  exact .ite (fun _ => follows_error.bind fun _ s t => rest s t) fun _ => rest s t

theorem follows_expectEqualAll {targets : List Ty} :
    C.Follows imp imp' s t id (expectEqualAll token targets values)
      (expectEqualAll token (targets.map C.names.type) (values.map C.names.type)) := by
  induction targets generalizing values s t with
  | nil => exact follows_pure rfl
  | cons target targets ih =>
    cases values with
    | nil => exact follows_pure rfl
    | cons value values => exact follows_expectEqual.then <| ih

theorem follows_checkAssignment {targets : List Ty} :
    C.Follows imp imp' s t id (checkAssignment token targets values)
      (checkAssignment token (targets.map C.names.type) (values.map C.names.type)) := by
  unfold checkAssignment
  rw [List.length_map, List.length_map]
  exact .ite (fun _ => follows_error) fun _ => follows_expectEqualAll

theorem follows_checkReturn {got : Ty} :
    C.Follows imp imp' s t id (checkReturn token got) (checkReturn token (C.names.type got)) := by
  refine follows_get fun h => ?_
  rw [h.expected]
  cases s.expected with
  | none => exact follows_error
  | some expected => exact follows_expectEqual.then <| follows_setReturns

theorem follows_checkAssembly {code : Expr} :
    C.Follows imp imp' s t id (checkAssembly code token)
      (checkAssembly (C.names.map.tree.expr code) token) := by
  have text := C.names.text_expr code
  unfold checkAssembly
  rw [text]
  obtain ⟨node, ty, at'⟩ := code
  cases node with
  | string value => exact follows_pure rfl
  | _ => exact follows_error

-- Records.

theorem follows_recursiveType :
    C.Follows imp imp' s t id (recursiveType owner token)
      (recursiveType (C.names.name owner) token) := by
  unfold recursiveType
  rw [C.names.bare_name]
  exact follows_error

theorem follows_checkContainment :
    C.Follows imp imp' s t (Option.map C.names.type) (checkContainment owner u token)
      (checkContainment (C.names.name owner) (C.names.type u) token) := by
  refine follows_get fun h => ?_
  rw [h.stores]
  exact .ite (fun _ => follows_recursiveType.map rfl)
    fun _ => follows_pure rfl

theorem follows_resolveField (u : Ty) {s t : CheckState} :
    C.Follows imp imp' s t (Option.map C.names.type) (resolveField owner token u)
      (resolveField (C.names.name owner) token (C.names.type u)) := by
  induction u using Ty.nested generalizing s t with
  | array u n ih =>
    refine ih.bind fun ty? _ _ => follows_pure ?_
    cases ty? <;> rfl
  | named ref =>
    have own : (C.names.ref ref).modules = [] ∧ (C.names.ref ref).name = C.names.name owner ↔
        ref.modules = [] ∧ ref.name = owner := by
      simp [Renaming.ref, C.names.name_injective.eq_iff]
    have text : (Ty.named (C.names.ref ref)).text = (Ty.named ref).text :=
      C.names.text_type (.named ref)
    have resolved : C.Follows imp imp' s t C.names.type (resolve (.named ref))
        (resolve (.named (C.names.ref ref))) := follows_resolve
    simp only [Renaming.type, resolveField, own, text]
    refine .ite (fun _ => follows_recursiveType.map rfl) fun _ => ?_
    refine resolved.bind fun ty s t => ?_
    cases ty with
    | named _ => exact follows_failed rfl rfl
    | record decl =>
      obtain ⟨_, _, _, _⟩ := decl
      exact follows_checkContainment
    | func sig =>
      obtain ⟨_, _, _, _⟩ := sig
      exact follows_checkContainment
    | _ => exact follows_checkContainment
  | record decl =>
    obtain ⟨_, _, _, _⟩ := decl
    exact follows_checkContainment
  | func sig =>
    obtain ⟨_, _, _, _⟩ := sig
    exact follows_pure rfl
  | _ => exact follows_pure rfl

theorem follows_resolveFields {seen : List String} {fields : List Field} :
    C.Follows imp imp' s t (Option.map (List.map C.names.map.field))
      (resolveFields owner token seen fields)
      (resolveFields (C.names.name owner) token seen (fields.map C.names.map.field)) := by
  induction fields generalizing seen s t with
  | nil => exact follows_pure rfl
  | cons f fields ih =>
    have rest (s t : CheckState) : C.Follows imp imp' s t (Option.map (List.map C.names.map.field))
        (resolveFrom owner token seen f fields) (resolveFrom (C.names.name owner) token seen
          (C.names.map.field f) (fields.map C.names.map.field)) := by
      refine (follows_resolveField f.ty).bind fun ty? _ _ => ?_
      cases ty? with
      | none => exact follows_pure rfl
      | some ty =>
        refine ih.bind fun fields? _ _ => follows_pure ?_
        cases fields? <;> rfl
    exact .ite (fun _ => follows_error.bind fun _ s t => rest s t) fun _ => rest s t

theorem follows_recordDecl {decl : Record} :
    C.Follows imp imp' s t C.names.map.record (recordDecl token decl)
      (recordDecl token (C.names.map.record decl)) := by
  refine (follows_defineType decl).then <| follows_resolveFields.bind fun fields? _ _ => ?_
  cases fields? with
  | none => exact follows_pure rfl
  | some fields =>
    exact (follows_defineType { decl with fields := fields }).map rfl

end Comparison

end FrontEnd
