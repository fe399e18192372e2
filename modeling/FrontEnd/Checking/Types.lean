import FrontEnd.Checking.State
import FrontEnd.Syntax.Builtin
import FrontEnd.Syntax.Printer

namespace FrontEnd.Check

def expectNumeric (t : Ty) (token : Token) : Check Bool := do
  if t.isTodo || t.isNumeric then return true
  error (.expectedNumeric t.text) token
  return false

def isCaptured (name : String) : Check Bool := do
  let s ← get
  match s.barrier, s.env.vars.depthOf? name with
  | some barrier, some depth => return 0 < depth && depth ≤ barrier
  | _, _ => return false

def identType (name : String) (token : Token) : Check Ty := do
  let s ← get
  match s.env.vars.get? name with
  | some ty =>
    if ← isCaptured name then
      error (.capturedVariable (Name.bare name)) token
      return .todo
    resolveValue ty token
  | none =>
    if (s.env.module? name).isSome then error (.moduleAsValue (Name.bare name)) token
    else error (.undefinedVariable (Name.bare name)) token
    return .todo

def binaryType (op : InfixOp) (left right : Ty) (token : Token) : Check Ty := do
  let left ← resolve left
  let right ← resolve right
  let leftNumeric ← expectNumeric left token
  let rightNumeric ← expectNumeric right token
  if leftNumeric && rightNumeric then expectEqual left right token
  return if op.isComparison then .bool else if left.isTodo then right else left

def unaryType (op : PrefixOp) (operand : Ty) (token : Token) : Check Ty := do
  let operand ← resolve operand
  match op with
  | .not | .negate | .identity =>
    let _ ← expectNumeric operand token
    return operand
  | .reference => return .pointer operand
  | .dereference =>
    match operand with
    | .pointer target => resolveValue target token
    | .todo => return .todo
    | t =>
      error (.expectedPointer t.text) token
      return .todo

def elementType (base : Ty) (token : Token) : Check Ty := do
  match ← resolve base with
  | .array element _ => resolveValue element token
  | .pointer target => resolveValue target token
  | .todo => return .todo
  | t =>
    error (.notIndexable t.text) token
    return .todo

def indexType (base index : Ty) (token : Token) : Check Ty := do
  let index ← resolve index
  let _ ← expectNumeric index token
  elementType base token

def calleeSignature (callee : Expr) (token : Token) : Check (Option Signature) := do
  match ← resolve callee.ty with
  | .func sig => return some sig
  | .todo => return none
  | t =>
    error (.notCallable callee.text t.text) token
    return none

/-- The module that an expression names, unless a variable of that name hides it. -/
def moduleOf? (e : Expr) : Check (Option Module) := do
  let s ← get
  match e.name? with
  | some name => return if s.env.vars.contains name then none else s.env.module? name
  | none => return none

def moduleMember (m : Module) (member : Expr) (token : Token) : Check (Expr × Ty) := do
  let qualified? := member.name?.map (Name.requalify · m.unit.env.id)
  let ty? := qualified?.bind m.unit.env.vars.get?
  match qualified?, ty? with
  | some qualified, some ty =>
    let ty ← resolve ty
    return (⟨.ident qualified, ty, member.token⟩, ty)
  | _, _ =>
    error (.unknownModuleMember (Name.bare m.name) member.text) token
    return (member, .todo)

/-- The type of the object that a field is taken from: that of the value, or of what it points
at. -/
def accessedType (object : Ty) (token : Token) : Check Ty := do
  match ← resolve object with
  | .pointer target => resolveValue target token
  | t => return t

def recordField (object : Ty) (field : Expr) (token : Token) : Check (Expr × Ty) := do
  match object with
  | .record decl =>
    match field.name?.map Name.bare with
    | none =>
      error (.unknownStructField field.text object.text) token
      return (field, .todo)
    | some name =>
      match decl.field? name with
      | some f =>
        let ty ← resolveValue f.ty token
        return ({ field with ty := ty }, ty)
      | none =>
        error (.unknownStructField name object.text) token
        return (field, .todo)
  | .todo => return (field, .todo)
  | t =>
    error (.expectedStruct t.text) token
    return (field, .todo)

def fieldAccess (object : Ty) (field : Expr) (token : Token) : Check (Expr × Ty) := do
  recordField (← accessedType object token) field token

def notStruct (name : String) (ty? : Option Ty) (token : Token) : Check Unit :=
  match ty? with
  | some (.named _) | none => error (.unknownType (Name.bare name)) token
  | some t => error (.expectedStruct t.text) token

def structOf (name : String) (ty? : Option Ty) (token : Token) : Check (Option Record) := do
  match ty? with
  | some (.record ⟨.struct, n, fields, id⟩) => return some ⟨.struct, n, fields, id⟩
  | _ =>
    notStruct name ty? token
    return none

def literalRecord (name : String) (module? : Option String) (token : Token) :
    Check (String × Option Record) := do
  match module? with
  | none => return (name, ← structOf name (some (← resolve (.named ⟨name, []⟩))) token)
  | some module =>
    match (← get).env.module? module with
    | some m =>
      let name := Name.requalify name m.unit.env.id
      return (name, ← structOf name (m.unit.env.types.get? name) token)
    | none =>
      error (.undefinedVariable (Name.bare module)) token
      return (name, none)

def checkField (decl : Record) (name : String) (value : Expr) : Check Unit := do
  match decl.field? name with
  | some f => expectEqual f.ty value.ty value.token
  | none => error (.unknownStructField name (Name.bare decl.name)) value.token

def isCastable (t : Ty) : Bool :=
  t.isNumeric || t.isPointer || t.isArray

def castType (target source : Ty) (token : Token) : Check Ty := do
  let source ← resolve source
  if source.isTodo || target.isTodo then return target
  if (isCastable source && isCastable target) || (← equals source target) then return target
  error (.invalidCast source.text target.text) token
  return .todo

def expectInteger (t : Ty) (token : Token) : Check Unit := do
  let t ← resolve t
  if !(t.isTodo || t.isInteger) then error (.expectedNumeric t.text) token

def expectPointer (t : Ty) (token : Token) : Check Unit := do
  let t ← resolve t
  if !(t.isTodo || t.isPointer) then error (.expectedPointer t.text) token

def builtin? (name : String) (args : Nat) (token : Token) : Check (Option Builtin) := do
  match Builtin.ofName? name with
  | none =>
    error (.unknownBuiltin name) token
    return none
  | some b =>
    match b.params with
    | some n =>
      if n = args then return some b
      error (.builtinArguments name (toString n ++ " argument(s), got " ++ toString args)) token
      return none
    | none => return some b

def resolveTypeArgs (token : Token) : List Ty → Check (List Ty)
  | [] => return []
  | t :: ts => do
    let t ← resolveAll t token
    return t :: (← resolveTypeArgs token ts)

def checkCondition (t : Ty) (token : Token) : Check Unit := do
  let t ← resolve t
  if !(t.isTodo || t.isNumeric) then mismatch .bool t token

def writtenType? (written : Ty) (token : Token) : Check (Option Ty) := do
  if written.isTodo then return none
  return some (← resolveAll written token)

def typeFor (written? : Option Ty) (value : Ty) (token : Token) : Check Ty := do
  match written? with
  | some ty =>
    expectEqual ty value token
    return ty
  | none => resolveValue value token

def declaredType (written value : Ty) (token : Token) : Check Ty := do
  typeFor (← writtenType? written token) value token

def declaredTypes (written? : Option Ty) (token : Token) :
    List String → List Ty → Check (List Ty)
  | [], _ => return []
  | _ :: names, values => do
    let ty ← typeFor written? (values.headD .todo) token
    return ty :: (← declaredTypes written? token names values.tail)

def declaredAll (token : Token) (names : List String) (written : Ty) (values : List Ty) :
    Check (Ty × List Ty) := do
  if values.length ≠ names.length then
    error (.assignmentCount names.length values.length) token
  let written? ← writtenType? written token
  let types ← declaredTypes written? token names values
  return (written?.getD written, types)

def expectEqualAll (token : Token) : List Ty → List Ty → Check Unit
  | target :: targets, value :: values => do
    expectEqual target value token
    expectEqualAll token targets values
  | _, _ => return

def checkAssignment (token : Token) (targets values : List Ty) : Check Unit := do
  if targets.length ≠ values.length then
    error (.assignmentCount targets.length values.length) token
  else expectEqualAll token targets values

def checkReturn (token : Token) (got : Ty) : Check Unit := do
  match (← get).expected with
  | none => error .returnOutsideFunction token
  | some expected =>
    expectEqual expected got token
    setReturns true

def checkAssembly (code : Expr) (token : Token) : Check Unit :=
  match code.node with
  | .string _ => return
  | _ =>
    error (.builtinArguments "asm"
      ("a string literal with the assembly, got " ++ code.text)) token

end FrontEnd.Check

def FrontEnd.Expr.valueTypes (e : FrontEnd.Expr) : List FrontEnd.Ty :=
  match e.node with
  | .comma items => items.map (·.ty)
  | _ => [e.ty]
