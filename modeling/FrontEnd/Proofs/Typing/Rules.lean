import FrontEnd.Checking.Types
import Mathlib.Data.List.Forall2

namespace FrontEnd

mutual

/-- Whether evaluating an expression never comes to its end: `@unreachable()` is a part of it. -/
def Expr.stops : Expr → Bool
  | ⟨.binary .dot left _, _, _⟩ => left.stops
  | ⟨.binary _ left right, _, _⟩ => left.stops || right.stops
  | ⟨.unary _ operand, _, _⟩ => operand.stops
  | ⟨.index base index, _, _⟩ => base.stops || index.stops
  | ⟨.call callee args, _, _⟩ => callee.stops || Expr.anyStops args
  | ⟨.builtin name _ args, _, _⟩ => name = "unreachable" || Expr.anyStops args
  | ⟨.structLit _ _ fields, _, _⟩ => Expr.anyFieldStops fields
  | ⟨.arrayLit _ elements, _, _⟩ => Expr.anyStops elements
  | ⟨.comma items, _, _⟩ => Expr.anyStops items
  | _ => false

def Expr.anyStops : List Expr → Bool
  | [] => false
  | e :: es => e.stops || Expr.anyStops es

def Expr.anyFieldStops : List FieldInit → Bool
  | [] => false
  | ⟨_, e⟩ :: fs => e.stops || Expr.anyFieldStops fs

end

mutual

/-- Whether every path through a statement returns or never comes to its end. -/
def Stmt.returns : Stmt → Bool
  | .expression _ e => e.stops
  | .declare _ _ _ value => value.stops
  | .declareAll _ _ _ _ value => value.stops
  | .assign _ target value => value.stops || target.stops
  | .choose _ ⟨_, body⟩ more (some otherwise) =>
    Stmt.anyReturns body && Stmt.branchesReturn more && Stmt.anyReturns otherwise
  | .return _ _ => true
  | _ => false

def Stmt.anyReturns : List Stmt → Bool
  | [] => false
  | x :: xs => x.returns || Stmt.anyReturns xs

def Stmt.branchesReturn : List Branch → Bool
  | [] => true
  | ⟨_, body⟩ :: bs => Stmt.anyReturns body && Stmt.branchesReturn bs

end

mutual

/-- Whether nothing in a type is left open, in the fields of records neither. -/
def Ty.settled : Ty → Bool
  | .pointer t => t.settled
  | .array t _ => t.settled
  | .record ⟨_, _, fields, _⟩ => Ty.settledFields fields
  | .func ⟨_, params, _, result⟩ => Ty.settledAll params && result.settled
  | .todo => false
  | _ => true

def Ty.settledAll : List Ty → Bool
  | [] => true
  | t :: ts => t.settled && Ty.settledAll ts

def Ty.settledFields : List Field → Bool
  | [] => true
  | ⟨_, t⟩ :: fs => t.settled && Ty.settledFields fs

end

/-- What is stored in a value of the type is known, inside all its arrays. -/
def Ty.Known (t : Ty) : Prop :=
  ∀ ref, t.element ≠ .named ref

theorem Ty.known_of_ref? {t : Ty} (h : t.element.ref? = none) : t.Known := by
  intro ref same
  rw [same] at h
  cases h

@[elab_as_elim]
theorem Ty.nested {motive : Ty → Prop} (void : motive .void) (int : ∀ bits, motive (.int bits))
    (uint : ∀ bits, motive (.uint bits)) (float : ∀ bits, motive (.float bits))
    (pointer : ∀ t, motive (.pointer t)) (array : ∀ t n, motive t → motive (.array t n))
    (record : ∀ decl, motive (.record decl)) (func : ∀ sig, motive (.func sig))
    (named : ∀ ref, motive (.named ref)) (module : ∀ name, motive (.module name))
    (todo : motive .todo) (t : Ty) : motive t := by
  induction t using Ty.element.induct with
  | case1 t n ih => exact array t n ih
  | case2 t notArray =>
    cases t with
    | array t n => exact absurd rfl (notArray t n)
    | _ => apply_assumption

/-- What is checked in one go: a tree, or a part of one with what it is checked against. -/
inductive Item where
  | expr (e : Expr)
  /-- An expression as its form says, before anything is said about what came out. -/
  | node (e : Expr)
  | exprs (es : List Expr)
  | args (params : List Ty) (es : List Expr)
  | elements (element : Ty) (es : List Expr)
  | values (fs : List FieldInit)
  | fields (decl : Record) (seen : List String) (fs : List FieldInit)
  | builtin (b : Builtin) (ty : Ty) (token : Token) (es : List Expr)
  /-- Values with commas between them, or a single one. -/
  | list (e : Expr)
  | condition (token : Token) (e : Expr)
  | guard (token : Token) (e : Option Expr)
  | result (e : Option Expr)
  /-- The statements of a branch, in a scope of their own. -/
  | body (xs : List Stmt)
  | function (sig : Signature) (name : String) (token : Token) (xs : List Stmt)
  | stmt (x : Stmt)
  | clause (x : Option Stmt)
  | stmts (xs : List Stmt)
  | branches (token : Token) (bs : List Branch)
  | top (xs : List Stmt)

structure Context where
  env : Environment
  /-- The types that other units see. -/
  registry : List (String × Ty)
  /-- The result of the function around. -/
  expected : Option Ty
  /-- How many loops of that function are around. -/
  loopDepth : Nat
  /-- The depth of the scopes outside the innermost function literal. -/
  barrier : Option Nat

namespace Context

def start (id : String) (directory : Path) (registry : List (String × Ty)) : Context :=
  ⟨.start id directory, registry, none, 0, none⟩

def resolver (Γ : Context) : Resolver :=
  ⟨Γ.env.lookup Γ.registry, 0⟩

def resolve (Γ : Context) (t : Ty) : Ty :=
  Γ.resolver.resolve t

def captures (Γ : Context) (name : String) : Bool :=
  match Γ.barrier, Γ.env.vars.depthOf? name with
  | some barrier, some depth => 0 < depth && depth ≤ barrier
  | _, _ => false

/-- The type of the object that a field is taken from, through a pointer if there is one. -/
def object (Γ : Context) (t : Ty) : Ty :=
  match Γ.resolve t with
  | .pointer target => Γ.resolve target
  | t => t

/-- What a struct literal names: a name as its unit knows it, and the type of that name. -/
def structNamed? (Γ : Context) (name : String) : Option String → Option (String × Ty)
  | none => some (name, Γ.resolve (.named ⟨name, []⟩))
  | some module =>
    (Γ.env.module? module).bind fun m =>
      (m.unit.env.types.get? (Name.requalify name m.unit.env.id)).map
        (Name.requalify name m.unit.env.id, ·)

/-- A variable is declared with its type and a value that fits it, or takes the value's type. -/
def Declares (Γ : Context) (ty value : Ty) : Prop :=
  ty.firstRef? = none ∧ ty.equals Γ.resolver value = true ∨ ty = Γ.resolve value ∧ ty.Known

def fieldType (Γ : Context) : Ty → Ty
  | .array t n => .array (Γ.fieldType t) n
  | .named ref => Γ.resolve (.named ref)
  | t => t

def fieldTypes (Γ : Context) (decl : Record) : Record :=
  { decl with fields := decl.fields.map fun f => ⟨f.name, Γ.fieldType f.ty⟩ }

def declare (Γ : Context) (name : String) (ty : Ty) : Context :=
  { Γ with env := { Γ.env with vars := Γ.env.vars.add name ty } }

def declareEach (Γ : Context) : List String → List Ty → Context
  | name :: names, ty :: types => (Γ.declare name ty).declareEach names types
  | _, _ => Γ

/-- Declares a type, which other units see if it is declared outside all scopes. -/
def define (Γ : Context) (name : String) (ty : Ty) : Context :=
  { Γ with
    registry := if Γ.env.types.depth = 0 then Table.insert Γ.registry name ty else Γ.registry
    env := { Γ.env with types := Γ.env.types.add name ty } }

def enter (Γ : Context) : Context :=
  { Γ with env := { Γ.env with vars := Γ.env.vars.enter, types := Γ.env.types.enter } }

def enterFunction (Γ : Context) (sig : Signature) : Context :=
  { Γ.enter.declareEach sig.names sig.params with expected := some sig.result, loopDepth := 0 }

def leave (Γ around : Context) : Context :=
  { Γ with env := { Γ.env with vars := around.env.vars, types := around.env.types } }

def recordFunction (Γ : Context) (f : FunctionDecl) : Context :=
  { Γ with env := { Γ.env with functions := Table.insert Γ.env.functions f.sig.name f } }

def importedFile (Γ : Context) (path : String) : Path :=
  (Γ.env.directory.join ⟨path⟩).normalize

def addModule (Γ : Context) (m : Module) (registry : List (String × Ty)) : Context :=
  { Γ with
    env := { Γ.env with modules := Table.insert Γ.env.modules m.name m }
    registry := registry }

end Context

inductive Typed : Context → Item → Context → Prop
  /-- No type of an expression is left open. -/
  | expr {Γ e Γ'} (node : Typed Γ (.node e) Γ') (settled : e.ty.settled = true) :
      Typed Γ (.expr e) Γ'
  -- Expressions.
  | ident {Γ name t token} (bound : Γ.env.vars.get? name = some t)
      (reachable : Γ.captures name = false) (known : (Γ.resolve t).Known) :
      Typed Γ (.node ⟨.ident name, Γ.resolve t, token⟩) Γ
  | integer {Γ value ty token} (literal : ty = .int 32 ∨ ty = .bool) :
      Typed Γ (.node ⟨.integer value, ty, token⟩) Γ
  | float {Γ value token} : Typed Γ (.node ⟨.float value, .float 64, token⟩) Γ
  | string {Γ value token} : Typed Γ (.node ⟨.string value, .pointer (.int 8), token⟩) Γ
  | member {Γ module m name t token₁ token₂ token}
      (notHidden : Γ.env.vars.contains module = false) (isModule : Γ.env.module? module = some m)
      (bound : m.unit.env.vars.get? name = some t) :
      Typed Γ (.node ⟨.binary .dot ⟨.ident module, .module module, token₁⟩
        ⟨.ident name, Γ.resolve t, token₂⟩, Γ.resolve t, token⟩) Γ
  | field {Γ left Γ' decl name f token₁ token} (object : Typed Γ (.expr left) Γ')
      (isRecord : Γ'.object left.ty = .record decl)
      (declared : decl.field? (Name.bare name) = some f) (known : (Γ'.resolve f.ty).Known) :
      Typed Γ (.node ⟨.binary .dot left ⟨.ident name, Γ'.resolve f.ty, token₁⟩, Γ'.resolve f.ty,
        token⟩) Γ'
  | binary {Γ op left Γ₁ right Γ' token} (notDot : op ≠ .dot) (notAssign : op ≠ .assign)
      (first : Typed Γ (.expr left) Γ₁) (second : Typed Γ₁ (.expr right) Γ')
      (numeric : left.ty.isNumeric = true) (same : right.ty = left.ty) :
      Typed Γ (.node ⟨.binary op left right, if op.isComparison then .bool else left.ty, token⟩) Γ'
  | sign {Γ op operand Γ' token} (sign : op = .not ∨ op = .negate ∨ op = .identity)
      (first : Typed Γ (.expr operand) Γ') (numeric : operand.ty.isNumeric = true) :
      Typed Γ (.node ⟨.unary op operand, operand.ty, token⟩) Γ'
  | reference {Γ operand Γ' token} (first : Typed Γ (.expr operand) Γ') :
      Typed Γ (.node ⟨.unary .reference operand, .pointer (Γ'.resolve operand.ty), token⟩) Γ'
  | dereference {Γ operand Γ' target token} (first : Typed Γ (.expr operand) Γ')
      (pointer : operand.ty = .pointer target) (known : (Γ'.resolve target).Known) :
      Typed Γ (.node ⟨.unary .dereference operand, Γ'.resolve target, token⟩) Γ'
  | index {Γ base Γ₁ index Γ' element token} (first : Typed Γ (.expr base) Γ₁)
      (second : Typed Γ₁ (.expr index) Γ')
      (indexable : (∃ n, base.ty = .array element n) ∨ base.ty = .pointer element)
      (numeric : index.ty.isNumeric = true) (known : (Γ'.resolve element).Known) :
      Typed Γ (.node ⟨.index base index, Γ'.resolve element, token⟩) Γ'
  | call {Γ callee Γ₁ sig args Γ' token} (called : Typed Γ (.expr callee) Γ₁)
      (function : callee.ty = .func sig)
      (given : Typed Γ₁ (.args (sig.params.map Γ₁.resolve) args) Γ')
      (known : (Γ'.resolve (Γ₁.resolve sig.result)).Known) :
      Typed Γ (.node ⟨.call callee args, Γ'.resolve (Γ₁.resolve sig.result), token⟩) Γ'
  | structLit {Γ written module? name decl fs Γ' token}
      (named : Γ.structNamed? written module? = some (name, .record decl))
      (struct : decl.kind = .struct) (given : Typed Γ (.fields decl [] fs) Γ') :
      Typed Γ (.node ⟨.structLit name module? fs, .record decl, token⟩) Γ'
  | arrayLit {Γ element length es Γ' token} (known : element.firstRef? = none)
      (fits : es.length ≤ length) (given : Typed Γ (.elements element es) Γ') :
      Typed Γ (.node ⟨.arrayLit (.array element length) es, .array element length, token⟩) Γ'
  | lambda {Γ sig xs name Γ' token} (resolved : Γ.resolver.resolveSignature sig = sig)
      (inner : Typed { Γ with barrier := some Γ.env.vars.depth } (.function sig name token xs) Γ') :
      Typed Γ (.node ⟨.function sig xs, .func sig, token⟩) { Γ' with barrier := Γ.barrier }
  -- Calls of builtin functions.
  | sizeof {Γ ty token} (known : ty.firstRef? = none) (settled : ty.settled = true) :
      Typed Γ (.node ⟨.builtin "sizeof" [ty] [], .int 32, token⟩) Γ
  | cast {Γ ty e Γ' token} (known : ty.firstRef? = none) (value : Typed Γ (.expr e) Γ')
      (castable : Check.isCastable e.ty = true ∧ Check.isCastable ty = true ∨
        e.ty.equals Γ'.resolver ty = true) :
      Typed Γ (.node ⟨.builtin "cast" [ty] [e], ty, token⟩) Γ'
  | alloc {Γ ty e Γ' token} (known : ty.firstRef? = none) (size : Typed Γ (.expr e) Γ')
      (integer : e.ty.isInteger = true) :
      Typed Γ (.node ⟨.builtin "alloc" [ty] [e], .pointer ty, token⟩) Γ'
  | free {Γ e Γ' token} (value : Typed Γ (.expr e) Γ') (pointer : e.ty.isPointer = true) :
      Typed Γ (.node ⟨.builtin "free" [] [e], .void, token⟩) Γ'
  | realloc {Γ e Γ₁ n Γ' token} (value : Typed Γ (.expr e) Γ₁) (pointer : e.ty.isPointer = true)
      (size : Typed Γ₁ (.expr n) Γ') (integer : n.ty.isInteger = true) :
      Typed Γ (.node ⟨.builtin "realloc" [] [e, n], Γ₁.resolve e.ty, token⟩) Γ'
  | print {Γ name es Γ' token} (prints : name = "print" ∨ name = "println")
      (given : Typed Γ (.exprs es) Γ') :
      Typed Γ (.node ⟨.builtin name [] es, .void, token⟩) Γ'
  | unreachable {Γ token} :
      Typed Γ (.node ⟨.builtin "unreachable" [] [], Γ.expected.getD .void, token⟩) Γ
  | asm {Γ ty code t token₁ es Γ' token} (known : ty.firstRef? = none)
      (given : Typed Γ (.exprs (⟨.string code, t, token₁⟩ :: es)) Γ') :
      Typed Γ (.node ⟨.builtin "asm" [ty] (⟨.string code, t, token₁⟩ :: es), ty, token⟩) Γ'
  -- Lists of expressions.
  | exprsNil {Γ} : Typed Γ (.exprs []) Γ
  | exprsCons {Γ e Γ₁ es Γ'} (first : Typed Γ (.expr e) Γ₁) (rest : Typed Γ₁ (.exprs es) Γ') :
      Typed Γ (.exprs (e :: es)) Γ'
  | argsNil {Γ} : Typed Γ (.args [] []) Γ
  | argsCons {Γ param params e Γ₁ es Γ'} (first : Typed Γ (.expr e) Γ₁)
      (fits : param.equals Γ₁.resolver e.ty = true) (rest : Typed Γ₁ (.args params es) Γ') :
      Typed Γ (.args (param :: params) (e :: es)) Γ'
  | elementsNil {Γ element} : Typed Γ (.elements element []) Γ
  | elementsCons {Γ element e Γ₁ es Γ'} (first : Typed Γ (.expr e) Γ₁)
      (fits : element.equals Γ₁.resolver e.ty = true) (rest : Typed Γ₁ (.elements element es) Γ') :
      Typed Γ (.elements element (e :: es)) Γ'
  | fieldsNil {Γ decl seen} : Typed Γ (.fields decl seen []) Γ
  | fieldsCons {Γ decl seen name e Γ₁ f fs Γ'} (first : Typed Γ (.expr e) Γ₁)
      (new : name ∉ seen) (declared : decl.field? name = some f)
      (fits : f.ty.equals Γ₁.resolver e.ty = true)
      (rest : Typed Γ₁ (.fields decl (name :: seen) fs) Γ') :
      Typed Γ (.fields decl seen (⟨name, e⟩ :: fs)) Γ'
  -- Parts of statements.
  | commas {Γ items Γ' token} (given : Typed Γ (.exprs items) Γ') :
      Typed Γ (.list ⟨.comma items, .void, token⟩) Γ'
  | single {Γ e Γ'} (noComma : ∀ items, e.node ≠ .comma items) (value : Typed Γ (.expr e) Γ') :
      Typed Γ (.list e) Γ'
  | condition {Γ token e Γ'} (value : Typed Γ (.expr e) Γ') (numeric : e.ty.isNumeric = true) :
      Typed Γ (.condition token e) Γ'
  | unguarded {Γ token} : Typed Γ (.guard token none) Γ
  | guarded {Γ token e Γ'} (value : Typed Γ (.condition token e) Γ') :
      Typed Γ (.guard token (some e)) Γ'
  | nothing {Γ} : Typed Γ (.result none) Γ
  | something {Γ e Γ'} (value : Typed Γ (.expr e) Γ') : Typed Γ (.result (some e)) Γ'
  | body {Γ xs Γ'} (inner : Typed Γ.enter (.stmts xs) Γ') : Typed Γ (.body xs) (Γ'.leave Γ)
  | function {Γ sig name token xs Γ'} (inner : Typed (Γ.enterFunction sig) (.stmts xs) Γ')
      (returns : Stmt.anyReturns xs = true ∨ sig.result.equals Γ'.resolver .void = true) :
      Typed Γ (.function sig name token xs)
        { Γ'.leave Γ with expected := Γ.expected, loopDepth := Γ.loopDepth }
  | absent {Γ} : Typed Γ (.clause none) Γ
  | present {Γ x Γ'} (inner : Typed Γ (.stmt x) Γ') : Typed Γ (.clause (some x)) Γ'
  -- Statements.
  | expression {Γ token e Γ'} (value : Typed Γ (.expr e) Γ') :
      Typed Γ (.stmt (.expression token e)) Γ'
  | declare {Γ token name ty value Γ'} (given : Typed Γ (.expr value) Γ')
      (settled : ty.settled = true) (declares : Γ'.Declares ty value.ty) :
      Typed Γ (.stmt (.declare token name ty value)) (Γ'.declare name ty)
  | declareAll {Γ token names ty types value Γ'} (given : Typed Γ (.list value) Γ')
      (count : names.length = types.length) (settled : ∀ t ∈ types, t.settled = true)
      (declares : List.Forall₂ Γ'.Declares types value.valueTypes)
      (same : ty.isTodo = true ∨ ∀ t ∈ types, t = ty) :
      Typed Γ (.stmt (.declareAll token names ty types value)) (Γ'.declareEach names types)
  | assign {Γ token target value Γ₁ Γ'} (given : Typed Γ (.list value) Γ₁)
      (targets : Typed Γ₁ (.list target) Γ')
      (fits : List.Forall₂ (fun t v => t.equals Γ'.resolver v = true) target.valueTypes
        value.valueTypes) :
      Typed Γ (.stmt (.assign token target value)) Γ'
  /-- While its fields are resolved, a record is known as it is written. -/
  | record {Γ token decl} (distinct : (decl.fields.map (·.name)).Nodup)
      (known : ∀ f ∈ decl.fields, ((Γ.define decl.name (.record decl)).fieldType f.ty).Known)
      (settled : (Ty.record decl).settled = true) :
      Typed Γ (.stmt (.record token ((Γ.define decl.name (.record decl)).fieldTypes decl)))
        ((Γ.define decl.name (.record decl)).define decl.name
          (.record ((Γ.define decl.name (.record decl)).fieldTypes decl)))
  | define {Γ token sig xs name Γ'} (resolved : Γ.resolver.resolveSignature sig = sig)
      (settled : (Ty.func sig).settled = true)
      (inner : Typed (Γ.declare sig.name (.func sig)) (.function sig name token xs) Γ') :
      Typed Γ (.stmt (.function token sig xs)) (Γ'.recordFunction ⟨token, sig, xs⟩)
  | choose {Γ token e Γ₁ xs Γ₂ more Γ'} (condition : Typed Γ (.condition token e) Γ₁)
      (taken : Typed Γ₁ (.body xs) Γ₂) (others : Typed Γ₂ (.branches token more) Γ') :
      Typed Γ (.stmt (.choose token ⟨e, xs⟩ more none)) Γ'
  | chooseElse {Γ token e Γ₁ xs Γ₂ more Γ₃ ys Γ'} (condition : Typed Γ (.condition token e) Γ₁)
      (taken : Typed Γ₁ (.body xs) Γ₂) (others : Typed Γ₂ (.branches token more) Γ₃)
      (otherwise : Typed Γ₃ (.body ys) Γ') :
      Typed Γ (.stmt (.choose token ⟨e, xs⟩ more (some ys))) Γ'
  | loop {Γ token init e post xs Γ₁ Γ₂ Γ₃ Γ'} (before : Typed Γ.enter (.clause init) Γ₁)
      (guard : Typed Γ₁ (.guard token e) Γ₂) (after : Typed Γ₂ (.clause post) Γ₃)
      (inner : Typed { Γ₃ with loopDepth := Γ₃.loopDepth + 1 } (.body xs) Γ') :
      Typed Γ (.stmt (.loop token init e post xs)) { Γ'.leave Γ with loopDepth := Γ.loopDepth }
  | returned {Γ token value Γ' expected} (given : Typed Γ (.result value) Γ')
      (inFunction : Γ'.expected = some expected)
      (fits : expected.equals Γ'.resolver (value.elim .void (·.ty)) = true) :
      Typed Γ (.stmt (.return token value)) Γ'
  | breaks {Γ token} (inLoop : Γ.loopDepth ≠ 0) : Typed Γ (.stmt (.break token)) Γ
  | continues {Γ token} (inLoop : Γ.loopDepth ≠ 0) : Typed Γ (.stmt (.continue token)) Γ
  | external {Γ token sig} (resolved : Γ.resolver.resolveSignature sig = sig)
      (settled : (Ty.func sig).settled = true) :
      Typed Γ (.stmt (.external token sig))
        (Γ.declare (Name.qualify sig.name Γ.env.id) (.func sig))
  /-- The unit that is imported is well typed by itself. -/
  | importUnit {Γ token name typeArgs path id unit Γ'} (known : ∀ t ∈ typeArgs, t.firstRef? = none)
      (inner : Typed (.start id ((Γ.importedFile path).parent?.getD ⟨""⟩) Γ.registry)
        (.top unit.program.statements) Γ')
      (env : unit.env = Γ'.env) :
      Typed Γ (.stmt (.importUnit token name typeArgs path))
        (Γ.addModule ⟨name, Γ.importedFile path, unit⟩ Γ'.registry)
  | generic {Γ token name ty} : Typed Γ (.stmt (.generic token name ty)) Γ
  -- Lists of statements and of branches.
  | branchesNil {Γ token} : Typed Γ (.branches token []) Γ
  | branchesCons {Γ token e Γ₁ xs Γ₂ bs Γ'} (condition : Typed Γ (.condition token e) Γ₁)
      (taken : Typed Γ₁ (.body xs) Γ₂) (others : Typed Γ₂ (.branches token bs) Γ') :
      Typed Γ (.branches token (⟨e, xs⟩ :: bs)) Γ'
  | stmtsNil {Γ} : Typed Γ (.stmts []) Γ
  | stmtsCons {Γ x Γ₁ xs Γ'} (first : Typed Γ (.stmt x) Γ₁) (goesOn : x.returns = false)
      (rest : Typed Γ₁ (.stmts xs) Γ') : Typed Γ (.stmts (x :: xs)) Γ'
  /-- Nothing is said about what follows a statement that returns on every path. -/
  | stmtsStop {Γ x Γ' xs} (first : Typed Γ (.stmt x) Γ') (stops : x.returns = true) :
      Typed Γ (.stmts (x :: xs)) Γ'
  | topNil {Γ} : Typed Γ (.top []) Γ
  | topCons {Γ x Γ₁ xs Γ'} (first : Typed Γ (.stmt x) Γ₁) (rest : Typed Γ₁ (.top xs) Γ') :
      Typed Γ (.top (x :: xs)) Γ'

end FrontEnd
