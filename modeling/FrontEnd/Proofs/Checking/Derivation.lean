import FrontEnd.Proofs.Checking.Steps
import FrontEnd.Proofs.Typing.Rules

namespace FrontEnd

namespace Item

/-- What checking gives: the same trees with the types filled in, and what else is found out. -/
@[reducible]
def Result : Item → Type
  | .expr _ | .node _ | .list _ | .condition _ _ => Expr
  | .exprs _ | .args _ _ | .elements _ _ => List Expr
  | .values _ | .fields _ _ _ => List FieldInit
  | .builtin _ _ _ _ => List Expr × Ty
  | .guard _ _ | .result _ => Option Expr
  | .body _ => List Stmt × Bool
  | .stmt _ => Stmt
  | .clause _ => Option Stmt
  | .function _ _ _ _ | .stmts _ | .top _ => List Stmt
  | .branches _ _ => List Branch × Bool

def check : (i : Item) → Check i.Result
  | .expr e | .node e => Check.expr e
  | .exprs es => Check.exprs es
  | .args params es => Check.exprsAgainst params es
  | .elements element es => Check.elementsAgainst element es
  | .values fs => Check.fieldValues fs
  | .fields decl seen fs => Check.fieldsAgainst decl seen fs
  | .builtin b ty token es => Check.builtinCall b ty token es
  | .list ⟨.comma items, _, token⟩ => do return ⟨.comma (← Check.exprs items), .void, token⟩
  | .list e => Check.expr e
  | .condition token e => do
    let e ← Check.expr e
    Check.checkCondition e.ty token
    return e
  | .guard token (some e) => do
    let e ← Check.expr e
    Check.checkCondition e.ty token
    return some e
  | .guard _ none | .result none => return none
  | .result (some e) => do return some (← Check.expr e)
  | .body xs => do
    Check.enterBranch
    let xs ← Check.stmts xs
    return (xs, ← Check.leaveBranch)
  | .function sig name token xs => do
    let around ← Check.enterFunction sig
    let xs ← Check.stmts xs
    Check.leaveFunction around sig name token
    return xs
  | .stmt x => Check.stmt x
  | .clause (some x) => do return some (← Check.stmt x)
  | .clause none => return none
  | .stmts xs => Check.stmts xs
  | .branches token bs => Check.branches token bs
  | .top xs => Check.topLevel xs

end Item

def Expr.isLiteral (e : Expr) : Bool :=
  match e.node with
  | .integer _ | .float _ | .string _ => true
  | _ => false

/-- What is said about the checking of an expression: before it, what came out, after it. -/
abbrev Law :=
  Expr → CheckState → Expr → CheckState → Prop

section

open Check

/-- Item `i`, checked from one state, gives a result and ends in another state, and `P` holds of
every expression that is checked on the way. There is a rule for each form that a tree can have;
what only looks at the state and reports errors is left to `Runs`. -/
inductive Checks (imp : Importer) (P : Law) :
    (i : Item) → CheckState → i.Result → CheckState → Prop
  | expr {e e' s s'} (node : Checks imp P (.node e) s e' s') (law : P e s e' s') :
      Checks imp P (.expr e) s e' s'
  -- Expressions.
  | ident {name t token s ty s'} (typed : Runs imp (identType name token) s ty s') :
      Checks imp P (.node ⟨.ident name, t, token⟩) s ⟨.ident name, ty, token⟩ s'
  | literal {e s} (literal : e.isLiteral) : Checks imp P (.node e) s e s
  | member {left right t token s m right' ty s'} (isModule : s.moduleOf? left = some m)
      (typed : Runs imp (moduleMember m right token) s (right', ty) s') :
      Checks imp P (.node ⟨.binary .dot left right, t, token⟩) s
        ⟨.binary .dot ⟨left.node, .module (left.name?.getD ""), left.token⟩ right', ty, token⟩ s'
  | field {left right t token s left' s₁ right' ty s'} (notModule : s.moduleOf? left = none)
      (object : Checks imp P (.expr left) s left' s₁)
      (typed : Runs imp (fieldAccess left'.ty right token) s₁ (right', ty) s') :
      Checks imp P (.node ⟨.binary .dot left right, t, token⟩) s
        ⟨.binary .dot left' right', ty, token⟩ s'
  | misplaced {left right t token s right' s₁ left' s₂}
      (value : Checks imp P (.expr right) s right' s₁)
      (target : Checks imp P (.expr left) s₁ left' s₂) :
      Checks imp P (.node ⟨.binary .assign left right, t, token⟩) s
        (todo (.binary .assign left' right') token)
        (s₂.note ⟨.check .assignmentInExpression, token.start⟩)
  | binary {op left right t token s left' s₁ right' s₂ ty s'} (notDot : op ≠ .dot)
      (notAssign : op ≠ .assign) (first : Checks imp P (.expr left) s left' s₁)
      (second : Checks imp P (.expr right) s₁ right' s₂)
      (typed : Runs imp (binaryType op left'.ty right'.ty token) s₂ ty s') :
      Checks imp P (.node ⟨.binary op left right, t, token⟩) s
        ⟨.binary op left' right', ty, token⟩ s'
  | unary {op operand t token s operand' s₁ ty s'}
      (first : Checks imp P (.expr operand) s operand' s₁)
      (typed : Runs imp (unaryType op operand'.ty token) s₁ ty s') :
      Checks imp P (.node ⟨.unary op operand, t, token⟩) s ⟨.unary op operand', ty, token⟩ s'
  | index {base index t token s base' s₁ index' s₂ ty s'}
      (first : Checks imp P (.expr base) s base' s₁)
      (second : Checks imp P (.expr index) s₁ index' s₂)
      (typed : Runs imp (indexType base'.ty index'.ty token) s₂ ty s') :
      Checks imp P (.node ⟨.index base index, t, token⟩) s ⟨.index base' index', ty, token⟩ s'
  | call {callee args t token s callee' s₁ sig s₂ args' s₃ ty s'}
      (called : Checks imp P (.expr callee) s callee' s₁)
      (callable : Runs imp (calleeSignature callee' token) s₁ (some sig) s₂)
      (given : Checks imp P (.args sig.params args)
        (s₂.noteUnless (args.length = sig.params.length)
          ⟨.check (.argumentCount sig.params.length args.length), token.start⟩) args' s₃)
      (typed : Runs imp (resolveValue sig.result token) s₃ ty s') :
      Checks imp P (.node ⟨.call callee args, t, token⟩) s ⟨.call callee' args', ty, token⟩ s'
  | uncallable {callee args t token s callee' s₁ s₂ args' s'}
      (called : Checks imp P (.expr callee) s callee' s₁)
      (notCallable : Runs imp (calleeSignature callee' token) s₁ none s₂)
      (given : Checks imp P (.exprs args) s₂ args' s') :
      Checks imp P (.node ⟨.call callee args, t, token⟩) s (todo (.call callee' args') token) s'
  | builtin {name typeArgs args t token s b s₁ typeArgs' s₂ args' ty s'}
      (known : Runs imp (builtin? name args.length token) s (some b) s₁)
      (types : Runs imp (resolveTypeArgs token typeArgs) s₁ typeArgs' s₂)
      (given : Checks imp P (.builtin b (typeArgs'.headD .todo) token args) s₂ (args', ty) s') :
      Checks imp P (.node ⟨.builtin name typeArgs args, t, token⟩) s
        ⟨.builtin name typeArgs' args', ty, token⟩ s'
  | unknown {name typeArgs args t token s s₁ args' s'}
      (notKnown : Runs imp (builtin? name args.length token) s none s₁)
      (given : Checks imp P (.exprs args) s₁ args' s') :
      Checks imp P (.node ⟨.builtin name typeArgs args, t, token⟩) s
        (todo (.builtin name typeArgs args') token) s'
  | structLit {name module? fs t token s name' decl s₁ fs' s'}
      (struct : Runs imp (literalRecord name module? token) s (name', some decl) s₁)
      (given : Checks imp P (.fields decl [] fs) s₁ fs' s') :
      Checks imp P (.node ⟨.structLit name module? fs, t, token⟩) s
        ⟨.structLit name' module? fs', .record decl, token⟩ s'
  | structless {name module? fs t token s name' s₁ fs' s'}
      (notStruct : Runs imp (literalRecord name module? token) s (name', none) s₁)
      (given : Checks imp P (.values fs) s₁ fs' s') :
      Checks imp P (.node ⟨.structLit name module? fs, t, token⟩) s
        (todo (.structLit name' module? fs') token) s'
  | arrayLit {written es t token s element length s₁ es' s'}
      (array : Runs imp (resolveAll written token) s (.array element length) s₁)
      (given : Checks imp P (.elements element es)
        (s₁.noteUnless (es.length ≤ length)
          ⟨.check (.arrayLiteralTooLong length es.length), token.start⟩) es' s') :
      Checks imp P (.node ⟨.arrayLit written es, t, token⟩) s
        ⟨.arrayLit (.array element length) es', .array element length, token⟩ s'
  | arrayless {written es t token s ty s₁ es' s'} (notArray : ty.isArray = false)
      (resolved : Runs imp (resolveAll written token) s ty s₁)
      (given : Checks imp P (.exprs es) s₁ es' s') :
      Checks imp P (.node ⟨.arrayLit written es, t, token⟩) s ⟨.arrayLit ty es', ty, token⟩ s'
  | comma {items t token s items' s₁} (given : Checks imp P (.exprs items) s items' s₁) :
      Checks imp P (.node ⟨.comma items, t, token⟩) s (todo (.comma items') token)
        (s₁.note ⟨.check .unexpectedComma, token.start⟩)
  | lambda {sig xs t token s xs' s₁}
      (inner : Checks imp P (.function (s.resolver.resolveSignature sig) "<anonymous>" token xs)
        { s with barrier := some s.env.vars.depth } xs' s₁) :
      Checks imp P (.node ⟨.function sig xs, t, token⟩) s
        ⟨.function (s.resolver.resolveSignature sig) xs', .func (s.resolver.resolveSignature sig),
          token⟩ { s₁ with barrier := s.barrier }
  -- Lists of expressions.
  | exprsNil {s} : Checks imp P (.exprs []) s [] s
  | exprsCons {e es s e' s₁ es' s'} (first : Checks imp P (.expr e) s e' s₁)
      (rest : Checks imp P (.exprs es) s₁ es' s') :
      Checks imp P (.exprs (e :: es)) s (e' :: es') s'
  | argsNil {params s} : Checks imp P (.args params []) s [] s
  | argsCons {param params e es s e' s₁ u s₂ es' s'} (first : Checks imp P (.expr e) s e' s₁)
      (fits : Runs imp (expectEqual param e'.ty e'.token) s₁ u s₂)
      (rest : Checks imp P (.args params es) s₂ es' s') :
      Checks imp P (.args (param :: params) (e :: es)) s (e' :: es') s'
  | argsMore {e es s e' s₁ es' s'} (first : Checks imp P (.expr e) s e' s₁)
      (rest : Checks imp P (.args [] es) s₁ es' s') :
      Checks imp P (.args [] (e :: es)) s (e' :: es') s'
  | elementsNil {element s} : Checks imp P (.elements element []) s [] s
  | elementsCons {element e es s e' s₁ u s₂ es' s'} (first : Checks imp P (.expr e) s e' s₁)
      (fits : Runs imp (expectEqual element e'.ty e'.token) s₁ u s₂)
      (rest : Checks imp P (.elements element es) s₂ es' s') :
      Checks imp P (.elements element (e :: es)) s (e' :: es') s'
  | valuesNil {s} : Checks imp P (.values []) s [] s
  | valuesCons {name value fs s value' s₁ fs' s'}
      (first : Checks imp P (.expr value) s value' s₁)
      (rest : Checks imp P (.values fs) s₁ fs' s') :
      Checks imp P (.values (⟨name, value⟩ :: fs)) s (⟨name, value'⟩ :: fs') s'
  | fieldsNil {decl seen s} : Checks imp P (.fields decl seen []) s [] s
  | fieldsCons {decl seen name value fs s value' s₁ u s₂ fs' s'}
      (first : Checks imp P (.expr value)
        (s.noteUnless (name ∉ seen) ⟨.check (.duplicateField name), value.token.start⟩) value' s₁)
      (fits : Runs imp (checkField decl name value') s₁ u s₂)
      (rest : Checks imp P (.fields decl (name :: seen) fs) s₂ fs' s') :
      Checks imp P (.fields decl seen (⟨name, value⟩ :: fs)) s (⟨name, value'⟩ :: fs') s'
  -- Calls of builtin functions.
  | sizeof {ty token s} : Checks imp P (.builtin .sizeof ty token []) s ([], .int 32) s
  | print {b ty token es s es' s'} (prints : b = .print ∨ b = .println)
      (given : Checks imp P (.exprs es) s es' s') :
      Checks imp P (.builtin b ty token es) s (es', .void) s'
  | unreachable {ty token s} :
      Checks imp P (.builtin .unreachable ty token []) s ([], s.expected.getD .void)
        { s with returns := true }
  | cast {ty token e s e' s₁ ty' s'} (value : Checks imp P (.expr e) s e' s₁)
      (typed : Runs imp (castType ty e'.ty token) s₁ ty' s') :
      Checks imp P (.builtin .cast ty token [e]) s ([e'], ty') s'
  | alloc {ty token e s e' s₁ u s'} (size : Checks imp P (.expr e) s e' s₁)
      (typed : Runs imp (expectInteger e'.ty token) s₁ u s') :
      Checks imp P (.builtin .alloc ty token [e]) s ([e'], .pointer ty) s'
  | free {ty token e s e' s₁ u s'} (pointer : Checks imp P (.expr e) s e' s₁)
      (typed : Runs imp (expectPointer e'.ty token) s₁ u s') :
      Checks imp P (.builtin .free ty token [e]) s ([e'], .void) s'
  | realloc {ty token e n s e' s₁ u s₂ n' s₃ v s'} (pointer : Checks imp P (.expr e) s e' s₁)
      (typed : Runs imp (expectPointer (s₁.resolver.resolve e'.ty) token) s₁ u s₂)
      (size : Checks imp P (.expr n) s₂ n' s₃)
      (sized : Runs imp (expectInteger n'.ty token) s₃ v s') :
      Checks imp P (.builtin .realloc ty token [e, n]) s
        ([e', n'], s₁.resolver.resolve e'.ty) s'
  | codeless {ty token s} :
      Checks imp P (.builtin .asm ty token []) s ([], .todo)
        (s.note ⟨.check
          (.builtinArguments "asm" "a string literal with the assembly"), token.start⟩)
  | asm {ty token e es s u s₁ es' s'} (code : Runs imp (checkAssembly e token) s u s₁)
      (given : Checks imp P (.exprs (e :: es)) s₁ es' s') :
      Checks imp P (.builtin .asm ty token (e :: es)) s (es', ty) s'
  -- Parts of statements.
  | commas {items t token s items' s'} (given : Checks imp P (.exprs items) s items' s') :
      Checks imp P (.list ⟨.comma items, t, token⟩) s ⟨.comma items', .void, token⟩ s'
  | single {e s e' s'} (noComma : ∀ items, e.node ≠ .comma items)
      (value : Checks imp P (.expr e) s e' s') : Checks imp P (.list e) s e' s'
  | condition {token e s e' s₁ u s'} (value : Checks imp P (.expr e) s e' s₁)
      (typed : Runs imp (checkCondition e'.ty token) s₁ u s') :
      Checks imp P (.condition token e) s e' s'
  | unguarded {token s} : Checks imp P (.guard token none) s none s
  | guarded {token e s e' s'} (value : Checks imp P (.condition token e) s e' s') :
      Checks imp P (.guard token (some e)) s (some e') s'
  | nothing {s} : Checks imp P (.result none) s none s
  | something {e s e' s'} (value : Checks imp P (.expr e) s e' s') :
      Checks imp P (.result (some e)) s (some e') s'
  | body {xs s xs' s₁ returns s'}
      (inner : Checks imp P (.stmts xs) { s.enter with returns := false } xs' s₁)
      (left : Runs imp leaveBranch s₁ returns s') : Checks imp P (.body xs) s (xs', returns) s'
  | function {sig name token xs s xs' s₁ u s'}
      (inner : Checks imp P (.stmts xs) (s.enterFunction sig) xs' s₁)
      (left : Runs imp (leaveFunction s sig name token) s₁ u s') :
      Checks imp P (.function sig name token xs) s xs' s'
  | absent {s} : Checks imp P (.clause none) s none s
  | present {x s x' s'} (inner : Checks imp P (.stmt x) s x' s') :
      Checks imp P (.clause (some x)) s (some x') s'
  -- Statements.
  | expression {token e s e' s'} (value : Checks imp P (.expr e) s e' s') :
      Checks imp P (.stmt (.expression token e)) s (.expression token e') s'
  | declare {token name ty value s value' s₁ ty' s₂}
      (given : Checks imp P (.expr value) s value' s₁)
      (typed : Runs imp (declaredType ty value'.ty token) s₁ ty' s₂) :
      Checks imp P (.stmt (.declare token name ty value)) s (.declare token name ty' value')
        (s₂.declare name ty')
  | declareAll {token names ty types value s value' s₁ ty' types' s₂}
      (given : Checks imp P (.list value) s value' s₁)
      (typed : Runs imp (declaredAll token names ty value'.valueTypes) s₁ (ty', types') s₂) :
      Checks imp P (.stmt (.declareAll token names ty types value)) s
        (.declareAll token names ty' types' value') (s₂.declareEach names types')
  | assign {token target value s value' s₁ target' s₂ u s'}
      (given : Checks imp P (.list value) s value' s₁)
      (targets : Checks imp P (.list target) s₁ target' s₂)
      (fits : Runs imp (checkAssignment token target'.valueTypes value'.valueTypes) s₂ u s') :
      Checks imp P (.stmt (.assign token target value)) s (.assign token target' value') s'
  | record {token decl s decl' s'} (declared : Runs imp (recordDecl token decl) s decl' s') :
      Checks imp P (.stmt (.record token decl)) s (.record token decl') s'
  | define {token sig xs s xs' s₁}
      (inner : Checks imp P
        (.function (s.resolver.resolveSignature sig) (Name.bare sig.name) token xs)
        (s.declare sig.name (.func (s.resolver.resolveSignature sig))) xs' s₁) :
      Checks imp P (.stmt (.function token sig xs)) s
        (.function token (s.resolver.resolveSignature sig) xs')
        (s₁.recordFunction ⟨token, s.resolver.resolveSignature sig, xs'⟩)
  | choose {token e xs more s e' s₁ xs' first s₂ more' all s₃}
      (condition : Checks imp P (.condition token e) s e' s₁)
      (taken : Checks imp P (.body xs) s₁ (xs', first) s₂)
      (others : Checks imp P (.branches token more) s₂ (more', all) s₃) :
      Checks imp P (.stmt (.choose token ⟨e, xs⟩ more none)) s
        (.choose token ⟨e', xs'⟩ more' none) { s₃ with returns := false }
  | chooseElse {token e xs more ys s e' s₁ xs' first s₂ more' all s₃ ys' last s₄}
      (condition : Checks imp P (.condition token e) s e' s₁)
      (taken : Checks imp P (.body xs) s₁ (xs', first) s₂)
      (others : Checks imp P (.branches token more) s₂ (more', all) s₃)
      (otherwise : Checks imp P (.body ys) s₃ (ys', last) s₄) :
      Checks imp P (.stmt (.choose token ⟨e, xs⟩ more (some ys))) s
        (.choose token ⟨e', xs'⟩ more' (some ys')) { s₄ with returns := first && all && last }
  | loop {token init e post xs s init' s₁ e' s₂ post' s₃ xs' returns s₄ u s₅ v s'}
      (before : Checks imp P (.clause init) s.enter init' s₁)
      (guard : Checks imp P (.guard token e) s₁ e' s₂)
      (after : Checks imp P (.clause post) s₂ post' s₃)
      (inner : Checks imp P (.body xs) { s₃ with loopDepth := s₃.loopDepth + 1 } (xs', returns) s₄)
      (leftLoop : Runs imp leaveLoop s₄ u s₅)
      (leftScope : Runs imp leaveScope { s₅ with returns := false } v s') :
      Checks imp P (.stmt (.loop token init e post xs)) s (.loop token init' e' post' xs') s'
  | returned {token value s value' s₁ u s'} (given : Checks imp P (.result value) s value' s₁)
      (fits : Runs imp (checkReturn token (value'.elim .void (·.ty))) s₁ u s') :
      Checks imp P (.stmt (.return token value)) s (.return token value') s'
  | breaks {token s u s'} (inLoop : Runs imp (checkInLoop "break" token) s u s') :
      Checks imp P (.stmt (.break token)) s (.break token) s'
  | continues {token s u s'} (inLoop : Runs imp (checkInLoop "continue" token) s u s') :
      Checks imp P (.stmt (.continue token)) s (.continue token) s'
  | external {token sig s} :
      Checks imp P (.stmt (.external token sig)) s
        (.external token (s.resolver.resolveSignature sig))
        (s.declare (Name.qualify sig.name s.env.id) (.func (s.resolver.resolveSignature sig)))
  | importUnit {token name typeArgs path s typeArgs' s₁ u s'}
      (types : Runs imp (resolveTypeArgs token typeArgs) s typeArgs' s₁)
      (imported : Runs imp (importUnit token name typeArgs' path) s₁ u s') :
      Checks imp P (.stmt (.importUnit token name typeArgs path)) s
        (.importUnit token name typeArgs' path) s'
  | generic {token name ty s} :
      Checks imp P (.stmt (.generic token name ty)) s (.generic token name ty) s
  -- Lists of statements and of branches.
  | branchesNil {token s} : Checks imp P (.branches token []) s ([], true) s
  | branchesCons {token e xs bs s e' s₁ xs' first s₂ bs' all s'}
      (condition : Checks imp P (.condition token e) s e' s₁)
      (taken : Checks imp P (.body xs) s₁ (xs', first) s₂)
      (others : Checks imp P (.branches token bs) s₂ (bs', all) s') :
      Checks imp P (.branches token (⟨e, xs⟩ :: bs)) s (⟨e', xs'⟩ :: bs', first && all) s'
  | stmtsNil {s} (reached : s.returns = false) : Checks imp P (.stmts []) s [] s
  | stmtsCons {x xs s x' s₁ xs' s'} (reached : s.returns = false)
      (first : Checks imp P (.stmt x) s x' s₁) (rest : Checks imp P (.stmts xs) s₁ xs' s') :
      Checks imp P (.stmts (x :: xs)) s (x' :: xs') s'
  | dead {xs s} (notReached : s.returns = true) : Checks imp P (.stmts xs) s xs s
  | topNil {s} : Checks imp P (.top []) s [] s
  | topCons {x xs s x' s₁ xs' s'} (first : Checks imp P (.stmt x) s x' s₁)
      (rest : Checks imp P (.top xs) s₁ xs' s') : Checks imp P (.top (x :: xs)) s (x' :: xs') s'

end

namespace Checks

variable {imp : Importer} {P : Law} {s s' : CheckState}

theorem comma_of_comma {e e' : Expr} (h : Checks imp P (.expr e) s e' s')
    {items : List Expr} (comma : e'.node = .comma items) : ∃ items', e.node = .comma items' := by
  cases h with
  | expr node _ =>
    cases node with
    | literal _ => exact ⟨items, comma⟩
    | comma _ => exact ⟨_, rfl⟩
    | _ => exact absurd comma (by simp [Check.todo])

theorem valueTypes_of_single {e e' : Expr} (h : Checks imp P (.expr e) s e' s')
    (noComma : ∀ items, e.node ≠ .comma items) : e'.valueTypes = [e'.ty] := by
  unfold Expr.valueTypes
  split
  case h_1 items comma =>
    obtain ⟨items', written⟩ := h.comma_of_comma comma
    exact absurd written (noComma items')
  case h_2 => rfl

end Checks

end FrontEnd
