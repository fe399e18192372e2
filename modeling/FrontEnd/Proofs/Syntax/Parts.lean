import FrontEnd.Proofs.Typing.Rules

namespace FrontEnd

inductive Part where
  /-- An expression, with the result of the function around it. -/
  | expr (around : Option Ty) (e : Expr)
  | stmt (x : Stmt)

mutual

def Expr.parts (around : Option Ty) : Expr → List Part
  | ⟨node, ty, token⟩ => .expr around ⟨node, ty, token⟩ :: node.parts around

def Node.parts (around : Option Ty) : Node → List Part
  | .ident _ | .integer _ | .float _ | .string _ => []
  | .binary _ left right => left.parts around ++ right.parts around
  | .unary _ operand => operand.parts around
  | .index base index => base.parts around ++ index.parts around
  | .call callee args => callee.parts around ++ Expr.partsOf around args
  | .builtin _ _ args => Expr.partsOf around args
  | .structLit _ _ fields => Expr.partsOfFields around fields
  | .arrayLit _ elements => Expr.partsOf around elements
  | .comma items => Expr.partsOf around items
  | .function sig body => Stmt.reached (some sig.result) body

def Expr.partsOf (around : Option Ty) : List Expr → List Part
  | [] => []
  | e :: es => e.parts around ++ Expr.partsOf around es

def Expr.partsOfFields (around : Option Ty) : List FieldInit → List Part
  | [] => []
  | ⟨_, e⟩ :: fs => e.parts around ++ Expr.partsOfFields around fs

def Stmt.inner (around : Option Ty) : Stmt → List Part
  | .expression _ e => e.parts around
  | .declare _ _ _ value => value.parts around
  | .declareAll _ _ _ _ value => value.parts around
  | .assign _ target value => value.parts around ++ target.parts around
  | .function _ sig body => Stmt.reached (some sig.result) body
  | .choose _ ⟨condition, body⟩ more otherwise =>
    condition.parts around ++ Stmt.reached around body ++ Stmt.reachedIn around more ++
      match otherwise with
      | some xs => Stmt.reached around xs
      | none => []
  | .loop _ init condition post body =>
    (match init with
      | some x => .stmt x :: x.inner around
      | none => []) ++
    (match condition with
      | some e => e.parts around
      | none => []) ++
    (match post with
      | some x => .stmt x :: x.inner around
      | none => []) ++ Stmt.reached around body
  | .return _ value =>
    match value with
    | some e => e.parts around
    | none => []
  | .record _ _ | .break _ | .continue _ | .external _ _ | .importUnit _ _ _ _
  | .generic _ _ _ => []

/-- The parts of a block, up to the first statement that returns on every path. -/
def Stmt.reached (around : Option Ty) : List Stmt → List Part
  | [] => []
  | x :: xs =>
    .stmt x :: x.inner around ++ if x.returns then [] else Stmt.reached around xs

def Stmt.reachedIn (around : Option Ty) : List Branch → List Part
  | [] => []
  | ⟨condition, body⟩ :: bs =>
    condition.parts around ++ Stmt.reached around body ++ Stmt.reachedIn around bs

end

def Stmt.parts (around : Option Ty) (x : Stmt) : List Part :=
  .stmt x :: x.inner around

def Program.parts (p : Program) : List Part :=
  p.statements.flatMap (Stmt.parts none)

variable {around : Option Ty}

theorem Stmt.inner_choose (token : Token) (condition : Expr) (body : List Stmt)
    (more : List Branch) (otherwise : Option (List Stmt)) :
    (Stmt.choose token ⟨condition, body⟩ more otherwise).inner around =
      condition.parts around ++ Stmt.reached around body ++ Stmt.reachedIn around more ++
        otherwise.elim [] (Stmt.reached around) := by
  cases otherwise <;> rfl

theorem Stmt.inner_loop (token : Token) (init : Option Stmt) (condition : Option Expr)
    (post : Option Stmt) (body : List Stmt) :
    (Stmt.loop token init condition post body).inner around =
      init.elim [] (Stmt.parts around) ++ condition.elim [] (Expr.parts around) ++
        post.elim [] (Stmt.parts around) ++ Stmt.reached around body := by
  cases init <;> cases condition <;> cases post <;> rfl

theorem Stmt.inner_return (token : Token) (value : Option Expr) :
    (Stmt.return token value).inner around = value.elim [] (Expr.parts around) := by
  cases value <;> rfl

end FrontEnd
