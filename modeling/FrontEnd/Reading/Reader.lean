import FrontEnd.Diagnostic.Basic
import FrontEnd.Name
import FrontEnd.Syntax.Basic
import FrontEnd.Token.Cursor

namespace FrontEnd

structure Reader where
  /-- The tokens that are left, without the end of the file. -/
  tokens : List Token
  eof : Token
  /-- The id that qualifies the names of the unit. -/
  unit : String
  /-- The id of the next record. -/
  nextId : Nat
  /-- The types given by the importer that no `type` statement has taken yet. -/
  typeArgs : List Ty
  /-- The names bound by `type` statements, the latest first. -/
  generics : List (String × Ty)
  errors : List Diagnostic
  maxErrors : Nat

structure ReadOptions where
  unit : String
  typeArgs : List Ty
  nextId : Nat
  maxErrors : Nat

namespace Reader

def ofCursor (c : Cursor) (o : ReadOptions) : Reader :=
  let tokens := c.tokens
  { tokens := tokens.dropLast
    eof := tokens.getLastD c.eofToken
    unit := o.unit
    nextId := o.nextId
    typeArgs := o.typeArgs
    generics := []
    errors := []
    maxErrors := max 1 o.maxErrors }

def current (r : Reader) : Token :=
  r.tokens.headD r.eof

def peek (r : Reader) : Token :=
  r.tokens.tail.headD r.eof

def kind (r : Reader) : Kind :=
  r.current.kind

def hasTokens (r : Reader) : Bool :=
  r.kind != .eof

def qualify (r : Reader) (name : String) : String :=
  Name.qualify name r.unit

def generic? (r : Reader) (name : String) : Option Ty :=
  r.generics.lookup name

def isSaturated (r : Reader) : Bool :=
  r.maxErrors ≤ r.errors.length

def unexpected (r : Reader) (expected : String) : Diagnostic :=
  ⟨.parse (.unexpectedToken expected r.current.text), r.current.start⟩

end Reader

/-- Reading something from the tokens that are left. A failure keeps the tokens that were read
before it. -/
abbrev Parse := ExceptT Diagnostic (StateM Reader)

namespace Parse

def current : Parse Token :=
  return (← get).current

def kind : Parse Kind :=
  return (← get).kind

def peekKind : Parse Kind :=
  return (← get).peek.kind

def hasTokens : Parse Bool :=
  return (← get).hasTokens

def qualify (name : String) : Parse String :=
  return (← get).qualify name

def failAt {α : Type} (e : ParseError) (position : Position) : Parse α :=
  throw ⟨.parse e, position⟩

def unexpected {α : Type} (expected : String) : Parse α := do
  throw ((← get).unexpected expected)

/-- Takes the current token. The end of the file is never taken away. -/
def advance : Parse Token := do
  let r ← get
  set { r with tokens := r.tokens.tail }
  return r.current

def expect (k : Kind) : Parse Token := do
  if (← kind) = k then advance else unexpected k.name

def skip (ks : List Kind) : Parse Unit :=
  modify fun r => { r with tokens := r.tokens.dropWhile fun t => ks.contains t.kind }

def skipSemicolons : Parse Unit :=
  skip [.semicolon]

def record (d : Diagnostic) : Parse Unit :=
  modify fun r => if r.isSaturated then r else { r with errors := r.errors ++ [d] }

def freshId : Parse Nat := do
  let r ← get
  set { r with nextId := r.nextId + 1 }
  return r.nextId

def nextTypeArg : Parse (Option Ty) := do
  let r ← get
  set { r with typeArgs := r.typeArgs.tail }
  return r.typeArgs.head?

def defineGeneric (name : String) (ty : Ty) : Parse Unit :=
  modify fun r => { r with generics := (name, ty) :: r.generics }

def attempt {α : Type} (p : Parse α) : Parse (Except Diagnostic α) :=
  ExceptT.mk fun r =>
    match p.run r with
    | (result, r) => (.ok result, r)

def loopWithin {α β : Type} (step : β → Parse (β ⊕ α)) (bound : List Token) (b : β) : Parse α := do
  match ← step b with
  | .inr a => return a
  | .inl b =>
    match bound with
    | [] => unexpected Kind.eof.name
    | _ :: bound => loopWithin step bound b

/-- Repeats a step until it gives a result on the right. A step that goes on has to take a token,
so that the tokens left are bound enough. -/
def loop {α β : Type} (step : β → Parse (β ⊕ α)) (b : β) : Parse α := do
  loopWithin step (← get).tokens b

def commaList {α : Type} (closing : Kind) (item : Parse α) : Parse (List α × Token) :=
  loop (fun items => do
    if (← kind) = closing then
      return .inr (items.reverse, ← expect closing)
    let a ← item
    if (← kind) = .comma then
      let _ ← advance
    else if (← kind) ≠ closing then
      unexpected closing.name
    return .inl (a :: items)) []

end Parse

end FrontEnd
