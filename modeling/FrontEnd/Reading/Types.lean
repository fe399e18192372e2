import FrontEnd.Number.Literal
import FrontEnd.Reading.Reader

namespace FrontEnd

def Kind.startsType : Kind → Bool
  | .identifier | .star | .openBracket | .kwFunc => true
  | _ => false

namespace Parse

def dottedName (first : String) : Parse (List String) :=
  loop (fun words => do
    if (← kind) = .dot ∧ (← peekKind) = .identifier then
      let _ ← advance
      return .inl ((← advance).value :: words)
    else return .inr words.reverse) [first]

def namedType : Parse Ty := do
  let token ← expect .identifier
  match Ty.primitive? token.value, (← get).generic? token.value with
  | some ty, _ => return ty
  | none, some ty => return ty
  | none, none =>
    let words ← dottedName token.value
    let names := words.map (← get).qualify
    return .named ⟨names.getLastD "", names.dropLast⟩

def arrayLength : Parse Nat := do
  let token ← advance
  match Literal.length? token with
  | some n => return n
  | none => failAt (.invalidArraySize token.text) token.start

/-- The result type after a closing parenthesis: it has to begin on the same line, and is `void`
otherwise. -/
def resultAfter (type : Parse Ty) (close : Token) : Parse Ty := do
  let token ← current
  if token.kind.startsType ∧ token.line = close.line then type else return .void

def typeWithin : List Token → Parse Ty
  | [] => unexpected "type"
  | _ :: bound => do
    match ← kind with
    | .identifier => namedType
    | .star =>
      let _ ← advance
      return .pointer (← typeWithin bound)
    | .openBracket =>
      let _ ← advance
      let length ← arrayLength
      let _ ← expect .closeBracket
      return .array (← typeWithin bound) length
    | .kwFunc =>
      let _ ← advance
      let _ ← expect .openParen
      let (params, close) ← commaList .closeParen (typeWithin bound)
      let result ← resultAfter (typeWithin bound) close
      return .func ⟨"", params, params.map fun _ => "", result⟩
    | _ => unexpected "type"

/-- Reads a type. A type within another one is read after a token of the outer one, so types nest
no deeper than there are tokens. -/
def type : Parse Ty := do
  typeWithin (← get).tokens

def param : Parse (String × Ty) := do
  let name ← expect .identifier
  return (← qualify name.value, ← type)

def params : Parse (List (String × Ty) × Token) := do
  let _ ← expect .openParen
  commaList .closeParen param

def resultBeforeBody : Parse Ty := do
  if (← kind) = .openCurly then return .void else type

def signatureOf (name : String) (params : List (String × Ty)) (result : Ty) : Signature :=
  ⟨name, params.map (·.2), params.map (·.1), result⟩

end Parse

end FrontEnd
