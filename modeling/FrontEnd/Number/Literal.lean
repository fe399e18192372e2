import FrontEnd.Number.Double
import FrontEnd.Number.Word
import FrontEnd.Token.Basic
import FrontEnd.Token.Escape

namespace FrontEnd.Literal

def natural? (t : Token) : Option Nat :=
  match t.kind with
  | .integer => some (Escape.numeral 10 t.value.toList)
  | .hex => some (Escape.numeral 16 (t.value.toList.drop 2))
  | .binary => some (Escape.numeral 2 (t.value.toList.drop 2))
  | _ => none

def below? (limit : Nat) (t : Token) : Option Nat :=
  (natural? t).filter (· < limit)

def integer? (t : Token) : Option Nat :=
  below? Word.signedLimit t

def length? (t : Token) : Option Nat :=
  below? Word.limit t

def float (t : Token) : Double :=
  let whole := t.value.toList.takeWhile (· ≠ '.')
  let part := (t.value.toList.dropWhile (· ≠ '.')).drop 1
  Double.ofFraction (Escape.numeral 10 (whole ++ part)) (Nat.pow 10 part.length)

end FrontEnd.Literal
