import FrontEnd.Token.Escape

namespace FrontEnd

/-- A nonnegative binary64 number: `mantissa * 2 ^ exponent`, or infinity. -/
inductive Double where
  | finite (mantissa : Nat) (exponent : Int)
  | infinite
  deriving DecidableEq, Repr

namespace Double

def minExponent : Int :=
  -1074

def maxExponent : Int :=
  971

def least : Nat :=
  4503599627370496

def zero : Double :=
  .finite 0 minExponent

/-- The nearest natural number to `num / den`; a half goes to the even neighbour. -/
def roundDiv (num den : Nat) : Nat :=
  let q := num / den
  let r := num % den
  if 2 * r < den then q
  else if den < 2 * r then q + 1
  else if q % 2 = 0 then q else q + 1

def scaled (num den : Nat) (e : Int) : Nat × Nat :=
  if e < 0 then (num * Nat.pow 2 e.natAbs, den) else (num, den * Nat.pow 2 e.natAbs)

def exponentOf (num den : Nat) : Int :=
  let e : Int := (num.log2 : Int) - (den.log2 : Int) - 53
  let f := scaled num den e
  max minExponent (if f.1 / f.2 < 2 * least then e else e + 1)

/-- The binary64 number nearest to `num / den`; a tie goes to the even mantissa, and what is too
large is infinite. -/
def ofFraction (num den : Nat) : Double :=
  if num = 0 then zero
  else
    let e := exponentOf num den
    let f := scaled num den e
    let m := roundDiv f.1 f.2
    let (m, e) := if m = 2 * least then (least, e + 1) else (m, e)
    if maxExponent < e then .infinite else .finite m e

structure Decimal where
  digits : Nat
  exponent : Int
  deriving DecidableEq, Repr

def Decimal.round (d : Decimal) : Double :=
  if d.exponent < 0 then ofFraction d.digits (Nat.pow 10 d.exponent.natAbs)
  else ofFraction (d.digits * Nat.pow 10 d.exponent.natAbs) 1

def digits (cs : List Char) : List Char × List Char :=
  (cs.takeWhile Char.isDigit, cs.dropWhile Char.isDigit)

def fraction : List Char → List Char × List Char
  | '.' :: c :: cs => if c.isDigit then digits (c :: cs) else ([], '.' :: c :: cs)
  | cs => ([], cs)

def exponent : List Char → Int × List Char
  | 'e' :: '-' :: cs => (-Escape.numeral 10 (digits cs).1, (digits cs).2)
  | 'e' :: cs => (Escape.numeral 10 (digits cs).1, (digits cs).2)
  | cs => (0, cs)

/-- The numeral that a text begins with, and what follows it. -/
def numeral (cs : List Char) : Decimal × List Char :=
  let (whole, cs) := digits cs
  let (part, cs) := fraction cs
  let (x, cs) := exponent cs
  (⟨Escape.numeral 10 (whole ++ part), x - (part.length : Int)⟩, cs)

/-- The fraction `m * 2 ^ e / 10 ^ p`. -/
def ratio (m : Nat) (e p : Int) : Nat × Nat :=
  let num := if e < 0 then m else m * Nat.pow 2 e.natAbs
  let den := if e < 0 then Nat.pow 2 e.natAbs else 1
  if p < 0 then (num * Nat.pow 10 p.natAbs, den) else (num, den * Nat.pow 10 p.natAbs)

/-- The exponent `x` with `10 ^ x ≤ m * 2 ^ e < 10 ^ (x + 1)`, for a positive number: no number is
below `10 ^ -400`. -/
def magnitude (m : Nat) (e : Int) : Int :=
  let f := ratio m e (-400)
  ((Nat.toDigits 10 (f.1 / f.2)).length : Int) - 401

/-- The decimals with `k` digits on both sides of `m * 2 ^ e`, the nearer one first, and the upper
one when they are equally near. -/
def neighbours (m : Nat) (e : Int) (k : Nat) : List Decimal :=
  let p := magnitude m e - (k : Int) + 1
  let f := ratio m e p
  let c := f.1 / f.2
  if f.2 ≤ 2 * (f.1 % f.2) then [⟨c + 1, p⟩, ⟨c, p⟩] else [⟨c, p⟩, ⟨c + 1, p⟩]

def significant (d : Decimal) : List Char × Int :=
  let ds := Nat.toDigits 10 d.digits
  (((ds.reverse.dropWhile (· = '0')).reverse), d.exponent + (ds.length : Int) - 1)

/-- Numbers are written positionally from `10 ^ low` up to `10 ^ high`. -/
structure Format where
  low : Int
  high : Int

def format : Format :=
  ⟨-4, 16⟩

def zeros (n : Nat) : List Char :=
  List.replicate n '0'

def assemble (whole part : List Char) (x? : Option Int) : List Char :=
  whole ++ ((if part.isEmpty then [] else '.' :: part) ++
    x?.elim [] fun x => 'e' :: (toString x).toList)

/-- Positional notation, with a digit on each side of the point at least. -/
def positional (ds : List Char) (x : Int) : List Char :=
  let n := x.toNat + 1
  let (whole, part) :=
    if x < 0 then (['0'], zeros (x.natAbs - 1) ++ ds)
    else (ds.take n ++ zeros (n - ds.length), ds.drop n)
  assemble whole (if part.isEmpty then ['0'] else part) none

def scientific (ds : List Char) (x : Int) : List Char :=
  assemble [ds.headD '0'] (ds.drop 1) (some x)

def Decimal.chars (d : Decimal) : List Char :=
  let (ds, x) := significant d
  if format.low ≤ x ∧ x < format.high then positional ds x else scientific ds x

/-- The shortest decimal that reads back as the number. Seventeen digits always suffice. -/
def shortest? (v : Double) : Option Decimal :=
  match v with
  | .infinite => none
  | .finite 0 _ => [Decimal.mk 0 0].find? fun d => (numeral d.chars).1.round = v
  | .finite m e => (List.range 17).findSome? fun k =>
      (neighbours m e (k + 1)).find? fun d => (numeral d.chars).1.round = v

def text (v : Double) : String :=
  match v.shortest? with
  | some d => String.ofList d.chars
  | none => "inf"

end Double

end FrontEnd
