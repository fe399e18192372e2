import FrontEnd.Syntax.Operator
import FrontEnd.Ty.Basic

namespace FrontEnd

inductive Power where
  | default | assignment | comma | logical | relational | additive | bitwise | multiplicative
  | cast | unary | call | index | member
  deriving DecidableEq, Repr

namespace Power

def all : List Power :=
  [.default, .assignment, .comma, .logical, .relational, .additive, .bitwise, .multiplicative,
   .cast, .unary, .call, .index, .member]

def rank : Power → Nat
  | .default => 0
  | .assignment => 1
  | .comma => 2
  | .logical => 3
  | .relational => 4
  | .additive => 5
  | .bitwise => 6
  | .multiplicative => 7
  | .cast => 8
  | .unary => 9
  | .call => 10
  | .index => 11
  | .member => 12

instance : LT Power :=
  ⟨fun p q => p.rank < q.rank⟩

instance (p q : Power) : Decidable (p < q) :=
  inferInstanceAs (Decidable (p.rank < q.rank))

end Power

def InfixOp.power : InfixOp → Power
  | .add | .subtract => .additive
  | .multiply | .divide | .modulo => .multiplicative
  | .and | .or => .logical
  | .bitAnd | .bitOr | .bitXor | .shiftLeft | .shiftRight => .bitwise
  | .equals | .notEquals | .less | .lessEquals | .greater | .greaterEquals => .relational
  | .assign => .assignment
  | .dot => .member

inductive InfixForm where
  | operator (op : InfixOp)
  | comma
  | cast
  | call
  | index
  | member
  deriving DecidableEq, Repr

def InfixForm.power : InfixForm → Power
  | .operator op => op.power
  | .comma => .comma
  | .cast => .cast
  | .call => .call
  | .index => .index
  | .member => .member

inductive PrefixForm where
  | literal
  | operator (op : PrefixOp)
  | group
  | at
  | array
  | function
  deriving DecidableEq, Repr

inductive StmtForm where
  | choose | loop | record (kind : RecordKind) | function | return | importUnit | break | continue
  | external | generic
  deriving DecidableEq, Repr

namespace Kind

def infixForm? : Kind → Option InfixForm
  | .comma => some .comma
  | .kwAs => some .cast
  | .openParen => some .call
  | .openBracket => some .index
  | .dot => some .member
  | k => (InfixOp.ofKind? k).map .operator

def power (k : Kind) : Power :=
  match k.infixForm? with
  | some f => f.power
  | none => .default

def prefixForm? : Kind → Option PrefixForm
  | .integer | .hex | .binary | .float | .string | .kwTrue | .kwFalse | .identifier =>
    some .literal
  | .openParen => some .group
  | .at => some .at
  | .openBracket => some .array
  | .kwFunc => some .function
  | k => (PrefixOp.ofKind? k).map .operator

def stmtForm? : Kind → Option StmtForm
  | .kwIf => some .choose
  | .kwFor => some .loop
  | .kwStruct => some (.record .struct)
  | .kwUnion => some (.record .union)
  | .kwFunc => some .function
  | .kwReturn => some .return
  | .kwImport => some .importUnit
  | .kwBreak => some .break
  | .kwContinue => some .continue
  | .kwExtern => some .external
  | .kwType => some .generic
  | _ => none

end Kind

end FrontEnd
