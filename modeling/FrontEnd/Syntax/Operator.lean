import FrontEnd.Token.Basic

namespace FrontEnd

inductive InfixOp where
  | add | subtract | multiply | divide | modulo
  | and | or | bitAnd | bitOr | bitXor | shiftLeft | shiftRight
  | equals | notEquals | less | lessEquals | greater | greaterEquals
  | assign | dot
  deriving DecidableEq, Repr

inductive PrefixOp where
  | not | negate | identity | dereference | reference
  deriving DecidableEq, Repr

namespace InfixOp

def ofKind? : Kind → Option InfixOp
  | .plus => some .add
  | .dash => some .subtract
  | .star => some .multiply
  | .slash => some .divide
  | .percent => some .modulo
  | .and => some .and
  | .or => some .or
  | .ampersand => some .bitAnd
  | .pipe => some .bitOr
  | .caret => some .bitXor
  | .shiftLeft => some .shiftLeft
  | .shiftRight => some .shiftRight
  | .equals => some .equals
  | .notEquals => some .notEquals
  | .less => some .less
  | .lessEquals => some .lessEquals
  | .greater => some .greater
  | .greaterEquals => some .greaterEquals
  | .assignment => some .assign
  | .dot => some .dot
  | _ => none

def symbol : InfixOp → String
  | .add => "+"
  | .subtract => "-"
  | .multiply => "*"
  | .divide => "/"
  | .modulo => "%"
  | .and => "&&"
  | .or => "||"
  | .bitAnd => "&"
  | .bitOr => "|"
  | .bitXor => "^"
  | .shiftLeft => "<<"
  | .shiftRight => ">>"
  | .equals => "=="
  | .notEquals => "!="
  | .less => "<"
  | .lessEquals => "<="
  | .greater => ">"
  | .greaterEquals => ">="
  | .assign => "="
  | .dot => "."

def isComparison : InfixOp → Bool
  | .equals | .notEquals | .less | .lessEquals | .greater | .greaterEquals | .and | .or => true
  | _ => false

end InfixOp

namespace PrefixOp

def ofKind? : Kind → Option PrefixOp
  | .not => some .not
  | .dash => some .negate
  | .plus => some .identity
  | .star => some .dereference
  | .ampersand => some .reference
  | _ => none

def symbol : PrefixOp → String
  | .not => "!"
  | .negate => "-"
  | .identity => "+"
  | .dereference => "*"
  | .reference => "&"

end PrefixOp

end FrontEnd
