import FrontEnd.Position

namespace FrontEnd

inductive Kind where
  | eof | illegal | identifier | integer | float | hex | binary | string | openBracket
  | closeBracket | openCurly | closeCurly | openParen | closeParen | assignment | equals | not
  | notEquals | less | lessEquals | greater | greaterEquals | shiftLeft | shiftRight | or | and
  | ampersand | pipe | caret | at | dot | semicolon | colon | comma | plus | dash | slash | star
  | percent | kwFunc | kwTrue | kwFalse | kwIf | kwElse | kwFor | kwReturn | kwStruct | kwUnion
  | kwImport | kwBreak | kwContinue | kwExtern | kwType | kwAs
  deriving DecidableEq, Repr

namespace Kind

def name : Kind → String
  | .eof => "EOF"
  | .illegal => "Illegal"
  | .identifier => "Identifier"
  | .integer => "Integer"
  | .float => "Float"
  | .hex => "Hex"
  | .binary => "Binary"
  | .string => "String"
  | .openBracket => "OpenBracket"
  | .closeBracket => "CloseBracket"
  | .openCurly => "OpenCurly"
  | .closeCurly => "CloseCurly"
  | .openParen => "OpenParen"
  | .closeParen => "CloseParen"
  | .assignment => "Assignment"
  | .equals => "Equals"
  | .not => "Not"
  | .notEquals => "NotEquals"
  | .less => "Less"
  | .lessEquals => "LessEquals"
  | .greater => "Greater"
  | .greaterEquals => "GreaterEquals"
  | .shiftLeft => "ShiftLeft"
  | .shiftRight => "ShiftRight"
  | .or => "Or"
  | .and => "And"
  | .ampersand => "Ampersand"
  | .pipe => "Pipe"
  | .caret => "Caret"
  | .at => "At"
  | .dot => "Dot"
  | .semicolon => "Semicolon"
  | .colon => "Colon"
  | .comma => "Comma"
  | .plus => "Plus"
  | .dash => "Dash"
  | .slash => "Slash"
  | .star => "Star"
  | .percent => "Percent"
  | .kwFunc => "Func"
  | .kwTrue => "True"
  | .kwFalse => "False"
  | .kwIf => "If"
  | .kwElse => "Else"
  | .kwFor => "For"
  | .kwReturn => "Return"
  | .kwStruct => "Struct"
  | .kwUnion => "Union"
  | .kwImport => "Import"
  | .kwBreak => "Break"
  | .kwContinue => "Continue"
  | .kwExtern => "Extern"
  | .kwType => "Type"
  | .kwAs => "As"

def all : List Kind :=
  [.eof, .illegal, .identifier, .integer, .float, .hex, .binary, .string, .openBracket,
   .closeBracket, .openCurly, .closeCurly, .openParen, .closeParen, .assignment, .equals,
   .not, .notEquals, .less, .lessEquals, .greater, .greaterEquals, .shiftLeft, .shiftRight,
   .or, .and, .ampersand, .pipe, .caret, .at, .dot, .semicolon, .colon, .comma, .plus, .dash,
   .slash, .star, .percent, .kwFunc, .kwTrue, .kwFalse, .kwIf, .kwElse, .kwFor, .kwReturn,
   .kwStruct, .kwUnion, .kwImport, .kwBreak, .kwContinue, .kwExtern, .kwType, .kwAs]

def ofName? (s : String) : Option Kind :=
  all.find? fun k => k.name == s

def reserved : List (String × Kind) :=
  [("func", .kwFunc), ("true", .kwTrue), ("false", .kwFalse), ("if", .kwIf), ("else", .kwElse),
   ("for", .kwFor), ("return", .kwReturn), ("struct", .kwStruct), ("union", .kwUnion),
   ("import", .kwImport), ("break", .kwBreak), ("continue", .kwContinue), ("extern", .kwExtern),
   ("type", .kwType), ("as", .kwAs)]

def ofWord (s : String) : Kind :=
  (reserved.lookup s).getD .identifier

end Kind

structure Token where
  kind : Kind
  value : String
  span : Span
  deriving DecidableEq, Repr

namespace Token

def start (t : Token) : Position :=
  t.span.start

def line (t : Token) : Nat :=
  t.span.start.line

def text (t : Token) : String :=
  match t.kind with
  | .eof => "end of file"
  | .string => "\"" ++ t.value ++ "\""
  | _ => t.value

end Token

end FrontEnd
