import FrontEnd.Text.Blank
import FrontEnd.Token.Basic
import FrontEnd.Token.Escape

namespace FrontEnd

inductive Pattern where
  | blank
  | comment
  | word
  | hex
  | binary
  | float
  | integer
  | string
  | symbol (kind : Kind) (spelling : String)
  deriving DecidableEq, Repr

namespace Pattern

def isWordStart (c : Char) : Bool :=
  c.isAlpha || c == '_'

def isWordPart (c : Char) : Bool :=
  c.isAlphanum || c == '_'

def isBit (c : Char) : Bool :=
  c == '0' || c == '1'

def run (p : Char → Bool) (cs : List Char) : Option (List Char) :=
  match cs.takeWhile p with
  | [] => none
  | ds => some ds

/-- The body of a string literal with its closing quote: pairs of a backslash and a character
other than a line break, and characters other than quotes and backslashes. -/
def stringBody : List Char → Option (List Char)
  | '"' :: _ => some ['"']
  | '\\' :: c :: cs => if c = '\n' then none else (stringBody cs).map ('\\' :: c :: ·)
  | ['\\'] => none
  | c :: cs => (stringBody cs).map (c :: ·)
  | [] => none

def lexeme : Pattern → List Char → Option (List Char)
  | .blank, cs => run Text.isBlank cs
  | .comment, '/' :: '/' :: cs => some ('/' :: '/' :: cs.takeWhile (· ≠ '\n'))
  | .comment, _ => none
  | .word, c :: cs => if isWordStart c then some (c :: cs.takeWhile isWordPart) else none
  | .word, [] => none
  | .hex, '0' :: 'x' :: cs => (run Escape.isHexDigit cs).map ('0' :: 'x' :: ·)
  | .hex, _ => none
  | .binary, '0' :: 'b' :: cs => (run isBit cs).map ('0' :: 'b' :: ·)
  | .binary, _ => none
  | .float, cs =>
    match run Char.isDigit cs, cs.dropWhile Char.isDigit with
    | some whole, '.' :: rest => (run Char.isDigit rest).map fun part => whole ++ '.' :: part
    | _, _ => none
  | .integer, cs => run Char.isDigit cs
  | .string, '"' :: cs => (stringBody cs).map ('"' :: ·)
  | .string, _ => none
  | .symbol _ s, cs => if s.toList.isPrefixOf cs then some s.toList else none

/-- All patterns, in the order in which they are tried. A symbol stands before the symbols that it
begins with. -/
def table : List Pattern :=
  [.blank, .comment, .word, .hex, .binary, .float, .integer, .string,
   .symbol .openBracket "[", .symbol .closeBracket "]",
   .symbol .openCurly "\x7b", .symbol .closeCurly "\x7d",
   .symbol .openParen "(", .symbol .closeParen ")",
   .symbol .equals "==", .symbol .notEquals "!=", .symbol .not "!", .symbol .assignment "=",
   .symbol .shiftLeft "<<", .symbol .lessEquals "<=", .symbol .less "<",
   .symbol .shiftRight ">>", .symbol .greaterEquals ">=", .symbol .greater ">",
   .symbol .or "||", .symbol .pipe "|", .symbol .and "&&", .symbol .ampersand "&",
   .symbol .caret "^", .symbol .at "@", .symbol .dot ".", .symbol .semicolon ";",
   .symbol .colon ":", .symbol .comma ",", .symbol .plus "+", .symbol .dash "-",
   .symbol .slash "/", .symbol .star "*", .symbol .percent "%"]

def first (cs : List Char) : Option (Pattern × List Char) :=
  table.findSome? fun p => (p.lexeme cs).map (p, ·)

/-- The token of a string literal: its text, or an illegal token when the literal holds an escape
that names no character. -/
def stringToken (lexeme : List Char) : Kind × String :=
  match Escape.unescape lexeme.tail.dropLast with
  | .ok cs => (.string, String.ofList cs)
  | .error ds => (.illegal, String.ofList ('\\' :: 'x' :: ds))

def token? : Pattern → List Char → Option (Kind × String)
  | .blank, _ => none
  | .comment, _ => none
  | .word, cs => some (Kind.ofWord (String.ofList cs), String.ofList cs)
  | .hex, cs => some (.hex, String.ofList cs)
  | .binary, cs => some (.binary, String.ofList cs)
  | .float, cs => some (.float, String.ofList cs)
  | .integer, cs => some (.integer, String.ofList cs)
  | .string, cs => some (stringToken cs)
  | .symbol kind spelling, _ => some (kind, spelling)

end Pattern

end FrontEnd
