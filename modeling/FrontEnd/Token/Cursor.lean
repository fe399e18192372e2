import FrontEnd.Number.Word
import FrontEnd.Token.Pattern

namespace FrontEnd

structure Cursor where
  rest : List Char
  position : Position
  deriving DecidableEq, Repr

namespace Cursor

def defaultFile : String :=
  "shell"

def ofSource (source file : String) : Cursor :=
  ⟨source.toList, .start file⟩

def atEnd (c : Cursor) : Bool :=
  c.rest.isEmpty

def pass (c : Cursor) (lexeme : List Char) : Cursor :=
  ⟨c.rest.drop lexeme.length, c.position.pastAll lexeme⟩

def emit (c : Cursor) (kind : Kind) (value : String) (lexeme : List Char) : Token × Cursor :=
  (⟨kind, value, ⟨c.position, (c.pass lexeme).position⟩⟩, c.pass lexeme)

def step (c : Cursor) : Option Token × Cursor :=
  match Pattern.first c.rest with
  | some (p, lexeme) =>
    match p.token? lexeme with
    | some (kind, value) => (some (c.emit kind value lexeme).1, c.pass lexeme)
    | none => (none, c.pass lexeme)
  | none =>
    match c.rest with
    | ch :: _ => (some (c.emit .illegal (String.singleton ch) [ch]).1, c.pass [ch])
    | [] => (none, c)

def eofToken (c : Cursor) : Token :=
  ⟨.eof, "EOF", ⟨c.position, c.position⟩⟩

def nextWithin : Nat → Cursor → Token × Cursor
  | 0, c => (c.eofToken, c)
  | n + 1, c =>
    if c.atEnd then (c.eofToken, c)
    else
      match c.step with
      | (some t, c) => (t, c)
      | (none, c) => nextWithin n c

/-- The next token and the cursor after it. At the end of the text this is the end-of-file token,
however often it is asked for. Every lexeme has a character, so there are no more lexemes than
characters left. -/
def next (c : Cursor) : Token × Cursor :=
  nextWithin (c.rest.length + 1) c

def tokensWithin : Nat → Cursor → List Token
  | 0, c => [c.eofToken]
  | n + 1, c =>
    if c.atEnd then [c.eofToken]
    else
      match c.step with
      | (some t, c) => t :: tokensWithin n c
      | (none, c) => tokensWithin n c

def tokens (c : Cursor) : List Token :=
  tokensWithin (c.rest.length + 1) c

inductive CutError where
  | insideCharacter
  | overflow
  deriving DecidableEq, Repr

/-- The front of `n` bytes of a text, or all of a shorter text. There is none if the cut falls
inside a character. -/
def bytes? : Nat → List Char → Option (List Char)
  | 0, _ => some []
  | _, [] => some []
  | n + 1, ch :: cs =>
    if ch.utf8Size ≤ n + 1 then (bytes? (n + 1 - ch.utf8Size) cs).map (ch :: ·) else none

def front (c : Cursor) (n : Nat) : Except CutError (List Char) :=
  if Word.limit ≤ c.position.byte + n then .error .overflow
  else
    match bytes? n c.rest with
    | some lexeme => .ok lexeme
    | none => .error .insideCharacter

/-- The cursor `n` bytes further on. -/
def advance (c : Cursor) (n : Nat) : Except CutError Cursor :=
  (c.front n).map c.pass

end Cursor

/-- A cursor read as a sequence of tokens: the end-of-file token comes once, then nothing. -/
structure TokenStream where
  cursor : Cursor
  finished : Bool
  deriving DecidableEq, Repr

def TokenStream.next (s : TokenStream) : Option Token × TokenStream :=
  if s.finished then (none, s)
  else
    match s.cursor.next with
    | (t, c) => (some t, ⟨c, t.kind = .eof⟩)

end FrontEnd
