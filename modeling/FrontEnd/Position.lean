namespace FrontEnd

structure Position where
  /-- The number of bytes before the place. -/
  byte : Nat
  line : Nat
  column : Nat
  file : String
  deriving DecidableEq, Repr

namespace Position

/-- The numbers below this fit an unsigned 32-bit word. -/
def limit : Nat :=
  0x100000000

/-- The number of bytes as it is kept: of a larger one, the last 32 bits. -/
def offset (p : Position) : Nat :=
  p.byte % limit

def start (file : String) : Position :=
  ⟨0, 1, 1, file⟩

/-- The place of something that stands in no text. -/
def nowhere : Position :=
  ⟨0, 0, 0, "<null>"⟩

/-- The position just after the character `c` standing at `p`. A column is one character wide,
whatever the character. -/
def past (p : Position) (c : Char) : Position :=
  if c = '\n' then ⟨p.byte + c.utf8Size, p.line + 1, 1, p.file⟩
  else ⟨p.byte + c.utf8Size, p.line, p.column + 1, p.file⟩

def pastAll (p : Position) (cs : List Char) : Position :=
  cs.foldl past p

def text (p : Position) : String :=
  p.file ++ ":" ++ toString p.line ++ ":" ++ toString p.column

end Position

structure Span where
  start : Position
  stop : Position
  deriving DecidableEq, Repr

end FrontEnd
