namespace FrontEnd.Escape

def isHexDigit (c : Char) : Bool :=
  c.isDigit || ('a' ≤ c && c ≤ 'f') || ('A' ≤ c && c ≤ 'F')

def digitValue (c : Char) : Nat :=
  if c.isDigit then c.toNat - '0'.toNat
  else if 'a' ≤ c && c ≤ 'f' then c.toNat - 'a'.toNat + 10
  else if 'A' ≤ c && c ≤ 'F' then c.toNat - 'A'.toNat + 10
  else 0

def numeral (base : Nat) (ds : List Char) : Nat :=
  ds.foldl (fun n c => n * base + digitValue c) 0

/-- The character that the digits of `\x` name, or the digits themselves when the number is not
below 128: a literal holds text, and such a byte alone is none. -/
def byte (ds : List Char) : Except (List Char) Char :=
  if numeral 16 ds < 128 then .ok (Char.ofNat (numeral 16 ds)) else .error ds

/-- The text that the body of a literal stands for. An unknown escape keeps its backslash; the
error is the digits of a `\x` that names no character. -/
def unescape : List Char → Except (List Char) (List Char)
  | [] => .ok []
  | '\\' :: 'n' :: cs => do return '\n' :: (← unescape cs)
  | '\\' :: 't' :: cs => do return '\t' :: (← unescape cs)
  | '\\' :: 'r' :: cs => do return '\r' :: (← unescape cs)
  | '\\' :: '\\' :: cs => do return '\\' :: (← unescape cs)
  | '\\' :: '"' :: cs => do return '"' :: (← unescape cs)
  | '\\' :: '0' :: cs => do return '\x00' :: (← unescape cs)
  | '\\' :: 'x' :: cs =>
    match cs with
    | [] => .ok ['\\', 'x']
    | a :: as =>
      if isHexDigit a then
        match as with
        | [] => do return [← byte [a]]
        | b :: bs =>
          if isHexDigit b then do
            let c ← byte [a, b]
            return c :: (← unescape bs)
          else do
            let c ← byte [a]
            return c :: (← unescape (b :: bs))
      else do return '\\' :: 'x' :: (← unescape (a :: as))
  | c :: cs => do return c :: (← unescape cs)

def escapeChar (c : Char) : List Char :=
  if c = '"' then ['\\', '"']
  else if c = '\\' then ['\\', '\\']
  else if c = '\n' then ['\\', 'n']
  else if c = '\t' then ['\\', 't']
  else if c = '\r' then ['\\', 'r']
  else if c = '\x00' then ['\\', '0']
  else [c]

def escape (cs : List Char) : List Char :=
  cs.flatMap escapeChar

end FrontEnd.Escape
