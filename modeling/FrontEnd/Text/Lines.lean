namespace FrontEnd.Text

/-- The pieces between the occurrences of `sep`; there is one more of them than occurrences. -/
def split (sep : Char) : List Char → List (List Char)
  | [] => [[]]
  | c :: cs =>
    if c = sep then [] :: split sep cs
    else
      match split sep cs with
      | piece :: pieces => (c :: piece) :: pieces
      | [] => [[c]]

def dropLastWhile (p : Char → Bool) (cs : List Char) : List Char :=
  (cs.reverse.dropWhile p).reverse

/-- The line of that number without its line break, if the text has so many lines. Lines count
from one; there is no line zero, and asking for it gives the first. -/
def line? (source : String) (n : Nat) : Option String :=
  (split '\n' source.toList)[n - 1]?.map fun cs =>
    String.ofList (dropLastWhile (· = '\r') cs)

end FrontEnd.Text
