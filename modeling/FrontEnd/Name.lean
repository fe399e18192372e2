namespace FrontEnd.Name

def qualify (name unit : String) : String :=
  if name = "main" then name else name ++ "-" ++ unit

/-- The name as it was written. -/
def bare (q : String) : String :=
  String.ofList (q.toList.takeWhile (· ≠ '-'))

def unit? (q : String) : Option String :=
  match q.toList.dropWhile (· ≠ '-') with
  | _ :: cs => some (String.ofList cs)
  | [] => none

def requalify (q unit : String) : String :=
  qualify (bare q) unit

end FrontEnd.Name
