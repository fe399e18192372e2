namespace FrontEnd.Table

variable {α : Type}

def insert (t : List (String × α)) (key : String) (value : α) : List (String × α) :=
  (key, value) :: t.filter fun p => p.1 ≠ key

end FrontEnd.Table
