import FrontEnd.Ty.Basic

namespace FrontEnd

mutual

/-- The type as it is written. A function without a result has the result `void`, which is left
out. -/
def Ty.text : Ty → String
  | .void => "void"
  | .int bits => "i" ++ toString bits
  | .uint bits => "u" ++ toString bits
  | .float bits => "f" ++ toString bits
  | .pointer t => "*" ++ t.text
  | .array t n => "[" ++ toString n ++ "]" ++ t.text
  | .record ⟨_, name, _, _⟩ => Name.bare name
  | .func ⟨_, params, _, result⟩ =>
    "func(" ++ ", ".intercalate (Ty.texts params) ++ ")" ++
      if result.isVoid then "" else " " ++ result.text
  | .named ⟨name, modules⟩ => String.join (modules.map fun m => Name.bare m ++ ".") ++
      Name.bare name
  | .module name => "module " ++ Name.bare name
  | .todo => "<TODO>"

def Ty.texts : List Ty → List String
  | [] => []
  | t :: ts => t.text :: Ty.texts ts

end

def Signature.paramsText (s : Signature) : String :=
  ", ".intercalate ((s.names.zip s.params).map fun p => Name.bare p.1 ++ " " ++ p.2.text)

def Signature.resultText (s : Signature) : String :=
  if s.result.isVoid then "" else " " ++ s.result.text

end FrontEnd
