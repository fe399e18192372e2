import FrontEnd.Syntax.Basic
import FrontEnd.Token.Escape
import FrontEnd.Ty.Printer

namespace FrontEnd

def Stmt.braced (body : String) : String :=
  " \x7b\n" ++ body ++ "\n\x7d"

def Signature.declText (s : Signature) : String :=
  "func " ++ Name.bare s.name ++ "(" ++ s.paramsText ++ ")" ++ s.resultText

def Record.declText (r : Record) : String :=
  (match r.kind with | .struct => "struct " | .union => "union ") ++
    Name.bare r.name ++ " \x7b\n" ++
    String.join (r.fields.map fun f => f.name ++ " " ++ f.ty.text ++ "\n") ++ "\x7d"

mutual

def Expr.text : Expr → String
  | ⟨.ident name, _, _⟩ => Name.bare name
  | ⟨.integer value, _, _⟩ => toString value
  | ⟨.float value, _, _⟩ => value.text
  | ⟨.string value, _, _⟩ => "\"" ++ String.ofList (Escape.escape value.toList) ++ "\""
  | ⟨.binary op left right, _, _⟩ => "(" ++ left.text ++ op.symbol ++ right.text ++ ")"
  | ⟨.unary op operand, _, _⟩ => op.symbol ++ operand.text
  | ⟨.index base index, _, _⟩ => base.text ++ "[" ++ index.text ++ "]"
  | ⟨.call callee args, _, _⟩ => callee.text ++ "(" ++ ", ".intercalate (Expr.texts args) ++ ")"
  | ⟨.builtin name typeArgs args, _, _⟩ =>
    "@" ++ name ++ "(" ++ ", ".intercalate (Ty.texts typeArgs ++ Expr.texts args) ++ ")"
  | ⟨.structLit name module? fields, _, _⟩ =>
    (match module? with | some m => Name.bare m ++ "." | none => "") ++ "@" ++ Name.bare name ++
      "\x7b\n" ++ Expr.fieldsText fields ++ "\x7d"
  | ⟨.arrayLit ty elements, _, _⟩ =>
    ty.text ++ "\x7b" ++ ", ".intercalate (Expr.texts elements) ++ "\x7d"
  | ⟨.comma items, _, _⟩ => ", ".intercalate (Expr.texts items)
  | ⟨.function sig body, _, _⟩ =>
    "func(" ++ sig.paramsText ++ ")" ++ sig.resultText ++
      Stmt.braced ("\n".intercalate (Stmt.texts body))

def Expr.texts : List Expr → List String
  | [] => []
  | e :: es => e.text :: Expr.texts es

def Expr.fieldsText : List FieldInit → String
  | [] => ""
  | ⟨name, value⟩ :: fields => name ++ ": " ++ value.text ++ ",\n" ++ Expr.fieldsText fields

def Stmt.text : Stmt → String
  | .expression _ e => e.text ++ ";"
  | .declare _ name ty value => Name.bare name ++ " :" ++ ty.text ++ " = " ++ value.text ++ ";"
  | .declareAll _ names ty _ value =>
    ", ".intercalate (names.map Name.bare) ++ " :" ++ ty.text ++ " = " ++ value.text ++ ";"
  | .assign _ target value => target.text ++ " = " ++ value.text ++ ";"
  | .record _ decl => decl.declText
  | .function _ sig body => sig.declText ++ Stmt.braced ("\n".intercalate (Stmt.texts body))
  | .choose _ ⟨condition, body⟩ more none =>
    "if " ++ condition.text ++ Stmt.braced ("\n".intercalate (Stmt.texts body)) ++
      Stmt.branchesText more
  | .choose _ ⟨condition, body⟩ more (some otherwise) =>
    "if " ++ condition.text ++ Stmt.braced ("\n".intercalate (Stmt.texts body)) ++
      Stmt.branchesText more ++ " else" ++ Stmt.braced ("\n".intercalate (Stmt.texts otherwise))
  | .loop _ init condition post body =>
    "for" ++ (match init with | some s => " " ++ s.text | none => "") ++
      (match condition with | some e => " " ++ e.text | none => "") ++
      (match post with
        | some s => "; " ++ s.text
        | none => if init.isSome then ";" else "") ++
      Stmt.braced ("\n".intercalate (Stmt.texts body))
  | .return _ (some value) => "return " ++ value.text ++ ";"
  | .return _ none => "return;"
  | .break _ => "break;"
  | .continue _ => "continue;"
  | .external _ sig => "extern " ++ sig.declText ++ ";"
  | .importUnit _ name typeArgs path =>
    "import " ++ Name.bare name ++ String.join ((Ty.texts typeArgs).map (", " ++ ·)) ++
      ", \"" ++ path ++ "\";"
  | .generic _ name _ => "type " ++ name ++ ";"

def Stmt.texts : List Stmt → List String
  | [] => []
  | s :: ss => s.text :: Stmt.texts ss

def Stmt.branchesText : List Branch → String
  | [] => ""
  | ⟨condition, body⟩ :: more =>
    " else if " ++ condition.text ++ Stmt.braced ("\n".intercalate (Stmt.texts body)) ++
      Stmt.branchesText more

end

def Stmt.blockText (body : List Stmt) : String :=
  "\n".intercalate (Stmt.texts body)

def Program.text (p : Program) : String :=
  String.join ((Stmt.texts p.statements).map (· ++ "\n"))

end FrontEnd
