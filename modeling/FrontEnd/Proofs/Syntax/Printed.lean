import FrontEnd.Proofs.Reading.Types
import FrontEnd.Proofs.Syntax.Relabel
import FrontEnd.Reading.Stmts
import FrontEnd.Syntax.Printer

namespace FrontEnd

namespace Double

/-- Whether a number is printed as digits, a point and digits: not with an exponent, and not as a
name. -/
def isPositional (v : Double) : Bool :=
  match digits v.text.toList with
  | (whole, '.' :: part) => !whole.isEmpty && !part.isEmpty && part.all Char.isDigit
  | _ => false

variable {v : Double}

theorem exists_parts (h : v.isPositional = true) :
    ∃ whole part, v.text.toList = whole ++ '.' :: part ∧ whole ≠ [] ∧
      (∀ d ∈ whole, d.isDigit = true) ∧ part ≠ [] ∧ ∀ d ∈ part, d.isDigit = true := by
  unfold isPositional at h
  split at h
  case h_1 whole part same =>
    simp only [Bool.and_eq_true, Bool.not_eq_true', List.isEmpty_eq_false_iff,
      List.all_eq_true] at h
    obtain ⟨rfl, rest⟩ := Prod.mk.inj same
    refine ⟨_, part, ?_, h.1.1, fun d mem => List.mem_takeWhile_imp mem, h.1.2, h.2⟩
    rw [← rest, List.takeWhile_append_dropWhile]
  case h_2 => cases h

theorem numeral_parts {whole part : List Char} (digits : ∀ d ∈ whole, d.isDigit = true)
    (nonempty : part ≠ []) (digits' : ∀ d ∈ part, d.isDigit = true) :
    (numeral (whole ++ '.' :: part)).1 = ⟨Escape.numeral 10 (whole ++ part), -part.length⟩ := by
  have front : Double.digits (whole ++ '.' :: part) = (whole, '.' :: part) := by
    simp [Double.digits, List.takeWhile_append_of_pos digits, List.dropWhile_append_of_pos digits]
  have back : Double.digits part = (part, []) := by
    rw [Double.digits, List.takeWhile_eq_self_iff.mpr digits',
      List.dropWhile_eq_nil_iff.mpr digits']
  obtain ⟨c, part, rfl⟩ := List.exists_cons_of_ne_nil nonempty
  simp [numeral, front, fraction, digits' c List.mem_cons_self, back, exponent]

/-- Such a text is read as the number that it is printed for. -/
theorem float_text (h : v.isPositional = true) (span : Span) :
    Literal.float ⟨.float, v.text, span⟩ = v := by
  obtain ⟨whole, part, spelled, _, digits, nonempty, digits'⟩ := exists_parts h
  have read : (numeral v.text.toList).1.round = v := by
    unfold text at spelled ⊢
    split at spelled
    case h_1 d found =>
      rw [String.toList_ofList]
      unfold shortest? at found
      split at found
      case h_1 => cases found
      case h_2 => simpa using List.find?_some found
      case h_3 =>
        obtain ⟨_, _, found⟩ := List.exists_of_findSome?_eq_some found
        simpa using List.find?_some found
    case h_2 =>
      have point : '.' ∈ "inf".toList := by simp [spelled]
      exact absurd point (by decide)
  have length : 0 < part.length := List.length_pos_iff.mpr nonempty
  have noPoint : ∀ d ∈ whole, decide (d ≠ '.') = true := by
    simp only [decide_eq_true_eq]
    rintro d mem rfl
    exact absurd (digits _ mem) (by decide)
  have front : (whole ++ '.' :: part).takeWhile (· ≠ '.') = whole := by
    rw [List.takeWhile_append_of_pos noPoint]
    simp
  have back : (whole ++ '.' :: part).dropWhile (· ≠ '.') = '.' :: part := by
    rw [List.dropWhile_append_of_pos noPoint]
    simp
  rw [spelled, numeral_parts digits nonempty digits', Decimal.round, if_pos (by simpa)] at read
  rw [Int.natAbs_neg, Int.natAbs_natCast] at read
  simp only [Literal.float, spelled, front, back]
  exact read

end Double

namespace Expr

def isUnary : Expr → Bool
  | ⟨.unary _ _, _, _⟩ => true
  | _ => false

/-- The expressions that a unit can write and that are printed so that they can be read back. The
operand of an operator is in parentheses or in front of what follows it, except after an operator
that stands before its operand: what is indexed, called or has a member taken must not begin with
one. Fractions and assignments are among them if `more` holds. -/
inductive Legible (unit : String) (more : Prop) : Expr → Prop where
  | ident {w : String} {ty : Ty} {token : Token} : Name.IsWord w →
      Legible unit more ⟨.ident (Name.qualify w unit), ty, token⟩
  | integer {n : Nat} {ty : Ty} {token : Token} : n < Word.signedLimit →
      Legible unit more ⟨.integer n, ty, token⟩
  | float {v : Double} {ty : Ty} {token : Token} : more → v.isPositional = true →
      Legible unit more ⟨.float v, ty, token⟩
  | string {s : String} {ty : Ty} {token : Token} : Legible unit more ⟨.string s, ty, token⟩
  | binary {op : InfixOp} {left right : Expr} {ty : Ty} {token : Token} :
      (op = .assign → more) → op ≠ .dot → Legible unit more left → Legible unit more right →
      Legible unit more ⟨.binary op left right, ty, token⟩
  | member {left : Expr} {w : String} {ty ty' : Ty} {token token' : Token} :
      Legible unit more left → left.isUnary = false → Name.IsWord w →
      Legible unit more ⟨.binary .dot left ⟨.ident (Name.qualify w unit), ty', token'⟩, ty, token⟩
  | unary {op : PrefixOp} {operand : Expr} {ty : Ty} {token : Token} : op ≠ .reference →
      Legible unit more operand → Legible unit more ⟨.unary op operand, ty, token⟩
  | index {base index : Expr} {ty : Ty} {token : Token} : Legible unit more base →
      base.isUnary = false → Legible unit more index →
      Legible unit more ⟨.index base index, ty, token⟩
  | call {callee : Expr} {args : List Expr} {ty : Ty} {token : Token} : Legible unit more callee →
      callee.isUnary = false → (∀ e ∈ args, Legible unit more e) →
      Legible unit more ⟨.call callee args, ty, token⟩
  | builtin {name : String} {b : Builtin} {typeArgs : List Ty} {args : List Expr} {ty : Ty}
      {token : Token} : Builtin.ofName? name = some b → typeArgs.length = b.typeArgs →
      (∀ t ∈ typeArgs, t.Source unit) → (∀ e ∈ args, Legible unit more e) →
      Legible unit more ⟨.builtin name typeArgs args, ty, token⟩
  | structLit {w : String} {module? : Option String} {fields : List FieldInit} {ty : Ty}
      {token : Token} : Name.IsWord w → (∀ m ∈ module?, Name.IsWord m) →
      (∀ f ∈ fields, Name.IsWord f.name) → (∀ f ∈ fields, Legible unit more f.value) →
      Legible unit more
        ⟨.structLit (Name.qualify w unit) (module?.map (Name.qualify · unit)) fields, ty, token⟩
  | arrayLit {t : Ty} {n : Nat} {elements : List Expr} {ty : Ty} {token : Token} :
      (Ty.array t n).Source unit → (∀ e ∈ elements, Legible unit more e) →
      Legible unit more ⟨.arrayLit (.array t n) elements, ty, token⟩

def Printable (unit : String) (e : Expr) : Prop :=
  e.Legible unit False

def chars (e : Expr) : List Char :=
  e.text.toList

theorem texts_eq_map (es : List Expr) : Expr.texts es = es.map Expr.text := by
  induction es with
  | nil => rfl
  | cons e es ih => rw [Expr.texts, ih, List.map_cons]

section Texts

variable {ty : Ty} {token : Token}

attribute [local simp] chars text

theorem chars_ident {w : String} (h : Name.IsWord w) (unit : String) :
    chars ⟨.ident (Name.qualify w unit), ty, token⟩ = w.toList := by
  rw [chars, text, h.bare_qualify]

theorem chars_integer (n : Nat) : chars ⟨.integer n, ty, token⟩ = Nat.toDigits 10 n := by
  simp

theorem chars_float (v : Double) : chars ⟨.float v, ty, token⟩ = v.text.toList := by
  simp

theorem chars_string (s : String) :
    chars ⟨.string s, ty, token⟩ = '"' :: Escape.escape s.toList ++ ['"'] := by
  simp

theorem chars_binary (op : InfixOp) (left right : Expr) :
    chars ⟨.binary op left right, ty, token⟩ =
      ['('] ++ (left.chars ++ (op.symbol.toList ++ (right.chars ++ [')']))) := by
  simp

theorem chars_unary (op : PrefixOp) (operand : Expr) :
    chars ⟨.unary op operand, ty, token⟩ = op.symbol.toList ++ operand.chars := by
  simp

theorem chars_index (base index : Expr) :
    chars ⟨.index base index, ty, token⟩ = base.chars ++ (['['] ++ (index.chars ++ [']'])) := by
  simp

theorem intercalate_texts (es : List Expr) :
    [',', ' '].intercalate ((Expr.texts es).map String.toList) = Parse.commas (es.map chars) := by
  rw [texts_eq_map, List.map_map]
  rfl

theorem chars_call (callee : Expr) (args : List Expr) :
    chars ⟨.call callee args, ty, token⟩ =
      callee.chars ++ (['('] ++ (Parse.commas (args.map chars) ++ [')'])) := by
  simp [intercalate_texts]

theorem chars_builtin (name : String) (typeArgs : List Ty) (args : List Expr) :
    chars ⟨.builtin name typeArgs args, ty, token⟩ =
      ['@'] ++ (name.toList ++ (['('] ++
        (Parse.commas (typeArgs.map (fun t => t.text.toList) ++ args.map chars) ++ [')']))) := by
  have items : (", ".intercalate (Ty.texts typeArgs ++ Expr.texts args)).toList =
      Parse.commas (typeArgs.map (fun t => t.text.toList) ++ args.map chars) := by
    rw [toList_intercalate_commas, texts_eq_map, Ty.texts_eq_map, List.map_append, List.map_map,
      List.map_map]
    rfl
  simp [items]

theorem chars_arrayLit (t : Ty) (elements : List Expr) :
    chars ⟨.arrayLit t elements, ty, token⟩ =
      t.text.toList ++ (['\x7b'] ++ (Parse.commas (elements.map chars) ++ ['\x7d'])) := by
  simp [intercalate_texts]

def fieldChars (f : FieldInit) : List Char :=
  f.name.toList ++ ([':'] ++ ([' '] ++ (f.value.chars ++ ([','] ++ ['\n']))))

theorem toList_fieldsText (fields : List FieldInit) :
    (Expr.fieldsText fields).toList = fields.flatMap fieldChars := by
  induction fields with
  | nil => rfl
  | cons f fields ih =>
    obtain ⟨name, value⟩ := f
    simp [Expr.fieldsText, ih, fieldChars]

def structChars (w : String) (fields : List FieldInit) : List Char :=
  ['@'] ++ (w.toList ++ (['\x7b'] ++ (['\n'] ++ (fields.flatMap fieldChars ++ ['\x7d']))))

theorem chars_structLit {w : String} (h : Name.IsWord w) (unit : String) (fields : List FieldInit) :
    chars ⟨.structLit (Name.qualify w unit) none fields, ty, token⟩ = structChars w fields := by
  simp [h.bare_qualify, toList_fieldsText, structChars]

theorem chars_structLit_some {w m : String} (h : Name.IsWord w) (hm : Name.IsWord m) (unit : String)
    (fields : List FieldInit) :
    chars ⟨.structLit (Name.qualify w unit) (some (Name.qualify m unit)) fields, ty, token⟩ =
      m.toList ++ (['.'] ++ structChars w fields) := by
  simp [h.bare_qualify, hm.bare_qualify, toList_fieldsText, structChars]

end Texts

end Expr

end FrontEnd
