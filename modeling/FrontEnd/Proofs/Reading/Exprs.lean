import FrontEnd.Proofs.Syntax.Printed
import FrontEnd.Proofs.Typing.Clean

namespace FrontEnd

open Parse

namespace Parse

variable {r : Reader} {c c' c'' : Cursor}

theorem takes_operator {op : InfixOp} (past : c.Past op.symbol.toList c')
    (clear : Pattern.Clear c'.rest) : c.Takes ⟨op.kind, op.symbol, ⟨c.position, c'.position⟩⟩ c' :=
  past.takes (by cases op <;> nofun) (Pattern.cut_operator op clear)

theorem takes_prefixOp {op : PrefixOp} (past : c.Past op.symbol.toList c')
    (clear : Pattern.Clear c'.rest) : c.Takes ⟨op.kind, op.symbol, ⟨c.position, c'.position⟩⟩ c' :=
  past.takes (by cases op <;> nofun) (Pattern.cut_prefixOp op clear)

theorem takes_fraction {v : Double} (h : v.isPositional = true) (past : c.Past v.text.toList c')
    (ends : Pattern.Ends c'.rest) : c.Takes ⟨.float, v.text, ⟨c.position, c'.position⟩⟩ c' := by
  obtain ⟨whole, part, spelled, nonempty, digits, nonempty', digits'⟩ := Double.exists_parts h
  have cut := Pattern.cut_fraction nonempty digits nonempty' digits' ends
  rw [← spelled, String.ofList_toList] at cut
  exact past.takes (by simp [spelled]) cut

theorem takes_quoted {s : String} (past : c.Past ('"' :: Escape.escape s.toList ++ ['"']) c') :
    c.Takes ⟨.string, s, ⟨c.position, c'.position⟩⟩ c' := by
  have cut := Pattern.cut_quoted s.toList c'.rest
  rw [String.ofList_toList] at cut
  refine past.takes nofun ?_
  simpa using cut

end Parse

namespace Pattern

theorem clear_of_isWordPart {c : Char} (h : isWordPart c = true) (cs : List Char) :
    Clear (c :: cs) := by
  rintro d ⟨⟩ mem
  simp only [List.mem_cons, List.not_mem_nil, or_false] at mem
  obtain rfl | rfl | rfl | rfl | rfl | rfl := mem <;> cases h

theorem IsWord.clear {w : List Char} (h : IsWord w) (cs : List Char) : Clear (w ++ cs) := by
  obtain ⟨c, ds, rfl, starts, _⟩ := isWord_iff.mp h
  exact clear_of_isWordPart (isWordPart_of_isWordStart starts) _

theorem IsWord.ends_dot {w : List Char} (h : IsWord w) (cs : List Char) :
    Ends ('.' :: (w ++ cs)) := by
  obtain ⟨c, ds, rfl, starts, _⟩ := isWord_iff.mp h
  refine ⟨by simp [isWordPart], fun d es same => ?_⟩
  obtain ⟨rfl, _⟩ := List.cons.inj (List.cons.inj same).2
  rw [← Bool.not_eq_true]
  intro digit
  rw [not_isWordStart_of_isDigit digit] at starts
  cases starts

theorem clear_toDigits (n : Nat) (cs : List Char) : Clear (Nat.toDigits 10 n ++ cs) := by
  obtain ⟨d, ds, digits⟩ := List.exists_cons_of_ne_nil (Nat.toDigits_ne_nil (n := n) (b := 10))
  have digit : d.isDigit = true :=
    Nat.isDigit_of_mem_toDigits (n := n) (by decide) (by decide) (digits ▸ List.mem_cons_self)
  rw [digits]
  exact clear_of_isWordPart (isWordPart_of_isDigit digit) _

end Pattern

namespace Expr.Legible

variable {unit : String} {more : Prop} {e : Expr} {r : Reader} {c c' c'' : Cursor}

theorem clear (h : e.Legible unit more) (cs : List Char) : Pattern.Clear (e.chars ++ cs) := by
  induction h generalizing cs with
  | ident w =>
    rw [chars_ident w]
    exact w.1.clear cs
  | integer =>
    rw [chars_integer]
    exact Pattern.clear_toDigits _ cs
  | float _ positional =>
    obtain ⟨whole, part, spelled, nonempty, digits, _⟩ := Double.exists_parts positional
    obtain ⟨d, whole, rfl⟩ := List.exists_cons_of_ne_nil nonempty
    rw [chars_float, spelled]
    exact Pattern.clear_of_isWordPart
      (Pattern.isWordPart_of_isDigit (digits d List.mem_cons_self)) _
  | string =>
    rw [chars_string]
    simp [Pattern.Clear]
  | binary =>
    rw [chars_binary]
    simp [Pattern.Clear]
  | member =>
    rw [chars_binary]
    simp [Pattern.Clear]
  | @unary op _ _ _ notRef =>
    rw [chars_unary]
    cases op with
    | reference => exact absurd rfl notRef
    | _ => simp [Pattern.Clear, PrefixOp.symbol]
  | index _ _ _ ih =>
    rw [chars_index, List.append_assoc]
    exact ih _
  | call _ _ _ ih =>
    rw [chars_call, List.append_assoc]
    exact ih _
  | builtin =>
    rw [chars_builtin]
    simp [Pattern.Clear]
  | @structLit w module? fields _ _ word modules _ _ =>
    cases module? with
    | none =>
      rw [Option.map_none, chars_structLit word]
      simp [Pattern.Clear, structChars]
    | some m =>
      rw [Option.map_some, chars_structLit_some word (modules m rfl), List.append_assoc]
      exact (modules m rfl).1.clear _
  | arrayLit =>
    rw [chars_arrayLit, Ty.toList_text_array]
    simp [Pattern.Clear]

theorem takes_first (h : e.Legible unit more) (past : c.Past e.chars c')
    (ends : Pattern.Ends c'.rest) :
    ∃ token c₁, c.Takes token c₁ ∧ token.kind.prefixForm?.isSome = true ∧ token.kind ≠ .kwFunc ∧
      (token.kind = .identifier → (r.before c').kind ≠ .colon → (r.before c₁).kind ≠ .colon) := by
  induction h generalizing c c' with
  | ident w =>
    rw [chars_ident w] at past
    exact ⟨_, _, takes_word w past ends.word, rfl, by simp, fun _ => id⟩
  | integer =>
    rw [chars_integer] at past
    exact ⟨_, _, takes_number past ends, rfl, by simp, by simp⟩
  | float _ positional =>
    rw [chars_float] at past
    exact ⟨_, _, takes_fraction positional past ends, rfl, by simp, by simp⟩
  | string =>
    rw [chars_string] at past
    exact ⟨_, _, takes_quoted past, rfl, by simp, by simp⟩
  | binary | member =>
    rw [chars_binary] at past
    obtain ⟨c₁, pastOpen, _⟩ := past.split
    exact ⟨_, _, pastOpen.symbol .openParen (by decide), rfl, by simp, by simp⟩
  | @unary op _ _ _ _ h =>
    rw [chars_unary] at past
    obtain ⟨c₁, pastOp, past⟩ := past.split
    refine ⟨_, _, takes_prefixOp pastOp (past.rest ▸ h.clear _), ?_⟩
    cases op <;> exact ⟨rfl, by simp [PrefixOp.kind], by simp [PrefixOp.kind]⟩
  | index _ _ _ ih =>
    rw [chars_index] at past
    obtain ⟨c₁, pastBase, past⟩ := past.split
    obtain ⟨c₂, pastOpen, _⟩ := past.split
    have opens := pastOpen.symbol .openBracket (by decide)
    obtain ⟨token, c₃, takes, begins, noFunc, next⟩ :=
      ih pastBase (pastOpen.ends .openBracket (by decide) (by decide))
    refine ⟨token, c₃, takes, begins, noFunc, fun word _ => next word ?_⟩
    rw [r.kind_before opens]
    simp
  | call _ _ _ ih =>
    rw [chars_call] at past
    obtain ⟨c₁, pastCallee, past⟩ := past.split
    obtain ⟨c₂, pastOpen, _⟩ := past.split
    have opens := pastOpen.symbol .openParen (by decide)
    obtain ⟨token, c₃, takes, begins, noFunc, next⟩ :=
      ih pastCallee (pastOpen.ends .openParen (by decide) (by decide))
    refine ⟨token, c₃, takes, begins, noFunc, fun word _ => next word ?_⟩
    rw [r.kind_before opens]
    simp
  | builtin =>
    rw [chars_builtin] at past
    obtain ⟨c₁, pastAt, _⟩ := past.split
    exact ⟨_, _, pastAt.symbol .at (by decide), rfl, by simp, by simp⟩
  | @structLit w module? fields _ _ word modules _ _ =>
    cases module? with
    | none =>
      rw [Option.map_none, chars_structLit word, structChars] at past
      obtain ⟨c₁, pastAt, _⟩ := past.split
      exact ⟨_, _, pastAt.symbol .at (by decide), rfl, by simp, by simp⟩
    | some m =>
      rw [Option.map_some, chars_structLit_some word (modules m rfl)] at past
      obtain ⟨c₁, pastModule, past⟩ := past.split
      obtain ⟨c₂, pastDot, _⟩ := past.split
      have dot := pastDot.symbol .dot (by decide)
      have stop : ∀ ch ∈ c₁.rest.head?, Pattern.isWordPart ch = false := by
        rw [pastDot.rest]
        simp [Pattern.isWordPart]
      refine ⟨_, _, takes_word (modules m rfl) pastModule stop, rfl, by simp, fun _ _ => ?_⟩
      rw [r.kind_before dot]
      simp
  | arrayLit =>
    rw [chars_arrayLit, Ty.toList_text_array, List.append_assoc] at past
    obtain ⟨c₁, pastOpen, _⟩ := past.split
    exact ⟨_, _, pastOpen.symbol .openBracket (by decide), rfl, by simp, by simp⟩

end Expr.Legible

namespace Nested

variable {r : Reader} {g : Nested} {power : Power} {c c' c'' : Cursor} {e : Expr}

def extendStep (g : Nested) (power : Power) (left : Expr) : Parse (Expr ⊕ Expr) := do
  match (← kind).infixForm? with
  | some form =>
    if power < form.power then return .inl (← g.extend left form) else return .inr left
  | none => return .inr left

theorem expression_eq_loop (g : Nested) (power : Power) :
    g.expression power = (do loop (g.extendStep power) (← g.first)) :=
  rfl

/-- No expression goes on here with the power. -/
def Stops (r : Reader) (power : Power) (c : Cursor) : Prop :=
  ∀ form, (r.before c).kind.infixForm? = some form → ¬ power < form.power

theorem Stops.mono {power' : Power} (h : Stops r power c) (le : ¬ power' < power) :
    Stops r power' c :=
  fun form found tighter => h form found (Nat.lt_of_le_of_lt (Nat.le_of_not_lt le) tighter)

theorem reads_extendStep_stop (h : Stops r power c) (left : Expr) :
    Reads r (g.extendStep power left) c (.inr left) c := by
  refine reads_kind ?_
  split
  case h_1 form found =>
    rw [if_neg (h form found)]
    exact reads_pure _
  case h_2 => exact reads_pure _

theorem reads_extendStep {form : InfixForm} {left : Expr}
    (found : (r.before c).kind.infixForm? = some form) (tighter : power < form.power)
    (h : Reads r (g.extend left form) c e c') :
    Reads r (g.extendStep power left) c (.inl e) c' := by
  refine reads_kind ?_
  rw [found]
  dsimp only
  rw [if_pos tighter]
  exact h.bind (reads_pure _)

/-- What is read before `c'` is the expression, as the front of one that may go on. -/
def Begins (r : Reader) (g : Nested) (power : Power) (c : Cursor) (e : Expr) (c' : Cursor) : Prop :=
  ∃ left c₁ e', Reads r g.first c left c₁ ∧ c₁.size < c.size ∧
    Steps r (g.extendStep power) left c₁ e' c' ∧ e'.Alike e

theorem Begins.of_first {e' : Expr} (h : Reads r g.first c e' c') (shorter : c'.size < c.size)
    (alike : e'.Alike e) : Begins r g power c e c' :=
  ⟨e', c', e', h, shorter, .refl e' c', alike⟩

theorem Begins.extend {e₂ : Expr} {form : InfixForm} (h : Begins r g power c e c')
    (found : (r.before c').kind.infixForm? = some form) (tighter : power < form.power)
    (shorter : c''.size < c'.size)
    (next : ∀ left : Expr, left.Alike e → ∃ e', Reads r (g.extend left form) c' e' c'' ∧
      e'.Alike e₂) :
    Begins r g power c e₂ c'' := by
  obtain ⟨left, c₁, e', first, less, steps, alike⟩ := h
  obtain ⟨e'', reads, alike⟩ := next e' alike
  exact ⟨left, c₁, e'', first, less,
    steps.tail (reads_extendStep found tighter reads) shorter, alike⟩

theorem Begins.size_lt (h : Begins r g power c e c') : c'.size < c.size := by
  obtain ⟨_, _, _, _, less, steps, _⟩ := h
  have := steps.size_le
  omega

theorem Begins.expression (h : Begins r g power c e c') (stops : Stops r power c') :
    ∃ e', Reads r (g.expression power) c e' c' ∧ e'.Alike e := by
  obtain ⟨left, c₁, e', first, _, steps, alike⟩ := h
  exact ⟨e', first.bind (steps.loop (reads_extendStep_stop stops e')), alike⟩

end Nested

open Nested

/-- Wherever its text stands, the expression is read back, unless what follows belongs to the
operand of an operator in front. -/
def Expr.ReadsBack (r : Reader) (e : Expr) : Prop :=
  ∀ n power c c', c.size ≤ n → c.Past e.chars c' → Pattern.Ends c'.rest → ¬ Power.unary < power →
    (e.isUnary = true → Stops r .unary c') → Begins r (within n) power c e c'

namespace Expr.ReadsBack

variable {r : Reader} {c c' c'' : Cursor} {e : Expr} {n : Nat} {power : Power}

theorem expr (h : e.ReadsBack r) (enough : c.size ≤ n) (past : c.Past e.chars c')
    (ends : Pattern.Ends c'.rest) (loose : ¬ Power.unary < power) (stops : Stops r power c') :
    c'.size < c.size ∧ ∃ e', Reads r ((within (n + 1)).expr power) c e' c' ∧ e'.Alike e := by
  have begins := h n power c c' enough past ends loose fun _ => stops.mono loose
  exact ⟨begins.size_lt, begins.expression stops⟩

end Expr.ReadsBack

namespace Nested

variable {r : Reader} {g : Nested} {power : Power} {c c' c'' : Cursor} {e : Expr} {n : Nat}
variable {span : Span} {token : Token}

theorem stops_of_none (h : (r.before c).kind.infixForm? = none) : Stops r power c := by
  intro form found
  rw [h] at found
  cases found

theorem stops_closeParen {text : String} (closes : c.Takes ⟨.closeParen, text, span⟩ c') :
    Stops r power c := by
  refine stops_of_none ?_
  rw [r.kind_before closes]
  rfl

theorem stops_member : Stops r .member c := by
  intro form _
  cases form with
  | operator op => cases op <;> decide
  | _ => decide

theorem reads_first_word {w : String} (takes : c.Takes ⟨.identifier, w, span⟩ c') :
    Reads r g.first c ⟨.ident (Name.qualify w r.unit), .todo, ⟨.identifier, w, span⟩⟩ c' := by
  refine reads_kind ?_
  rw [r.kind_before takes]
  exact (reads_advance takes).bind (reads_qualify (reads_pure _))

theorem reads_first_integer {m : Nat} (value : Literal.integer? token = some m)
    (takes : c.Takes token c') : Reads r g.first c ⟨.integer m, .int 32, token⟩ c' := by
  obtain ⟨kind, text, span⟩ := token
  refine reads_kind ?_
  rw [r.kind_before takes]
  cases kind with
  | integer | hex | binary =>
    refine (reads_advance takes).bind ?_
    dsimp only
    rw [value]
    exact reads_pure _
  | _ => cases value

theorem reads_first_number {m : Nat} (fits : m < Word.signedLimit)
    (takes : c.Takes ⟨.integer, toString m, span⟩ c') :
    Reads r g.first c ⟨.integer m, .int 32, ⟨.integer, toString m, span⟩⟩ c' := by
  refine reads_first_integer ?_ takes
  rw [Literal.integer?, Literal.below?, natural_number, Option.filter_some,
    if_pos (by simpa using fits)]

theorem reads_first_fraction {v : Double} (h : v.isPositional = true)
    (takes : c.Takes ⟨.float, v.text, span⟩ c') :
    Reads r g.first c ⟨.float v, .float 64, ⟨.float, v.text, span⟩⟩ c' := by
  refine reads_kind ?_
  rw [r.kind_before takes]
  refine (reads_advance takes).bind ?_
  dsimp only
  rw [Double.float_text h]
  exact reads_pure _

theorem reads_first_string {s : String} (takes : c.Takes ⟨.string, s, span⟩ c') :
    Reads r g.first c ⟨.string s, .pointer (.int 8), ⟨.string, s, span⟩⟩ c' := by
  refine reads_kind ?_
  rw [r.kind_before takes]
  exact (reads_advance takes).bind (reads_pure _)

/-- A depth that is enough is enough for what is nested after a token. -/
theorem exists_depth {t : Token} (takes : c.Takes t c') (enough : c.size ≤ n) :
    ∃ m, n = m + 1 ∧ c'.size ≤ m := by
  have := takes.size_eq
  exact ⟨n - 1, by omega, by omega⟩

theorem kind_ne_of_begins {k : Kind} (takes : c.Takes token c')
    (begins : token.kind.prefixForm?.isSome = true) (none : k.prefixForm? = none) :
    (r.before c).kind ≠ k := by
  rw [r.kind_before takes]
  rintro rfl
  rw [none] at begins
  cases begins

def argument (g : Nested) (closing : Kind) : Parse Expr := do
  if ← hasTokens then g.expr .comma else unexpected closing.name

theorem reads_argument {closing : Kind} {c₁ : Cursor} (takes : c.Takes token c₁)
    (begins : token.kind.prefixForm?.isSome = true) (read : Reads r (g.expr .comma) c e c') :
    Reads r (g.argument closing) c e c' := by
  refine reads_hasTokens ?_
  have more : (r.before c).hasTokens = true := bne_iff_ne.mpr (kind_ne_of_begins takes begins rfl)
  rw [more]
  exact read

theorem infixForm?_kind {op : InfixOp} (notDot : op ≠ .dot) :
    op.kind.infixForm? = some (.operator op) := by
  cases op with
  | dot => exact absurd rfl notDot
  | _ => rfl

section Forms

variable {c₁ c₂ c₃ : Cursor} {left right : Expr} {ty ty' : Ty} {token token' : Token}
  {text text' : String} {span span' : Span}

theorem reads_group (opens : c.Takes ⟨.openParen, text, span⟩ c₁)
    (begins : Begins r (within n) .default c₁ e c₂)
    (closes : c₂.Takes ⟨.closeParen, text', span'⟩ c') :
    ∃ e', Reads r (within (n + 1)).first c e' c' ∧ c'.size < c.size ∧ e'.Alike e := by
  obtain ⟨e', read, alike⟩ := begins.expression (stops_closeParen closes)
  have := opens.size_eq
  have := closes.size_eq
  have := begins.size_lt
  refine ⟨e', reads_kind ?_, by omega, alike⟩
  rw [r.kind_before opens]
  refine (reads_advance opens).bind (Reads.bind (a := e') read ?_)
  exact (reads_expect closes).bind (reads_pure _)

theorem reads_first_unary {op : PrefixOp} (takes : c.Takes ⟨op.kind, text, span⟩ c₁)
    (read : Reads r (g.expr .unary) c₁ e c') :
    Reads r g.first c (.untyped (.unary op e) ⟨op.kind, text, span⟩) c' := by
  refine reads_kind ?_
  rw [r.kind_before takes, show op.kind.prefixForm? = some (.operator op) by cases op <;> rfl]
  exact (reads_advance takes).bind (read.bind (reads_pure _))

theorem Begins.operator {op : InfixOp} {right' : Expr} (h : Begins r g power c left c₁)
    (takes : c₁.Takes ⟨op.kind, text, span⟩ c₂) (notDot : op ≠ .dot) (tighter : power < op.power)
    (read : Reads r (g.expr op.power) c₂ right' c') (shorter : c'.size < c₂.size)
    (alikeRight : right'.Alike right) :
    Begins r g power c ⟨.binary op left right, ty, token⟩ c' := by
  have found : (r.before c₁).kind.infixForm? = some (.operator op) := by
    rw [r.kind_before takes]
    exact infixForm?_kind notDot
  refine h.extend found tighter (Nat.lt_trans shorter takes.size_lt) fun left' alikeLeft => ?_
  exact ⟨_, (reads_advance takes).bind (read.bind (reads_pure _)), .binary op alikeLeft alikeRight⟩

theorem memberOf_ident (left : Expr) (operator : Token) (name : String) :
    memberOf left operator ⟨.ident name, ty, token⟩ =
      .untyped (.binary .dot left ⟨.ident name, ty, token⟩) operator := by
  obtain ⟨node, _, _⟩ := left
  cases node <;> rfl

theorem Begins.member {w : String} (h : Begins r (within (n + 1)) power c left c₁)
    (dot : c₁.Takes ⟨.dot, text, span⟩ c₂) (word : c₂.Takes ⟨.identifier, w, span'⟩ c')
    (tighter : power < .member) :
    Begins r (within (n + 1)) power c
      ⟨.binary .dot left ⟨.ident (Name.qualify w r.unit), ty', token'⟩, ty, token⟩ c' := by
  have found : (r.before c₁).kind.infixForm? = some .member := by
    rw [r.kind_before dot]
    rfl
  have read : Reads r ((within (n + 1)).expr .member) c₂ _ c' :=
    (reads_first_word word).bind
      ((Steps.refl _ _).loop (reads_extendStep_stop stops_member _))
  refine h.extend found tighter (Nat.lt_trans word.size_lt dot.size_lt) fun left' alikeLeft => ?_
  refine ⟨_, (reads_advance dot).bind (read.bind (reads_pure _)), ?_⟩
  rw [memberOf_ident]
  exact .binary .dot alikeLeft rfl

theorem Begins.index {right' : Expr} (h : Begins r g power c left c₁)
    (opens : c₁.Takes ⟨.openBracket, text, span⟩ c₂) (read : Reads r (g.expr .default) c₂ right' c₃)
    (shorter : c₃.size < c₂.size) (closes : c₃.Takes ⟨.closeBracket, text', span'⟩ c')
    (alikeRight : right'.Alike right) (tighter : power < .index) :
    Begins r g power c ⟨.index left right, ty, token⟩ c' := by
  have found : (r.before c₁).kind.infixForm? = some .index := by
    rw [r.kind_before opens]
    rfl
  refine h.extend found tighter ?_ fun left' alikeLeft => ?_
  · have := opens.size_lt
    have := closes.size_lt
    omega
  · refine ⟨_, (reads_advance opens).bind (read.bind ((reads_expect closes).bind (reads_pure _))),
      .index alikeLeft alikeRight⟩

theorem Begins.call {args args' : List Expr} (h : Begins r g power c left c₁)
    (opens : c₁.Takes ⟨.openParen, text, span⟩ c₂)
    (read : Reads r (g.arguments .closeParen) c₂ args' c') (shorter : c'.size < c₂.size)
    (alikeArgs : List.Forall₂ Expr.Alike args' args) (tighter : power < .call) :
    Begins r g power c ⟨.call left args, ty, token⟩ c' := by
  have found : (r.before c₁).kind.infixForm? = some .call := by
    rw [r.kind_before opens]
    rfl
  refine h.extend found tighter (Nat.lt_trans shorter opens.size_lt) fun left' alikeLeft => ?_
  exact ⟨_, (reads_advance opens).bind (read.bind (reads_pure _)), .call alikeLeft alikeArgs⟩

end Forms

end Nested

namespace Expr.ReadsBack

variable {r : Reader} {ty : Ty} {token : Token}

theorem ident {w : String} (word : Name.IsWord w) :
    ReadsBack r ⟨.ident (Name.qualify w r.unit), ty, token⟩ := by
  intro n power c c' _ past ends _ _
  rw [chars_ident word] at past
  have takes := takes_word word past ends.word
  exact .of_first (reads_first_word takes) takes.size_lt rfl

theorem integer {m : Nat} (fits : m < Word.signedLimit) : ReadsBack r ⟨.integer m, ty, token⟩ := by
  intro n power c c' _ past ends _ _
  rw [chars_integer] at past
  have takes := takes_number past ends
  exact .of_first (reads_first_number fits takes) takes.size_lt rfl

theorem float {v : Double} (h : v.isPositional = true) : ReadsBack r ⟨.float v, ty, token⟩ := by
  intro n power c c' _ past ends _ _
  rw [chars_float] at past
  have takes := takes_fraction h past ends
  exact .of_first (reads_first_fraction h takes) takes.size_lt rfl

theorem string {s : String} : ReadsBack r ⟨.string s, ty, token⟩ := by
  intro n power c c' _ past _ _ _
  rw [chars_string] at past
  have takes := takes_quoted past
  exact .of_first (reads_first_string takes) takes.size_lt rfl

section Operators

variable {c c' c'' : Cursor} {n : Nat} {power : Power}

theorem ends_operator {op : InfixOp} (notDot : op ≠ .dot) (past : c.Past op.symbol.toList c') :
    Pattern.Ends c.rest := by
  rw [past.rest]
  cases op with
  | dot => exact absurd rfl notDot
  | _ => exact ⟨by simp [InfixOp.symbol, Pattern.isWordPart], by simp [InfixOp.symbol]⟩

theorem power_operator {op : InfixOp} (notDot : op ≠ .dot) :
    Power.default < op.power ∧ ¬ Power.unary < op.power := by
  cases op with
  | dot => exact absurd rfl notDot
  | _ => decide

theorem binary {op : InfixOp} {left right : Expr} (notDot : op ≠ .dot) (hl : left.ReadsBack r)
    (hr : right.ReadsBack r)
    (clear : ∀ cs, Pattern.Clear (right.chars ++ cs)) :
    ReadsBack r ⟨.binary op left right, ty, token⟩ := by
  intro n power c c' enough past _ _ _
  rw [chars_binary] at past
  obtain ⟨c₁, pastOpen, past⟩ := past.split
  obtain ⟨c₂, pastLeft, past⟩ := past.split
  obtain ⟨c₃, pastOp, past⟩ := past.split
  obtain ⟨c₄, pastRight, pastClose⟩ := past.split
  have opens := pastOpen.symbol .openParen (by decide)
  have closes := pastClose.symbol .closeParen (by decide)
  have operator := takes_operator pastOp (pastRight.rest ▸ clear _)
  obtain ⟨loosest, loose⟩ := power_operator notDot
  obtain ⟨m, rfl, left₁⟩ := exists_depth opens enough
  have stops : Stops r .unary c₂ := by
    intro form found
    rw [r.kind_before operator, infixForm?_kind notDot] at found
    cases found
    exact loose
  have begins :=
    hl m .default c₁ c₂ left₁ pastLeft (ends_operator notDot pastOp) (by decide) fun _ => stops
  have less := begins.size_lt
  obtain ⟨k, rfl, left₂⟩ := exists_depth operator (Nat.le_trans (Nat.le_of_lt less) left₁)
  obtain ⟨shorter, right', read, alikeRight⟩ := hr.expr left₂ pastRight
    (pastClose.ends .closeParen (by decide) (by decide)) loose (stops_closeParen closes)
  have whole : Begins r (within (k + 1)) .default c₁ ⟨.binary op left right, ty, token⟩ c₄ :=
    begins.operator operator notDot loosest read shorter alikeRight
  obtain ⟨e', read, shorter, alike⟩ := reads_group opens whole closes
  exact .of_first read shorter alike

theorem memberOf_structLit {left : Expr} {module : String} (h : left.node = .ident module)
    (operator : Token) (name : String) (module? : Option String) (fields : List FieldInit) :
    memberOf left operator ⟨.structLit name module? fields, ty, token⟩ =
      ⟨.structLit name (some module) fields, ty, token⟩ := by
  rw [memberOf, h]

theorem member {left : Expr} {w : String} {ty' : Ty} {token' : Token} (hl : left.ReadsBack r)
    (notUnary : left.isUnary = false) (word : Name.IsWord w) :
    ReadsBack r ⟨.binary .dot left ⟨.ident (Name.qualify w r.unit), ty', token'⟩, ty, token⟩ := by
  intro n power c c' enough past _ _ _
  rw [chars_binary, chars_ident word] at past
  obtain ⟨c₁, pastOpen, past⟩ := past.split
  obtain ⟨c₂, pastLeft, past⟩ := past.split
  obtain ⟨c₃, pastDot, past⟩ := past.split
  obtain ⟨c₄, pastWord, pastClose⟩ := past.split
  have opens := pastOpen.symbol .openParen (by decide)
  have dot : c₂.Takes ⟨.dot, ".", ⟨c₂.position, c₃.position⟩⟩ c₃ := pastDot.takes nofun rfl
  have closes := pastClose.symbol .closeParen (by decide)
  have ends : Pattern.Ends c₂.rest := by
    rw [pastDot.rest, pastWord.rest]
    exact word.1.ends_dot c₄.rest
  obtain ⟨m, rfl, left₁⟩ := exists_depth opens enough
  have begins := hl m .default c₁ c₂ left₁ pastLeft ends (by decide) (by simp [notUnary])
  have less := begins.size_lt
  obtain ⟨k, rfl, left₂⟩ := exists_depth dot (Nat.le_trans (Nat.le_of_lt less) left₁)
  have takes := takes_word word pastWord
    (pastClose.ends .closeParen (by decide) (by decide)).word
  have whole : Begins r (within (k + 1)) .default c₁
      ⟨.binary .dot left ⟨.ident (Name.qualify w r.unit), ty', token'⟩, ty, token⟩ c₄ :=
    begins.member dot takes (by decide)
  obtain ⟨e', read, shorter, alike⟩ := reads_group opens whole closes
  exact .of_first read shorter alike

theorem unary {op : PrefixOp} {operand : Expr} (h : operand.ReadsBack r)
    (clear : ∀ cs, Pattern.Clear (operand.chars ++ cs)) :
    ReadsBack r ⟨.unary op operand, ty, token⟩ := by
  intro n power c c' enough past ends _ stops
  rw [chars_unary] at past
  obtain ⟨c₁, pastOp, past⟩ := past.split
  have operator := takes_prefixOp pastOp (past.rest ▸ clear _)
  obtain ⟨m, rfl, left⟩ := exists_depth operator enough
  obtain ⟨shorter, operand', read, alike⟩ := h.expr left past ends (by decide) (stops rfl)
  exact .of_first (reads_first_unary operator read) (Nat.lt_trans shorter operator.size_lt)
    (.unary op alike)

theorem index {base index : Expr} (hb : base.ReadsBack r) (notUnary : base.isUnary = false)
    (hi : index.ReadsBack r) : ReadsBack r ⟨.index base index, ty, token⟩ := by
  intro n power c c' enough past _ loose _
  rw [chars_index] at past
  obtain ⟨c₁, pastBase, past⟩ := past.split
  obtain ⟨c₂, pastOpen, past⟩ := past.split
  obtain ⟨c₃, pastIndex, pastClose⟩ := past.split
  have opens := pastOpen.symbol .openBracket (by decide)
  have closes := pastClose.symbol .closeBracket (by decide)
  have begins := hb n power c c₁ enough pastBase
    (pastOpen.ends .openBracket (by decide) (by decide)) loose (by simp [notUnary])
  have less := begins.size_lt
  obtain ⟨m, rfl, left⟩ := exists_depth opens (Nat.le_trans (Nat.le_of_lt less) enough)
  have stops : Stops r .default c₃ := stops_of_none (by rw [r.kind_before closes]; rfl)
  obtain ⟨shorter, index', read, alikeIndex⟩ := hi.expr left pastIndex
    (pastClose.ends .closeBracket (by decide) (by decide)) (by decide) stops
  exact begins.index opens read shorter closes alikeIndex
    (Nat.lt_of_le_of_lt (Nat.le_of_not_lt loose) (by decide))

end Operators

section Lists

variable {c c' c'' : Cursor} {n : Nat} {power : Power} {closing : Kind} {mark : Char}
  {more : Prop}

structure ClosesExprs (closing : Kind) (mark : Char) : Prop extends Closes closing mark where
  notBegin : closing.prefixForm? = none
  notNext : closing.infixForm? = none

theorem closesParen : ClosesExprs .closeParen ')' :=
  ⟨⟨by decide, by decide, by decide⟩, rfl, rfl⟩

theorem closesCurly : ClosesExprs .closeCurly '\x7d' :=
  ⟨⟨by decide, by decide, by decide⟩, rfl, rfl⟩

theorem stops_afterItem (closes : ClosesExprs closing mark) (after : AfterItem r closing c) :
    Stops r .comma c := by
  intro form found
  obtain kind | kind := after.kind
  · rw [kind] at found
    obtain rfl := Option.some.inj found
    decide
  · rw [kind, closes.notNext] at found
    cases found

theorem reads_arguments {es : List Expr} (closes : ClosesExprs closing mark)
    (legible : ∀ e ∈ es, e.Legible r.unit more) (hs : ∀ e ∈ es, e.ReadsBack r) (enough : c.size ≤ n)
    (past : c.Past (commas (es.map chars) ++ [mark]) c') :
    ∃ es', Reads r ((within (n + 1)).arguments closing) c es' c' ∧
      List.Forall₂ Alike es' es ∧ c'.size < c.size := by
  have items : ∀ e ∈ es, ReadsItem r closing ((within (n + 1)).argument closing) n e.chars
      (Expr.Alike · e) := by
    intro e mem c c' enough past after
    obtain ⟨token, c₁, takes, begins, _⟩ := (legible e mem).takes_first (r := r) past after.ends
    obtain ⟨shorter, e', read, alike⟩ := (hs e mem).expr enough past after.ends (by decide)
      (stops_afterItem closes after)
    exact ⟨kind_ne_of_begins takes begins closes.notBegin, shorter, e',
      reads_argument takes begins read, alike⟩
  obtain ⟨es', close, read, alike, _, shorter⟩ :=
    reads_commaList chars closes.toCloses items past enough
  exact ⟨es', read.bind (reads_pure _), alike.flip, shorter⟩

theorem call {callee : Expr} {args : List Expr} (hc : callee.ReadsBack r)
    (notUnary : callee.isUnary = false) (legible : ∀ e ∈ args, e.Legible r.unit more)
    (hs : ∀ e ∈ args, e.ReadsBack r) : ReadsBack r ⟨.call callee args, ty, token⟩ := by
  intro n power c c' enough past _ loose _
  rw [chars_call] at past
  obtain ⟨c₁, pastCallee, past⟩ := past.split
  obtain ⟨c₂, pastOpen, past⟩ := past.split
  have opens := pastOpen.symbol .openParen (by decide)
  have begins := hc n power c c₁ enough pastCallee
    (pastOpen.ends .openParen (by decide) (by decide)) loose (by simp [notUnary])
  obtain ⟨m, rfl, left⟩ := exists_depth opens (Nat.le_trans (Nat.le_of_lt begins.size_lt) enough)
  obtain ⟨args', read, alikeArgs, shorter⟩ := reads_arguments closesParen legible hs left past
  exact begins.call opens read shorter alikeArgs
    (Nat.lt_of_le_of_lt (Nat.le_of_not_lt loose) (by decide))

theorem arrayLit {t : Ty} {m : Nat} {elements : List Expr} (generics : r.generics = [])
    (source : (Ty.array t m).Source r.unit) (legible : ∀ e ∈ elements, e.Legible r.unit more)
    (hs : ∀ e ∈ elements, e.ReadsBack r) :
    ReadsBack r ⟨.arrayLit (.array t m) elements, ty, token⟩ := by
  intro n power c c' enough past _ loose _
  rw [chars_arrayLit] at past
  obtain ⟨c₁, pastType, past⟩ := past.split
  obtain ⟨c₂, pastOpen, past⟩ := past.split
  have opens := pastOpen.symbol .openCurly (by decide)
  have ends := pastOpen.ends .openCurly (by decide) (by decide)
  have kind := r.kind_before opens
  have after : AfterType r c₁ := ⟨by rw [kind]; rfl, by rw [kind]; exact nofun, ends⟩
  obtain ⟨readType, shorterType⟩ := source.reads_type generics pastType after
  have bracket : (r.before c).kind = .openBracket := by
    rw [Ty.toList_text_array] at pastType
    obtain ⟨_, pastBracket, _⟩ := pastType.split
    exact r.kind_before (pastBracket.symbol _ (by decide))
  obtain ⟨k, rfl, left⟩ := exists_depth opens (Nat.le_trans (Nat.le_of_lt shorterType) enough)
  obtain ⟨elements', read, alike, shorter⟩ := reads_arguments closesCurly legible hs left past
  have first : Reads r (within (k + 1)).first c
      ⟨.arrayLit (.array t m) elements', .array t m, (r.before c).current⟩ c' := by
    refine reads_kind ?_
    rw [bracket]
    exact reads_current (readType.bind ((reads_expect opens).bind (read.bind (reads_pure _))))
  refine .of_first first ?_ (.arrayLit _ alike)
  have := opens.size_lt
  omega

section Builtins

variable {name : String} {expected k : Nat} {t : Ty} {types : List Ty}

theorem reads_builtinTypes_last (notClosed : (r.before c).current.kind ≠ .closeParen)
    (read : Reads r type c t c') (noComma : (r.before c').kind ≠ .comma)
    (reads : Reads r (builtinTypes name expected k) c' types c'') :
    Reads r (builtinTypes name expected (k + 1)) c (t :: types) c'' := by
  refine reads_current ?_
  rw [if_neg notClosed]
  refine read.bind (reads_kind ?_)
  rw [if_neg noComma]
  exact reads.bind (reads_pure _)

theorem reads_builtinTypes_comma {c₁ : Cursor} (notClosed : (r.before c).current.kind ≠ .closeParen)
    (read : Reads r type c t c') (pastComma : c'.Past [','] c₁)
    (reads : Reads r (builtinTypes name expected k) c₁ types c'') :
    Reads r (builtinTypes name expected (k + 1)) c (t :: types) c'' := by
  have comma := pastComma.symbol .comma (by decide)
  refine reads_current ?_
  rw [if_neg notClosed]
  refine read.bind (reads_kind ?_)
  rw [r.kind_before comma, if_pos rfl]
  exact (reads_advance comma).bind (reads.bind (reads_pure _))

theorem reads_builtinTypes {rest : List (List Char)} (generics : r.generics = [])
    (sources : ∀ t ∈ types, t.Source r.unit) (name : String) (expected : Nat)
    (past : c.Past (commas (types.map (fun t => t.text.toList) ++ rest) ++ [')']) c') :
    ∃ c₁, Reads r (builtinTypes name expected types.length) c types c₁ ∧ c₁.size ≤ c.size ∧
      c₁.Past (commas rest ++ [')']) c' := by
  induction types generalizing c with
  | nil => exact ⟨c, reads_pure _, Nat.le_refl _, past⟩
  | cons t types ih =>
    obtain ⟨source, sources⟩ := List.forall_mem_cons.mp sources
    have type {c₁ : Cursor} (pastType : c.Past t.text.toList c₁)
        (after : AfterItem r .closeParen c₁) :
        (r.before c).current.kind ≠ .closeParen ∧ Reads r type c t c₁ ∧ c₁.size < c.size := by
      obtain ⟨token, _, takes, begins, _⟩ := source.takes_first pastType after.ends
      refine ⟨?_, source.reads_type generics pastType after.afterType⟩
      rw [r.current_before takes]
      intro close
      rw [close] at begins
      cases begins
    rw [List.map_cons, List.cons_append] at past
    by_cases empty : types.map (fun t => t.text.toList) ++ rest = []
    · obtain ⟨noTypes, rfl⟩ := List.append_eq_nil_iff.mp empty
      obtain rfl := List.map_eq_nil_iff.mp noTypes
      rw [List.map_nil, List.append_nil, commas_single] at past
      obtain ⟨c₁, pastType, pastClose⟩ := past.split
      obtain ⟨notClosed, read, shorter⟩ := type pastType (closesParen.afterItem pastClose)
      have noComma : (r.before c₁).kind ≠ .comma := by
        rw [r.kind_before (pastClose.symbol .closeParen (by decide))]
        exact nofun
      exact ⟨c₁, reads_builtinTypes_last notClosed read noComma (reads_pure _),
        Nat.le_of_lt shorter, pastClose⟩
    · rw [commas_cons _ empty, List.append_assoc, List.append_assoc, List.append_assoc] at past
      obtain ⟨c₁, pastType, past⟩ := past.split
      obtain ⟨c₂, pastComma, past⟩ := past.split
      obtain ⟨c₃, pastBlank, past⟩ := past.split
      obtain ⟨notClosed, read, shorter⟩ := type pastType (afterItem_comma pastComma)
      obtain ⟨c₄, reads, le, past⟩ := ih sources past
      have same := pastBlank.blank (by decide)
      refine ⟨c₄,
        reads_builtinTypes_comma notClosed read pastComma (reads.congr_left same), ?_, past⟩
      have := (pastComma.symbol .comma (by decide)).size_lt
      have : c₂.size = c₃.size := congrArg List.length same
      omega

theorem isWord_of_ofName? {b : Builtin} (h : Builtin.ofName? name = some b) : Name.IsWord name := by
  have names : ∀ p ∈ Builtin.table, Name.IsWord p.1 := by decide +kernel
  exact names _ (Table.mem_of_lookup h)

theorem builtin {b : Builtin} {args : List Expr} (generics : r.generics = [])
    (known : Builtin.ofName? name = some b) (count : types.length = b.typeArgs)
    (sources : ∀ t ∈ types, t.Source r.unit) (legible : ∀ e ∈ args, e.Legible r.unit more)
    (hs : ∀ e ∈ args, e.ReadsBack r) : ReadsBack r ⟨.builtin name types args, ty, token⟩ := by
  intro n power c c' enough past _ _ _
  rw [chars_builtin] at past
  obtain ⟨c₁, pastAt, past⟩ := past.split
  obtain ⟨c₂, pastName, past⟩ := past.split
  obtain ⟨c₃, pastOpen, past⟩ := past.split
  have sign := pastAt.symbol .at (by decide)
  have opens := pastOpen.symbol .openParen (by decide)
  have word := takes_word (isWord_of_ofName? known) pastName
    (pastOpen.ends .openParen (by decide) (by decide)).word
  obtain ⟨c₄, readTypes, le, past⟩ := reads_builtinTypes generics sources name b.typeArgs past
  obtain ⟨m, rfl, left⟩ := exists_depth sign enough
  have := word.size_lt
  have := opens.size_lt
  obtain ⟨args', read, alike, shorter⟩ := reads_arguments closesParen legible hs
    (n := m) (by omega) past
  have first : Reads r (within (m + 1)).first c
      (.untyped (.builtin name types args')
        ⟨.at, String.singleton '@', ⟨c.position, c₁.position⟩⟩) c' := by
    refine reads_kind ?_
    rw [r.kind_before sign]
    refine (reads_advance sign).bind ((reads_expect word).bind (reads_kind ?_))
    rw [r.kind_before opens, if_neg nofun]
    unfold builtinCall
    rw [known]
    refine (reads_expect opens).bind ?_
    rw [← count] at readTypes ⊢
    exact readTypes.bind (read.bind (reads_pure _))
  refine .of_first first ?_ (.builtin name types alike)
  have := sign.size_lt
  omega

end Builtins

section Structs

variable {w : String} {fields : List FieldInit} {f : FieldInit}

def fieldStep (g : Nested) (fields : List FieldInit) : Parse (List FieldInit ⊕ List FieldInit) := do
  if (← kind) = .closeCurly then
    return .inr fields.reverse
  let field ← g.fieldInit
  match ← kind with
  | .comma | .semicolon =>
    let _ ← advance
  | .closeCurly => pure ()
  | _ => unexpected Kind.closeCurly.name
  return .inl (field :: fields)

theorem structLit_eq_loop (g : Nested) (name : Token) :
    g.structLit name = (do
      let _ ← expect .openCurly
      let fields ← loop (fieldStep g) []
      let _ ← expect .closeCurly
      return .untyped (.structLit (← qualify name.value) none fields) name) :=
  rfl

theorem reads_fieldStep (word : Name.IsWord f.name) (h : f.value.ReadsBack r) (enough : c.size ≤ n)
    (past : c.Past (fieldChars f) c') (before : List FieldInit) :
    c'.size < c.size ∧
      ∃ f', Reads r (fieldStep (within (n + 1)) before) c (.inl (f' :: before)) c' ∧
      f'.name = f.name ∧ f'.value.Alike f.value := by
  obtain ⟨c₁, pastName, past⟩ := past.split
  obtain ⟨c₂, pastColon, past⟩ := past.split
  obtain ⟨c₃, pastBlank, past⟩ := past.split
  obtain ⟨c₄, pastValue, past⟩ := past.split
  obtain ⟨c₅, pastComma, pastBreak⟩ := past.split
  have colon := pastColon.symbol .colon (by decide)
  have comma := pastComma.symbol .comma (by decide)
  have name := takes_word word pastName
    (pastColon.ends .colon (by decide) (by decide)).word
  have blank := pastBlank.blank (by decide)
  have lineBreak := pastBreak.blank (by decide)
  have blankSize : c₂.size = c₃.size := congrArg List.length blank
  have breakSize : c₅.size = c'.size := congrArg List.length lineBreak
  have := name.size_lt
  have := colon.size_lt
  have := comma.size_lt
  have stops : Stops r .comma c₄ := by
    intro form found
    rw [r.kind_before comma] at found
    obtain rfl := Option.some.inj found
    decide
  obtain ⟨shorter, value, read, alike⟩ := h.expr (n := n) (by omega) pastValue
    (pastComma.ends .comma (by decide) (by decide)) (by decide) stops
  refine ⟨by omega, ⟨f.name, value⟩, ?_, rfl, alike⟩
  refine reads_kind ?_
  rw [r.kind_before name, if_neg nofun]
  have field : Reads r (within (n + 1)).fieldInit c ⟨f.name, value⟩ c₄ :=
    (reads_expect name).bind ((reads_expect colon).bind
      ((read.congr_left blank).bind (reads_pure _)))
  refine field.bind (reads_kind ?_)
  rw [r.kind_before comma]
  exact (reads_advance comma).bind ((reads_pure _).congr_right lineBreak)

theorem steps_fields (words : ∀ f ∈ fields, Name.IsWord f.name)
    (hs : ∀ f ∈ fields, f.value.ReadsBack r) (enough : c.size ≤ n)
    (past : c.Past (fields.flatMap fieldChars) c') (before : List FieldInit) :
    ∃ fs, Steps r (fieldStep (within (n + 1))) before c (fs.reverse ++ before) c' ∧
      List.Forall₂ (fun f f' => f.name = f'.name ∧ f.value.Alike f'.value) fs fields := by
  induction fields generalizing c before with
  | nil =>
    obtain rfl := past.of_nil
    exact ⟨[], .refl before c, .nil⟩
  | cons f fields ih =>
    obtain ⟨word, words⟩ := List.forall_mem_cons.mp words
    obtain ⟨h, hs⟩ := List.forall_mem_cons.mp hs
    rw [List.flatMap_cons] at past
    obtain ⟨c₁, pastField, past⟩ := past.split
    obtain ⟨shorter, f', step, alike⟩ := reads_fieldStep word h enough pastField before
    obtain ⟨fs, steps, alikes⟩ := ih words hs (by omega) past (f' :: before)
    refine ⟨f' :: fs, .head step shorter ?_, .cons alike alikes⟩
    simpa using steps

theorem reads_structLit (word : Name.IsWord w) (words : ∀ f ∈ fields, Name.IsWord f.name)
    (hs : ∀ f ∈ fields, f.value.ReadsBack r) (enough : c.size ≤ n)
    (past : c.Past (structChars w fields) c') :
    ∃ fs token, Reads r (within n).first c
        (.untyped (.structLit (Name.qualify w r.unit) none fs) token) c' ∧ c'.size < c.size ∧
      List.Forall₂ (fun f f' => f.name = f'.name ∧ f.value.Alike f'.value) fs fields := by
  obtain ⟨c₁, pastAt, past⟩ := past.split
  obtain ⟨c₂, pastName, past⟩ := past.split
  obtain ⟨c₃, pastOpen, past⟩ := past.split
  obtain ⟨c₄, pastBreak, past⟩ := past.split
  obtain ⟨c₅, pastFields, pastClose⟩ := past.split
  have sign := pastAt.symbol .at (by decide)
  have opens := pastOpen.symbol .openCurly (by decide)
  have closes := pastClose.symbol .closeCurly (by decide)
  have name := takes_word word pastName
    (pastOpen.ends .openCurly (by decide) (by decide)).word
  have lineBreak := pastBreak.blank (by decide)
  have breakSize : c₃.size = c₄.size := congrArg List.length lineBreak
  have := name.size_lt
  have := opens.size_lt
  have := closes.size_lt
  obtain ⟨m, rfl, left⟩ := exists_depth sign enough
  obtain ⟨fs, steps, alikes⟩ := steps_fields (n := m) words hs (by omega) pastFields []
  have last : Reads r (fieldStep (within (m + 1)) (fs.reverse ++ [])) c₅ (.inr fs) c₅ := by
    refine reads_kind ?_
    rw [r.kind_before closes, if_pos rfl, List.append_nil, List.reverse_reverse]
    exact reads_pure _
  refine ⟨fs, ⟨.identifier, w, ⟨c₁.position, c₂.position⟩⟩, reads_kind ?_, ?_, alikes⟩
  · rw [r.kind_before sign]
    refine (reads_advance sign).bind ((reads_expect name).bind (reads_kind ?_))
    rw [r.kind_before opens, if_pos rfl, structLit_eq_loop]
    refine (reads_expect opens).bind (((steps.loop last).congr_left lineBreak).bind ?_)
    exact (reads_expect closes).bind (reads_qualify (reads_pure _))
  · have := steps.size_le
    have := sign.size_lt
    omega

theorem structLit {module? : Option String} (word : Name.IsWord w)
    (modules : ∀ m ∈ module?, Name.IsWord m) (words : ∀ f ∈ fields, Name.IsWord f.name)
    (hs : ∀ f ∈ fields, f.value.ReadsBack r) :
    ReadsBack r ⟨.structLit (Name.qualify w r.unit) (module?.map (Name.qualify · r.unit)) fields,
      ty, token⟩ := by
  intro n power c c' enough past _ loose _
  cases module? with
  | none =>
    rw [Option.map_none, chars_structLit word] at past
    obtain ⟨fs, token', read, shorter, alikes⟩ := reads_structLit word words hs enough past
    exact .of_first read shorter (.structLit _ _ alikes)
  | some m =>
    have isName := modules m rfl
    rw [Option.map_some, chars_structLit_some word isName] at past
    obtain ⟨c₁, pastModule, past⟩ := past.split
    obtain ⟨c₂, pastDot, past⟩ := past.split
    have dot := pastDot.symbol .dot (by decide)
    have takes := takes_word isName pastModule (by rw [pastDot.rest]; simp [Pattern.isWordPart])
    have begins : Begins r (within n) power c
        ⟨.ident (Name.qualify m r.unit), .todo, ⟨.identifier, m, ⟨c.position, c₁.position⟩⟩⟩ c₁ :=
      .of_first (reads_first_word takes) takes.size_lt rfl
    have := takes.size_lt
    obtain ⟨k, rfl, left⟩ := exists_depth dot (n := n) (by omega)
    obtain ⟨fs, token', read, shorter, alikes⟩ := reads_structLit word words hs left past
    have member : Reads r ((within (k + 1)).expr .member) c₂ _ c' :=
      read.bind ((Steps.refl _ _).loop (reads_extendStep_stop stops_member _))
    have found : (r.before c₁).kind.infixForm? = some .member := by
      rw [r.kind_before dot]
      rfl
    refine begins.extend found (Nat.lt_of_le_of_lt (Nat.le_of_not_lt loose) (by decide))
      (Nat.lt_trans shorter dot.size_lt) fun left alike => ?_
    refine ⟨_, (reads_advance dot).bind (member.bind (reads_pure _)), ?_⟩
    rw [untyped, memberOf_structLit alike.node_eq_ident]
    exact .structLit _ _ alikes

end Structs

end Lists

end Expr.ReadsBack

theorem Expr.Legible.readsBack {r : Reader} {more : Prop} {e : Expr} (generics : r.generics = [])
    (h : e.Legible r.unit more) : e.ReadsBack r := by
  induction h with
  | ident word => exact .ident word
  | integer fits => exact .integer fits
  | float _ positional => exact .float positional
  | string => exact .string
  | binary _ notDot _ right ihl ihr => exact .binary notDot ihl ihr right.clear
  | member _ notUnary word ih => exact .member ih notUnary word
  | unary _ operand ih => exact .unary ih operand.clear
  | index _ notUnary _ ihb ihi => exact .index ihb notUnary ihi
  | call _ notUnary args ih ihs => exact .call ih notUnary args ihs
  | builtin known count sources args ihs => exact .builtin generics known count sources args ihs
  | structLit word modules words _ ihs => exact .structLit word modules words ihs
  | arrayLit source elements ihs => exact .arrayLit generics source elements ihs

end FrontEnd
