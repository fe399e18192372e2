import FrontEnd.Proofs.Reading.Spaced
import FrontEnd.Proofs.Reading.Types
import FrontEnd.Proofs.Syntax.Relabel
import FrontEnd.Syntax.Power

/-!
Two grammars of operator expressions. The flat one says which sequences of lexemes there are:
operands with operators between them. The stratified one has a tier for each strength of binding,
and gives each sequence its tree: every sequence of the flat grammar has a derivation in the
stratified one.
-/

namespace FrontEnd

namespace Grammar

inductive Tier where
  | logical | relational | additive | bitwise | multiplicative | unary | primary
  deriving DecidableEq, Repr

namespace Tier

def next? : Tier → Option Tier
  | .logical => some .relational
  | .relational => some .additive
  | .additive => some .bitwise
  | .bitwise => some .multiplicative
  | .multiplicative => some .unary
  | .unary => some .primary
  | .primary => none

def rank : Tier → Nat
  | .logical => 0
  | .relational => 1
  | .additive => 2
  | .bitwise => 3
  | .multiplicative => 4
  | .unary => 5
  | .primary => 6

theorem rank_injective : Function.Injective rank := by
  intro t u equal
  cases t <;> cases u <;> first | rfl | cases equal

theorem rank_next? {t u : Tier} (h : t.next? = some u) : u.rank = t.rank + 1 := by
  cases t <;> cases h <;> rfl

theorem exists_next? {t u : Tier} (less : t.rank < u.rank) : ∃ v, t.next? = some v := by
  cases t with
  | primary => cases u <;> exact absurd less (by decide)
  | _ => exact ⟨_, rfl⟩

/-- The tier of the operators between operands. Assignments and points are none of them. -/
def ofOp? : InfixOp → Option Tier
  | .and | .or => some .logical
  | .equals | .notEquals | .less | .lessEquals | .greater | .greaterEquals => some .relational
  | .add | .subtract => some .additive
  | .bitAnd | .bitOr | .bitXor | .shiftLeft | .shiftRight => some .bitwise
  | .multiply | .divide | .modulo => some .multiplicative
  | .assign | .dot => none

variable {op : InfixOp} {t : Tier}

theorem ofOp?_isSome (notAssign : op ≠ .assign) (notDot : op ≠ .dot) : ∃ t, ofOp? op = some t := by
  cases op with
  | assign => exact absurd rfl notAssign
  | dot => exact absurd rfl notDot
  | _ => exact ⟨_, rfl⟩

theorem next?_of_ofOp? (h : ofOp? op = some t) : ∃ u, t.next? = some u ∧ u.rank ≤ unary.rank := by
  cases op <;> cases h <;> exact ⟨_, rfl, by decide⟩

end Tier

end Grammar

def InfixOp.lexeme (op : InfixOp) : Lexeme :=
  ⟨op.kind, op.symbol⟩

def PrefixOp.lexeme (op : PrefixOp) : Lexeme :=
  ⟨op.kind, op.symbol⟩

namespace Grammar

inductive Numeral : Lexeme → Nat → Prop where
  | decimal {ds : List Char} : ds ≠ [] → (∀ d ∈ ds, d.isDigit = true) →
      Numeral ⟨.integer, String.ofList ds⟩ (Escape.numeral 10 ds)
  | hex {ds : List Char} : ds ≠ [] → (∀ d ∈ ds, Escape.isHexDigit d = true) →
      Numeral ⟨.hex, String.ofList ('0' :: 'x' :: ds)⟩ (Escape.numeral 16 ds)
  | binary {ds : List Char} : ds ≠ [] → (∀ d ∈ ds, Pattern.isBit d = true) →
      Numeral ⟨.binary, String.ofList ('0' :: 'b' :: ds)⟩ (Escape.numeral 2 ds)

inductive Shape where
  | sequence | operand | primary | arguments

/-- The flat grammar: operands with operators between them, where an operand is an atom with
operators in front and calls, indices and members behind. -/
inductive Flat : Shape → List Lexeme → Prop where
  | operand {xs : List Lexeme} : Flat .operand xs → Flat .sequence xs
  | operator {xs ys : List Lexeme} {op : InfixOp} : op ≠ .assign → op ≠ .dot →
      Flat .sequence xs → Flat .operand ys → Flat .sequence (xs ++ op.lexeme :: ys)
  | primary {xs : List Lexeme} : Flat .primary xs → Flat .operand xs
  | unary {xs : List Lexeme} (op : PrefixOp) : Flat .operand xs → Flat .operand (op.lexeme :: xs)
  | ident {w : String} : Name.IsWord w → Flat .primary [⟨.identifier, w⟩]
  | integer {x : Lexeme} {n : Nat} : Numeral x n → n < Word.signedLimit → Flat .primary [x]
  | group {xs : List Lexeme} : Flat .sequence xs →
      Flat .primary (⟨.openParen, "("⟩ :: (xs ++ [⟨.closeParen, ")"⟩]))
  | callNone {xs : List Lexeme} : Flat .primary xs →
      Flat .primary (xs ++ [⟨.openParen, "("⟩, ⟨.closeParen, ")"⟩])
  | call {xs ys : List Lexeme} : Flat .primary xs → Flat .arguments ys →
      Flat .primary (xs ++ ⟨.openParen, "("⟩ :: (ys ++ [⟨.closeParen, ")"⟩]))
  | index {xs ys : List Lexeme} : Flat .primary xs → Flat .sequence ys →
      Flat .primary (xs ++ ⟨.openBracket, "["⟩ :: (ys ++ [⟨.closeBracket, "]"⟩]))
  | member {xs : List Lexeme} {w : String} : Flat .primary xs → Name.IsWord w →
      Flat .primary (xs ++ [⟨.dot, "."⟩, ⟨.identifier, w⟩])
  | argument {xs : List Lexeme} : Flat .sequence xs → Flat .arguments xs
  | arguments {xs ys : List Lexeme} : Flat .sequence xs → Flat .arguments ys →
      Flat .arguments (xs ++ ⟨.comma, ","⟩ :: ys)

/-- A node of which nothing but the tree is known. -/
def bare (node : Node) : Expr :=
  ⟨node, .todo, ⟨.eof, "", ⟨.nowhere, .nowhere⟩⟩⟩

/-- What the stratified grammar derives: an expression of a tier, or the arguments of a call. -/
inductive Phrase where
  | expr (t : Tier) (e : Expr)
  | arguments (es : List Expr)

/-- The stratified grammar of a unit. The left operand of an operator is in the tier of the operator
and the right one in the next tier, so operators of one tier associate to the left. -/
inductive Derives (unit : String) : Phrase → List Lexeme → Prop where
  | next {t u : Tier} {e : Expr} {xs : List Lexeme} : t.next? = some u →
      Derives unit (.expr u e) xs → Derives unit (.expr t e) xs
  | binary {op : InfixOp} {t u : Tier} {left right : Expr} {xs ys : List Lexeme} :
      Tier.ofOp? op = some t → t.next? = some u → Derives unit (.expr t left) xs →
      Derives unit (.expr u right) ys →
      Derives unit (.expr t (bare (.binary op left right))) (xs ++ op.lexeme :: ys)
  | unary {e : Expr} {xs : List Lexeme} (op : PrefixOp) : Derives unit (.expr .unary e) xs →
      Derives unit (.expr .unary (bare (.unary op e))) (op.lexeme :: xs)
  | ident {w : String} : Name.IsWord w →
      Derives unit (.expr .primary (bare (.ident (Name.qualify w unit)))) [⟨.identifier, w⟩]
  | integer {x : Lexeme} {n : Nat} : Numeral x n → n < Word.signedLimit →
      Derives unit (.expr .primary (bare (.integer n))) [x]
  | group {e : Expr} {xs : List Lexeme} : Derives unit (.expr .logical e) xs →
      Derives unit (.expr .primary e) (⟨.openParen, "("⟩ :: (xs ++ [⟨.closeParen, ")"⟩]))
  | callNone {callee : Expr} {xs : List Lexeme} : Derives unit (.expr .primary callee) xs →
      Derives unit (.expr .primary (bare (.call callee [])))
        (xs ++ [⟨.openParen, "("⟩, ⟨.closeParen, ")"⟩])
  | call {callee : Expr} {args : List Expr} {xs ys : List Lexeme} :
      Derives unit (.expr .primary callee) xs → Derives unit (.arguments args) ys →
      Derives unit (.expr .primary (bare (.call callee args)))
        (xs ++ ⟨.openParen, "("⟩ :: (ys ++ [⟨.closeParen, ")"⟩]))
  | index {base index : Expr} {xs ys : List Lexeme} :
      Derives unit (.expr .primary base) xs → Derives unit (.expr .logical index) ys →
      Derives unit (.expr .primary (bare (.index base index)))
        (xs ++ ⟨.openBracket, "["⟩ :: (ys ++ [⟨.closeBracket, "]"⟩]))
  | member {base : Expr} {xs : List Lexeme} {w : String} :
      Derives unit (.expr .primary base) xs → Name.IsWord w →
      Derives unit (.expr .primary
          (bare (.binary .dot base (bare (.ident (Name.qualify w unit))))))
        (xs ++ [⟨.dot, "."⟩, ⟨.identifier, w⟩])
  | argument {e : Expr} {xs : List Lexeme} : Derives unit (.expr .logical e) xs →
      Derives unit (.arguments [e]) xs
  | arguments {e : Expr} {es : List Expr} {xs ys : List Lexeme} :
      Derives unit (.expr .logical e) xs → Derives unit (.arguments es) ys →
      Derives unit (.arguments (e :: es)) (xs ++ ⟨.comma, ","⟩ :: ys)

section Lexemes

variable {x : Lexeme} {xs : List Lexeme} {n : Nat}

theorem Numeral.natural? (h : Numeral x n) (span : Span) :
    Literal.natural? ⟨x.kind, x.text, span⟩ = some n := by
  cases h <;> simp [Literal.natural?]

theorem Numeral.alone (h : Numeral x n) : x.Alone := by
  cases h with
  | decimal nonempty digits =>
    have cut := Pattern.cut_digits nonempty digits (⟨nofun, nofun⟩ : Pattern.Ends [])
    rw [List.append_nil] at cut
    exact .of_cut cut nonempty fun c mem => Pattern.isWordPart_of_isDigit (digits c mem)
  | hex nonempty digits =>
    refine .of_cut (Pattern.cut_hex nonempty digits) nofun ?_
    simp only [List.forall_mem_cons]
    exact ⟨rfl, rfl, fun c mem => Pattern.isWordPart_of_isHexDigit (digits c mem)⟩
  | binary nonempty digits =>
    refine .of_cut (Pattern.cut_binary nonempty digits) nofun ?_
    simp only [List.forall_mem_cons]
    exact ⟨rfl, rfl, fun c mem => Pattern.isWordPart_of_isBit (digits c mem)⟩

theorem alone_word {w : String} (h : Name.IsWord w) : Lexeme.Alone ⟨.identifier, w⟩ := by
  have cut : Pattern.cut (w.toList ++ []) = _ := Pattern.cut_word h.1 (by simp)
  rw [List.append_nil, String.ofList_toList, h.2] at cut
  refine ⟨cut, fun quote => absurd (Pattern.lexeme_word h.1 _ quote) (by decide), ?_⟩
  obtain ⟨first, more, text, _⟩ := Pattern.isWord_iff.mp h.1
  rw [Lexeme.chars, text]
  exact List.cons_ne_nil _ _

theorem alone_operator (op : InfixOp) : op.lexeme.Alone := by
  cases op <;> exact ⟨rfl, by decide, by decide⟩

theorem alone_prefixOp (op : PrefixOp) : op.lexeme.Alone := by
  cases op <;> exact ⟨rfl, by decide, by decide⟩

theorem Flat.alone {shape : Shape} (h : Flat shape xs) : ∀ x ∈ xs, x.Alone := by
  have parens : Lexeme.Alone ⟨.openParen, "("⟩ ∧ Lexeme.Alone ⟨.closeParen, ")"⟩ :=
    ⟨⟨rfl, by decide, by decide⟩, ⟨rfl, by decide, by decide⟩⟩
  have brackets : Lexeme.Alone ⟨.openBracket, "["⟩ ∧ Lexeme.Alone ⟨.closeBracket, "]"⟩ :=
    ⟨⟨rfl, by decide, by decide⟩, ⟨rfl, by decide, by decide⟩⟩
  have dot : Lexeme.Alone ⟨.dot, "."⟩ := ⟨rfl, by decide, by decide⟩
  have comma : Lexeme.Alone ⟨.comma, ","⟩ := ⟨rfl, by decide, by decide⟩
  induction h with
  | operand _ ih | primary _ ih | argument _ ih => exact ih
  | operator _ _ _ _ ih ih' =>
    simp only [List.forall_mem_append, List.forall_mem_cons]
    exact ⟨ih, alone_operator _, ih'⟩
  | unary op _ ih => exact List.forall_mem_cons.mpr ⟨alone_prefixOp op, ih⟩
  | ident word => simpa using alone_word word
  | integer numeral _ => simpa using numeral.alone
  | group _ ih =>
    simp only [List.forall_mem_append, List.forall_mem_cons]
    exact ⟨parens.1, ih, parens.2, nofun⟩
  | callNone _ ih =>
    simp only [List.forall_mem_append, List.forall_mem_cons]
    exact ⟨ih, parens.1, parens.2, nofun⟩
  | call _ _ ih ih' =>
    simp only [List.forall_mem_append, List.forall_mem_cons]
    exact ⟨ih, parens.1, ih', parens.2, nofun⟩
  | index _ _ ih ih' =>
    simp only [List.forall_mem_append, List.forall_mem_cons]
    exact ⟨ih, brackets.1, ih', brackets.2, nofun⟩
  | member _ word ih =>
    simp only [List.forall_mem_append, List.forall_mem_cons]
    exact ⟨ih, dot, alone_word word, nofun⟩
  | arguments _ _ ih ih' =>
    simp only [List.forall_mem_append, List.forall_mem_cons]
    exact ⟨ih, comma, ih'⟩

end Lexemes

section Existence

variable {unit : String} {e : Expr} {xs ys : List Lexeme}

theorem Derives.weaken {t u : Tier} (h : Derives unit (.expr u e) xs) (le : t.rank ≤ u.rank) :
    Derives unit (.expr t e) xs := by
  by_cases same : t = u
  · exact same ▸ h
  have less : t.rank < u.rank := Nat.lt_of_le_of_ne le fun equal => same (Tier.rank_injective equal)
  obtain ⟨v, next⟩ := Tier.exists_next? less
  have up := Tier.rank_next? next
  exact .next next (h.weaken (by omega))
termination_by u.rank - t.rank

/-- An operand can be put behind an expression of the operator's tier or of a weaker one: the
operator takes all of it as its left operand, or only the rightmost operand that is in its tier. -/
theorem Derives.append {op : InfixOp} {s t : Tier} {last : Expr} (tier : Tier.ofOp? op = some s)
    (operand : Derives unit (.expr .unary last) ys) (h : Derives unit (.expr t e) xs)
    (le : t.rank ≤ s.rank) : ∃ e', Derives unit (.expr t e') (xs ++ op.lexeme :: ys) := by
  obtain ⟨u, next, below⟩ := Tier.next?_of_ofOp? tier
  have above := Tier.rank_next? next
  have here {e : Expr} {xs : List Lexeme} (h : Derives unit (.expr s e) xs) :
      ∃ e', Derives unit (.expr s e') (xs ++ op.lexeme :: ys) :=
    ⟨_, .binary tier next h (operand.weaken below)⟩
  generalize phrase : Phrase.expr t e = p at h
  induction h generalizing t e with
  | @next t v _ _ further inner ih =>
    cases phrase
    by_cases same : t = s
    · subst same
      exact here (.next further inner)
    have up := Tier.rank_next? further
    have differ : t.rank ≠ s.rank := fun equal => same (Tier.rank_injective equal)
    obtain ⟨e', longer⟩ := ih (by omega) rfl
    exact ⟨e', .next further longer⟩
  | @binary op' t v left right _ _ tier' further hl hr _ ih =>
    cases phrase
    by_cases same : t = s
    · subst same
      exact here (.binary tier' further hl hr)
    have up := Tier.rank_next? further
    have differ : t.rank ≠ s.rank := fun equal => same (Tier.rank_injective equal)
    obtain ⟨right', longer⟩ := ih (by omega) rfl
    refine ⟨bare (.binary op' left right'), ?_⟩
    rw [List.append_assoc, List.cons_append]
    exact .binary tier' further hl longer
  | argument | arguments => cases phrase
  | _ =>
    -- The other phrases are in tiers that no operator is in.
    cases phrase
    simp only [Tier.rank] at le below above
    omega

theorem Flat.exists_derives {shape : Shape} (h : Flat shape xs) (unit : String) : match shape with
    | .sequence => ∃ e, Derives unit (.expr .logical e) xs
    | .operand => ∃ e, Derives unit (.expr .unary e) xs
    | .primary => ∃ e, Derives unit (.expr .primary e) xs
    | .arguments => ∃ es, Derives unit (.arguments es) xs := by
  induction h with
  | operand _ ih =>
    obtain ⟨e, derives⟩ := ih
    exact ⟨e, derives.weaken (by decide)⟩
  | operator notAssign notDot _ _ ih ih' =>
    obtain ⟨e, derives⟩ := ih
    obtain ⟨last, operand⟩ := ih'
    obtain ⟨t, tier⟩ := Tier.ofOp?_isSome notAssign notDot
    exact operand.append tier derives (Nat.zero_le _)
  | primary _ ih =>
    obtain ⟨e, derives⟩ := ih
    exact ⟨e, .next rfl derives⟩
  | unary op _ ih =>
    obtain ⟨e, derives⟩ := ih
    exact ⟨_, .unary op derives⟩
  | ident word => exact ⟨_, .ident word⟩
  | integer numeral fits => exact ⟨_, .integer numeral fits⟩
  | group _ ih =>
    obtain ⟨e, derives⟩ := ih
    exact ⟨e, .group derives⟩
  | callNone _ ih =>
    obtain ⟨callee, derives⟩ := ih
    exact ⟨_, .callNone derives⟩
  | call _ _ ih ih' =>
    obtain ⟨callee, derives⟩ := ih
    obtain ⟨args, arguments⟩ := ih'
    exact ⟨_, .call derives arguments⟩
  | index _ _ ih ih' =>
    obtain ⟨base, derives⟩ := ih
    obtain ⟨index, inside⟩ := ih'
    exact ⟨_, .index derives inside⟩
  | member _ word ih =>
    obtain ⟨base, derives⟩ := ih
    exact ⟨_, .member derives word⟩
  | argument _ ih =>
    obtain ⟨e, derives⟩ := ih
    exact ⟨[e], .argument derives⟩
  | arguments _ _ ih ih' =>
    obtain ⟨e, derives⟩ := ih
    obtain ⟨es, rest⟩ := ih'
    exact ⟨e :: es, .arguments derives rest⟩

end Existence

end Grammar

end FrontEnd
