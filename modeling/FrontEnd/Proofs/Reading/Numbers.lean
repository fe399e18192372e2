import FrontEnd.Proofs.Halting
import FrontEnd.Proofs.Token.Longest
import Mathlib.Data.Nat.Digits.Defs

namespace FrontEnd

/-- The place of a character among the digits of all bases, capital or not. -/
def digit (c : Char) : Nat :=
  "0123456789abcdef".toList.idxOf c.toLower

/-- The base that numbers of a kind are written in, and the mark in front of their digits. -/
def Kind.base? : Kind → Option (Nat × List Char)
  | .integer => some (10, [])
  | .hex => some (16, ['0', 'x'])
  | .binary => some (2, ['0', 'b'])
  | _ => none

/-- The token writes the number: behind the mark of a base there are digits of that base, one at
least, of which the last counts ones. -/
def Token.Denotes (t : Token) (v : Nat) : Prop :=
  ∃ base mark ds, t.kind.base? = some (base, mark) ∧ t.value.toList = mark ++ ds ∧ ds ≠ [] ∧
    (∀ d ∈ ds, digit d < base) ∧ v = Nat.ofDigits base (ds.map digit).reverse

theorem Token.Denotes.unique {t : Token} {v w : Nat} (h : t.Denotes v)
    (h' : t.Denotes w) : w = v := by
  obtain ⟨base, mark, ds, kind, text, _, _, rfl⟩ := h
  obtain ⟨base', mark', ds', kind', text', _, _, rfl⟩ := h'
  obtain ⟨rfl, rfl⟩ := Prod.mk.inj (Option.some.inj (kind.symm.trans kind'))
  rw [List.append_cancel_left (text.symm.trans text')]

section Digits

theorem digit_spec {c : Char} (h : Escape.isHexDigit c = true) :
    Escape.digitValue c = digit c ∧ digit c < 16 ∧ (c.isDigit = true → digit c < 10) ∧
      (Pattern.isBit c = true → digit c < 2) := by
  have small : c.toNat < 128 := by
    simp only [Escape.isHexDigit, Char.isDigit, Bool.or_eq_true, Bool.and_eq_true,
      decide_eq_true_eq,
      Char.le_def, UInt32.le_iff_toNat_le] at h
    change c.val.toNat < 128
    obtain ((h | h) | h) := h <;> exact Nat.lt_of_le_of_lt h.2 (by decide)
  have all : ∀ n < 128, Escape.isHexDigit (Char.ofNat n) = true →
      Escape.digitValue (Char.ofNat n) = digit (Char.ofNat n) ∧ digit (Char.ofNat n) < 16 ∧
      ((Char.ofNat n).isDigit = true → digit (Char.ofNat n) < 10) ∧
      (Pattern.isBit (Char.ofNat n) = true → digit (Char.ofNat n) < 2) := by
    decide +kernel
  have here := all c.toNat small
  rw [Char.ofNat_toNat] at here
  exact here h

theorem numeral_eq_ofDigits {ds : List Char} (h : ∀ d ∈ ds, Escape.isHexDigit d = true)
    (base : Nat) :
    Escape.numeral base ds = Nat.ofDigits base (ds.map digit).reverse := by
  rw [Nat.ofDigits_eq_foldr, ← List.map_reverse, List.foldr_map, Escape.numeral,
    List.foldl_eq_foldr_reverse]
  refine List.foldr_ext _ _ 0 fun d mem n => ?_
  rw [(digit_spec (h d (List.mem_reverse.mp mem))).1, Nat.add_comm, Nat.mul_comm]
  rfl

theorem Token.denotes_of_digits {kind : Kind} {base : Nat} {ds : List Char} {span : Span}
    (mark : List Char)
    (marked : kind.base? = some (base, mark)) (nonempty : ds ≠ [])
    (digits : ∀ d ∈ ds, Escape.isHexDigit d = true ∧ digit d < base) :
    (Token.mk kind (String.ofList (mark ++ ds)) span).Denotes (Escape.numeral base ds) :=
  ⟨base, mark, ds, marked, String.toList_ofList, nonempty, fun d mem => (digits d mem).2,
    numeral_eq_ofDigits (fun d mem => (digits d mem).1) base⟩

end Digits

theorem Pattern.denotes_cut {cs : List Char} {t : Token} (h : (cut cs).1 = some (t.kind, t.value))
    (number : t.kind ∈ [Kind.integer, .hex, .binary]) :
    ∃ v, t.Denotes v ∧ Literal.natural? t = some v := by
  obtain ⟨kind, value, span⟩ := t
  unfold cut at h
  split at h
  case h_1 p lexeme first =>
    obtain ⟨hp, hl⟩ := first_eq_some first
    have fits := fits_of_lexeme hl
    obtain ⟨⟨rfl, rfl⟩ | ⟨rfl, rfl⟩ | ⟨rfl, rfl⟩, rfl⟩ := token?_number hp h number
    · refine ⟨_, Token.denotes_of_digits [] rfl fits.1 fun d mem => ?_, by
        simp [Literal.natural?]⟩
      have hex : Escape.isHexDigit d = true := by simp [Escape.isHexDigit, fits.2 d mem]
      exact ⟨hex, (digit_spec hex).2.2.1 (fits.2 d mem)⟩
    · obtain ⟨ds, rfl, nonempty, digits⟩ := fits
      exact ⟨_, Token.denotes_of_digits ['0', 'x'] rfl nonempty fun d mem =>
        ⟨digits d mem, (digit_spec (digits d mem)).2.1⟩, by simp [Literal.natural?]⟩
    · obtain ⟨ds, rfl, nonempty, digits⟩ := fits
      refine ⟨_, Token.denotes_of_digits ['0', 'b'] rfl nonempty fun d mem => ?_, by
        simp [Literal.natural?]⟩
      obtain rfl | rfl : d = '0' ∨ d = '1' := by simpa [isBit] using digits d mem
      all_goals decide +kernel
  case h_2 =>
    cases h
    simp at number

theorem Cursor.denotes_of_mem {c : Cursor} {t : Token} (lexed : t ∈ c.tokens)
    (number : t.kind ∈ [Kind.integer, .hex, .binary]) :
    ∃ v, t.Denotes v ∧ Literal.natural? t = some v := by
  have notEof : t.kind ≠ .eof := fun eof => by simp [eof] at number
  obtain ⟨cs, cut⟩ := cut_of_mem lexed notEof
  exact Pattern.denotes_cut cut number

theorem Token.Denotes.natural? {t : Token} {v : Nat} (h : t.Denotes v) {c : Cursor}
    (lexed : t ∈ c.tokens) : Literal.natural? t = some v := by
  have number : t.kind ∈ [Kind.integer, .hex, .binary] := by
    obtain ⟨_, _, _, marked, _⟩ := h
    cases kind : t.kind <;> simp_all [Kind.base?]
  obtain ⟨w, denotes, value⟩ := Cursor.denotes_of_mem lexed number
  rw [value, denotes.unique h]

theorem Literal.below?_eq {t : Token} {v : Nat} (value : natural? t = some v) (limit : Nat) :
    below? limit t = if v < limit then some v else none := by
  rw [below?, value, Option.filter_some]
  simp only [decide_eq_true_eq]

def Token.expression (t : Token) (v : Nat) : Except Diagnostic Expr :=
  if v < 2 ^ 63 then .ok ⟨.integer v, .int 32, t⟩
  else .error ⟨.parse (.numberParseError t.value), t.start⟩

def Token.length (t : Token) (v : Nat) : Except Diagnostic Nat :=
  if v < 2 ^ 64 then .ok v else .error ⟨.parse (.invalidArraySize t.text), t.start⟩

namespace Parse

variable {r : Reader} {t : Token} {v : Nat} {rest : List Token}

theorem run_kind (here : r.tokens = t :: rest) : kind.run r = (.ok t.kind, r) := by
  change (Except.ok (r.tokens.headD r.eof).kind, r) = _
  rw [here, List.headD_cons]

theorem run_advance (here : r.tokens = t :: rest) :
    advance.run r = (.ok t, { r with tokens := rest }) := by
  change (Except.ok (r.tokens.headD r.eof), { r with tokens := r.tokens.tail }) = _
  rw [here, List.headD_cons, List.tail_cons]

theorem run_first (value : Literal.natural? t = some v) (here : r.tokens = t :: rest) (g : Nested) :
    g.first.run r = (t.expression v, { r with tokens := rest }) := by
  have taken : Literal.integer? t = if v < 2 ^ 63 then some v else none :=
    Literal.below?_eq value _
  rw [Nested.first, run_bind, run_kind here, Token.expression]
  obtain ⟨kind, text, span⟩ := t
  cases kind with
  | integer | hex | binary =>
    change literal.run r = _
    rw [literal, run_bind, run_advance here]
    dsimp only
    rw [taken]
    split_ifs <;> rfl
  | _ => cases value

theorem run_arrayLength (value : Literal.natural? t = some v) (here : r.tokens = t :: rest) :
    arrayLength.run r = (t.length v, { r with tokens := rest }) := by
  have taken : Literal.length? t = if v < 2 ^ 64 then some v else none :=
    Literal.below?_eq value _
  rw [arrayLength, run_bind, run_advance here, Token.length]
  dsimp only
  rw [taken]
  split_ifs <;> rfl

theorem run_loop_stop {g : Nested} {power : Power} {left : Expr}
    (stops : ∀ form, r.kind.infixForm? = some form → ¬ power < form.power) :
    (loop (g.extendStep power) left).run r = (.ok left, r) := by
  have last : (g.extendStep power left).run r = (.ok (.inr left), r) := by
    have kind : kind.run r = (.ok r.kind, r) := rfl
    rw [Nested.extendStep, run_bind, kind]
    dsimp only
    cases found : r.kind.infixForm? with
    | none => rfl
    | some form =>
      dsimp only
      rw [if_neg (stops form found)]
      rfl
  change (loopWithin (g.extendStep power) r.tokens left).run r = _
  unfold loopWithin
  rw [run_bind, last]
  rfl

theorem run_expression {power : Power} (value : Literal.natural? t = some v)
    (here : r.tokens = t :: rest) (stops : v < 2 ^ 63 → ∀ form,
      ({ r with tokens := rest } : Reader).kind.infixForm? = some form → ¬ power < form.power) :
    (expression power).run r = (t.expression v, { r with tokens := rest }) := by
  rw [Nested.run_expression, Nested.expr_within_succ, Nested.expression_eq_loop, run_bind,
    run_first value here, Token.expression]
  by_cases small : v < 2 ^ 63
  · rw [if_pos small]
    exact run_loop_stop (stops small)
  · rw [if_neg small]

theorem run_array (value : Literal.natural? t = some v) {bracket : Token}
    (opens : bracket.kind = .openBracket) (here : r.tokens = bracket :: t :: rest) :
    type.run r = (do
      let n ← MonadExcept.ofExcept (t.length v)
      let _ ← expect .closeBracket
      return .array (← typeWithin (t :: rest)) n : Parse Ty).run { r with tokens := rest } := by
  change (typeWithin r.tokens).run r = _
  rw [here, Setting.typeWithin_cons, Setting.typeStep, run_bind, run_kind here, opens]
  dsimp only
  rw [run_bind, run_advance here]
  dsimp only
  rw [run_bind, run_arrayLength value rfl, run_bind]
  cases t.length v <;> rfl

/-- Numbers are read exactly. A number token of a text writes one number. At the beginning of an
expression and as a whole expression it is that number if that fits a signed word, and an error
otherwise; as the length of an array likewise, if it fits a word. So a number is the same in all
bases. -/
theorem numbers_exact {c : Cursor} (lexed : t ∈ c.tokens)
    (number : t.kind ∈ [Kind.integer, .hex, .binary]) :
    ∃ v, (∀ w, t.Denotes w ↔ w = v) ∧
      (∀ (r : Reader) (rest : List Token), r.tokens = t :: rest →
        (∀ g : Nested, g.first.run r = (t.expression v, { r with tokens := rest })) ∧
        (∀ power, (v < 2 ^ 63 → ∀ form, ({ r with tokens := rest } : Reader).kind.infixForm? =
            some form → ¬ power < form.power) →
          (expression power).run r = (t.expression v, { r with tokens := rest })) ∧
        arrayLength.run r = (t.length v, { r with tokens := rest })) ∧
      (∀ (r : Reader) (bracket : Token) (rest : List Token), bracket.kind = .openBracket →
        r.tokens = bracket :: t :: rest →
        type.run r = (do
          let n ← MonadExcept.ofExcept (t.length v)
          let _ ← expect .closeBracket
          return .array (← typeWithin (t :: rest)) n : Parse Ty).run { r with tokens := rest }) ∧
      ∀ (c' : Cursor) (t' : Token) (r r' : Reader) (rest rest' : List Token), t' ∈ c'.tokens →
        t'.Denotes v → r.tokens = t :: rest → r'.tokens = t' :: rest' →
        (∀ g g' : Nested, (g.first.run r).1.toOption.map (fun e => (e.node, e.ty)) =
          (g'.first.run r').1.toOption.map fun e => (e.node, e.ty)) ∧
        (arrayLength.run r).1.toOption = (arrayLength.run r').1.toOption := by
  obtain ⟨v, denotes, value⟩ := Cursor.denotes_of_mem lexed number
  refine ⟨v, fun w => ⟨denotes.unique, fun same => same ▸ denotes⟩, fun r rest here =>
    ⟨run_first value here, fun power => run_expression value here, run_arrayLength value here⟩,
    fun r bracket rest => run_array value, ?_⟩
  intro c' t' r r' rest rest' lexed' denotes' here here'
  have value' := denotes'.natural? lexed'
  rw [run_arrayLength value here, run_arrayLength value' here']
  refine ⟨fun g g' => ?_, ?_⟩
  · rw [run_first value here, run_first value' here', Token.expression, Token.expression]
    split_ifs <;> rfl
  · rw [Token.length, Token.length]
    split_ifs <;> rfl

/-- The largest word, with zeros in front and letters of both cases: too large for an expression. -/
theorem numbers_exact_word :
    let t : Token := ⟨.hex, "0x00fFFFffffFFFFffff", ⟨⟨1, 1, 2, "f"⟩, ⟨21, 1, 22, "f"⟩⟩⟩
    t ∈ (Cursor.ofSource "[0x00fFFFffffFFFFffff]u8" "f").tokens ∧ t.Denotes 18446744073709551615 ∧
      ∀ (r : Reader) (rest : List Token), r.tokens = t :: rest →
        (∀ g : Nested, (g.first.run r).1 =
          .error ⟨.parse (.numberParseError "0x00fFFFffffFFFFffff"), ⟨1, 1, 2, "f"⟩⟩) ∧
        (arrayLength.run r).1 = .ok 18446744073709551615 := by
  intro t
  have lexed : t ∈ (Cursor.ofSource "[0x00fFFFffffFFFFffff]u8" "f").tokens := by decide +kernel
  have denotes : t.Denotes 18446744073709551615 :=
    ⟨16, ['0', 'x'], "00fFFFffffFFFFffff".toList, rfl, by decide +kernel, by decide +kernel,
      List.forall_iff_forall_mem.mp (by decide +kernel), by decide +kernel⟩
  obtain ⟨v, only, read, -, -⟩ := numbers_exact lexed (by decide)
  obtain rfl := (only _).mp denotes
  refine ⟨lexed, denotes, fun r rest here => ⟨fun g => ?_, ?_⟩⟩
  · rw [(read r rest here).1 g]
    rfl
  · rw [(read r rest here).2.2]
    rfl

end Parse

end FrontEnd
