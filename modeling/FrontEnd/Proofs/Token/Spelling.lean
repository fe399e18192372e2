import FrontEnd.Proofs.Token.Lexemes
import FrontEnd.Syntax.Operator
import Mathlib.Data.List.Basic

namespace FrontEnd

def InfixOp.kind : InfixOp → Kind
  | .add => .plus
  | .subtract => .dash
  | .multiply => .star
  | .divide => .slash
  | .modulo => .percent
  | .and => .and
  | .or => .or
  | .bitAnd => .ampersand
  | .bitOr => .pipe
  | .bitXor => .caret
  | .shiftLeft => .shiftLeft
  | .shiftRight => .shiftRight
  | .equals => .equals
  | .notEquals => .notEquals
  | .less => .less
  | .lessEquals => .lessEquals
  | .greater => .greater
  | .greaterEquals => .greaterEquals
  | .assign => .assignment
  | .dot => .dot

def PrefixOp.kind : PrefixOp → Kind
  | .not => .not
  | .negate => .dash
  | .identity => .plus
  | .dereference => .star
  | .reference => .ampersand

namespace Escape

/-- A character is written as an escape that stands for it, or as itself if it has no meaning in a
literal. -/
theorem escapeChar_cases (c : Char) :
    (∃ d ≠ '\n', escapeChar c = ['\\', d] ∧
      ∀ cs, unescape ('\\' :: d :: cs) = (do return c :: (← unescape cs))) ∨
    escapeChar c = [c] ∧ c ≠ '"' ∧ c ≠ '\\' := by
  by_cases quote : c = '"'
  · subst quote
    exact .inl ⟨'"', by decide, rfl, fun _ => rfl⟩
  by_cases slash : c = '\\'
  · subst slash
    exact .inl ⟨'\\', by decide, rfl, fun _ => rfl⟩
  by_cases newline : c = '\n'
  · subst newline
    exact .inl ⟨'n', by decide, rfl, fun _ => rfl⟩
  by_cases tab : c = '\t'
  · subst tab
    exact .inl ⟨'t', by decide, rfl, fun _ => rfl⟩
  by_cases carriage : c = '\r'
  · subst carriage
    exact .inl ⟨'r', by decide, rfl, fun _ => rfl⟩
  by_cases zero : c = '\x00'
  · subst zero
    exact .inl ⟨'0', by decide, rfl, fun _ => rfl⟩
  exact .inr ⟨by simp [escapeChar, quote, slash, newline, tab, carriage, zero], quote, slash⟩

theorem unescape_escape (cs : List Char) : unescape (escape cs) = .ok cs := by
  induction cs with
  | nil => rfl
  | cons c cs ih =>
    rw [escape, List.flatMap_cons, ← escape]
    obtain ⟨d, _, written, read⟩ | ⟨written, _, notSlash⟩ := escapeChar_cases c
    · rw [written, List.cons_append, List.singleton_append, read, ih]
      rfl
    · rw [written, List.singleton_append]
      simp [unescape, notSlash, ih]

theorem numeral_toDigits (n : Nat) : numeral 10 (Nat.toDigits 10 n) = n := by
  have digits : ∀ c ∈ Nat.toDigits 10 n, c.isDigit = true := fun c mem =>
    Nat.isDigit_of_mem_toDigits (by decide) (by decide) mem
  have same : numeral 10 (Nat.toDigits 10 n) = Nat.ofDigitChars 10 (Nat.toDigits 10 n) 0 := by
    refine List.foldl_ext _ _ 0 fun m c mem => ?_
    rw [digitValue, if_pos (digits c mem), Nat.mul_comm]
  rw [same, Nat.ofDigitChars_ten_toDigits]

theorem stringBody_escape (cs back : List Char) :
    Pattern.stringBody (escape cs ++ '"' :: back) = some (escape cs ++ ['"']) := by
  induction cs with
  | nil => rfl
  | cons c cs ih =>
    rw [escape, List.flatMap_cons, ← escape, List.append_assoc]
    obtain ⟨d, notBreak, written, _⟩ | ⟨written, _, notSlash⟩ := escapeChar_cases c
    · simp [written, Pattern.stringBody, notBreak, ih]
    · simp [written, Pattern.stringBody, notSlash, ih]

end Escape

namespace Pattern

variable {cs ds : List Char} {c : Char}

theorem first_of_lexeme {p : Pattern} {back : List Pattern} (front : List Pattern)
    (split : table = front ++ p :: back) (others : ∀ q ∈ front, q.lexeme cs = none)
    (fits : p.lexeme cs = some ds) : first cs = some (p, ds) := by
  have none : front.findSome? (fun q => (q.lexeme cs).map (q, ·)) = none :=
    List.findSome?_eq_none_iff.mpr fun q mem => by rw [others q mem, Option.map_none]
  rw [first, split, List.findSome?_append, none, Option.none_or, List.findSome?_cons, fits]
  rfl

theorem cut_of_first {p : Pattern} (h : first cs = some (p, ds)) : cut cs = (p.token? ds, ds) := by
  rw [cut, h]

/-- The text does not go on with what would make a name or a number before it longer. -/
structure Ends (cs : List Char) : Prop where
  word : ∀ c ∈ cs.head?, isWordPart c = false
  fraction : ∀ c ds, cs = '.' :: c :: ds → c.isDigit = false

/-- The text does not go on with what would make a symbol before it longer. -/
def Clear (cs : List Char) : Prop :=
  ∀ c ∈ cs.head?, c ∉ ['=', '<', '>', '&', '|', '/']

theorem lexeme_blank (h : Text.isBlank c = false) (cs : List Char) :
    Pattern.blank.lexeme (c :: cs) = none := by
  simp [lexeme, run, h]

theorem lexeme_comment (h : c ≠ '/') (cs : List Char) :
    Pattern.comment.lexeme (c :: cs) = none := by
  simp [lexeme, h]

theorem isAlpha_iff : c.isAlpha = true ↔
    65 ≤ c.toNat ∧ c.toNat ≤ 90 ∨ 97 ≤ c.toNat ∧ c.toNat ≤ 122 := by
  have letters : c.isAlpha =
      (decide (65 ≤ c.val ∧ c.val ≤ 90) || (decide (97 ≤ c.val) && decide (c.val ≤ 122))) := rfl
  simp [letters, UInt32.le_iff_toNat_le]

theorem toNat_of_isWordPart (h : isWordPart c = true) :
    48 ≤ c.toNat ∧ c.toNat ≤ 57 ∨ 65 ≤ c.toNat ∧ c.toNat ≤ 122 := by
  simp only [isWordPart, Char.isAlphanum, Char.isDigit, UInt32.le_iff_toNat_le, Bool.or_eq_true,
    isAlpha_iff, Bool.and_eq_true, decide_eq_true_eq, beq_iff_eq] at h
  obtain ((upper | lower) | digit) | rfl := h
  · exact .inr ⟨upper.1, Nat.le_trans upper.2 (by decide)⟩
  · exact .inr ⟨Nat.le_trans (by decide) lower.1, lower.2⟩
  · exact .inl digit
  · decide

theorem isBlank_of_isWordPart (h : isWordPart c = true) : Text.isBlank c = false := by
  have := toNat_of_isWordPart h
  simp [Text.isBlank]
  omega

theorem isWordPart_of_isWordStart (h : isWordStart c = true) : isWordPart c = true := by
  simp only [isWordStart, Bool.or_eq_true] at h
  obtain alpha | underscore := h
  · simp [isWordPart, Char.isAlphanum, alpha]
  · simp [isWordPart, underscore]

theorem isWordPart_of_isDigit (h : c.isDigit = true) : isWordPart c = true := by
  simp [isWordPart, Char.isAlphanum, h]

theorem ne_of_isWordPart {d : Char} (h : isWordPart c = true) (hd : isWordPart d = false) :
    c ≠ d := by
  rintro rfl
  rw [h] at hd
  cases hd

theorem takeWhile_append_of_ends {p : Char → Bool} (all : ∀ c ∈ ds, p c = true)
    (stop : ∀ c ∈ cs.head?, p c = false) : (ds ++ cs).takeWhile p = ds := by
  rw [List.takeWhile_append_of_pos all]
  cases cs with
  | nil => simp
  | cons c cs => simp [stop c rfl]

def IsWord (cs : List Char) : Prop :=
  Pattern.word.lexeme cs = some cs

instance (cs : List Char) : Decidable (IsWord cs) :=
  inferInstanceAs (Decidable (_ = _))

theorem isWord_iff :
    IsWord cs ↔ ∃ c ds, cs = c :: ds ∧ isWordStart c = true ∧ ∀ d ∈ ds, isWordPart d = true := by
  unfold IsWord lexeme
  cases cs with
  | nil => simp
  | cons c ds =>
    simp

theorem isWord_of_lexeme (h : Pattern.word.lexeme cs = some ds) : IsWord ds := by
  cases cs with
  | nil => cases h
  | cons c cs =>
    rw [lexeme] at h
    split at h
    case isTrue starts =>
      obtain rfl := Option.some.inj h
      exact isWord_iff.mpr ⟨c, _, rfl, starts, fun d hd => List.mem_takeWhile_imp hd⟩
    case isFalse => cases h

theorem lexeme_word (h : Pattern.word.lexeme cs = some ds) : ∀ c ∈ ds, isWordPart c = true := by
  obtain ⟨c, ds, rfl, starts, parts⟩ := isWord_iff.mp (isWord_of_lexeme h)
  exact List.forall_mem_cons.mpr ⟨isWordPart_of_isWordStart starts, parts⟩

theorem cut_identifier {value : String} (h : (cut cs).1 = some (.identifier, value)) :
    IsWord value.toList ∧ Kind.ofWord value = .identifier := by
  have symbols : ∀ q ∈ table, ∀ spelling, q ≠ .symbol .identifier spelling := by simp [table]
  unfold cut at h
  split at h
  case h_1 p lexeme fits =>
    obtain ⟨hp, hl⟩ := first_eq_some fits
    cases p with
    | word =>
      obtain ⟨identifier, rfl⟩ := Prod.mk.inj (Option.some.inj h)
      rw [String.toList_ofList]
      exact ⟨isWord_of_lexeme hl, identifier⟩
    | blank | comment | hex | binary | float | integer => cases h
    | string =>
      have kind : (stringToken lexeme).1 = .identifier := congrArg Prod.fst (Option.some.inj h)
      unfold stringToken at kind
      split at kind <;> cases kind
    | symbol kind spelling =>
      cases h
      exact absurd rfl (symbols _ hp value)
  case h_2 => cases h

theorem cut_word {w : List Char} (h : IsWord w) (stop : ∀ c ∈ cs.head?, isWordPart c = false) :
    cut (w ++ cs) = (some (Kind.ofWord (String.ofList w), String.ofList w), w) := by
  obtain ⟨c, ds, rfl, starts, parts⟩ := isWord_iff.mp h
  have part := isWordPart_of_isWordStart starts
  refine cut_of_first (p := .word) (first_of_lexeme [.blank, .comment] rfl ?_ ?_)
  · have blank := lexeme_blank (isBlank_of_isWordPart part) (ds ++ cs)
    have comment := lexeme_comment (ne_of_isWordPart part (d := '/') (by decide)) (ds ++ cs)
    simpa using ⟨blank, comment⟩
  · simp [lexeme, starts, takeWhile_append_of_ends parts stop]

theorem run_of_ends {p : Char → Bool} (nonempty : ds ≠ []) (all : ∀ c ∈ ds, p c = true)
    (stop : ∀ c ∈ cs.head?, p c = false) : run p (ds ++ cs) = some ds := by
  unfold run
  rw [takeWhile_append_of_ends all stop]
  obtain ⟨d, ds, rfl⟩ := List.exists_cons_of_ne_nil nonempty
  rfl

theorem not_isWordStart_of_isDigit (h : c.isDigit = true) : isWordStart c = false := by
  simp [Char.isDigit, UInt32.le_iff_toNat_le] at h
  rw [← Bool.not_eq_true, isWordStart, Bool.or_eq_true, isAlpha_iff, beq_iff_eq]
  rintro (letter | rfl)
  · omega
  · simp at h

theorem lexeme_hex (h : ∀ ds, cs ≠ '0' :: 'x' :: ds) : Pattern.hex.lexeme cs = none := by
  rw [lexeme]
  exact h

theorem lexeme_binary (h : ∀ ds, cs ≠ '0' :: 'b' :: ds) : Pattern.binary.lexeme cs = none := by
  rw [lexeme]
  exact h

section Digits

variable {ds cs : List Char}

theorem Ends.digit (h : Ends cs) : ∀ c ∈ cs.head?, c.isDigit = false := by
  intro c mem
  rw [← Bool.not_eq_true]
  intro digit
  have := h.word c mem
  rw [isWordPart_of_isDigit digit] at this
  cases this

theorem append_ne_letter (digits : ∀ d ∈ ds, d.isDigit = true)
    (stop : ∀ c ∈ cs.head?, isWordPart c = false) {m : Char} (part : isWordPart m = true)
    (letter : m.isDigit = false) (rest : List Char) : ds ++ cs ≠ m :: rest := by
  intro marked
  cases ds with
  | nil =>
    have := stop m (by rw [show cs = m :: rest from marked]; rfl)
    rw [part] at this
    cases this
  | cons d ds =>
    obtain rfl : d = m := (List.cons.inj marked).1
    rw [digits d List.mem_cons_self] at letter
    cases letter

theorem lexeme_float_of_ends (nonempty : ds ≠ []) (digits : ∀ d ∈ ds, d.isDigit = true)
    (h : Ends cs) : Pattern.float.lexeme (ds ++ cs) = none := by
  have back : (ds ++ cs).dropWhile Char.isDigit = cs := by
    rw [List.dropWhile_append_of_pos digits]
    cases cs with
    | nil => rfl
    | cons c cs => simp [h.digit c rfl]
  rw [lexeme, run_of_ends nonempty digits h.digit, back]
  split
  case h_1 rest _ =>
    cases rest with
    | nil => rfl
    | cons c rest => simp [run, h.fraction c rest rfl]
  case h_2 => rfl

theorem lexeme_before_digits (nonempty : ds ≠ []) (digits : ∀ d ∈ ds, d.isDigit = true)
    (stop : ∀ c ∈ cs.head?, isWordPart c = false) :
    ∀ q ∈ table.take 5, q.lexeme (ds ++ cs) = none := by
  obtain ⟨d, ds, rfl⟩ := List.exists_cons_of_ne_nil nonempty
  obtain ⟨digit, digits⟩ := List.forall_mem_cons.mp digits
  have part := isWordPart_of_isDigit digit
  have blank := lexeme_blank (isBlank_of_isWordPart part) (ds ++ cs)
  have comment := lexeme_comment (ne_of_isWordPart part (d := '/') (by decide)) (ds ++ cs)
  have word : Pattern.word.lexeme (d :: (ds ++ cs)) = none := by
    simp [lexeme, not_isWordStart_of_isDigit digit]
  have hex : Pattern.hex.lexeme (d :: (ds ++ cs)) = none := lexeme_hex fun rest marked =>
    append_ne_letter digits stop (m := 'x') (by decide) (by decide) rest (List.cons.inj marked).2
  have binary : Pattern.binary.lexeme (d :: (ds ++ cs)) = none := lexeme_binary fun rest marked =>
    append_ne_letter digits stop (m := 'b') (by decide) (by decide) rest (List.cons.inj marked).2
  simpa [table] using ⟨blank, comment, word, hex, binary⟩

theorem cut_digits (nonempty : ds ≠ []) (digits : ∀ d ∈ ds, d.isDigit = true) (h : Ends cs) :
    cut (ds ++ cs) = (some (.integer, String.ofList ds), ds) := by
  have fits : Pattern.integer.lexeme (ds ++ cs) = some ds := run_of_ends nonempty digits h.digit
  have float := lexeme_float_of_ends nonempty digits h
  refine cut_of_first (p := .integer) (first_of_lexeme (table.take 5 ++ [.float]) rfl ?_ fits)
  exact List.forall_mem_append.mpr
    ⟨lexeme_before_digits nonempty digits h.word, by simpa using float⟩

theorem cut_fraction {part : List Char} (nonempty : ds ≠ []) (digits : ∀ d ∈ ds, d.isDigit = true)
    (nonempty' : part ≠ []) (digits' : ∀ d ∈ part, d.isDigit = true) (h : Ends cs) :
    cut (ds ++ '.' :: part ++ cs) =
      (some (.float, String.ofList (ds ++ '.' :: part)), ds ++ '.' :: part) := by
  have fits := lexeme_float digits nonempty (part ++ cs)
  rw [run_of_ends nonempty' digits' h.digit] at fits
  rw [List.append_assoc, List.cons_append]
  exact cut_of_first (p := .float) (first_of_lexeme (table.take 5) rfl
    (lexeme_before_digits nonempty digits (by simp [isWordPart])) fits)

end Digits

theorem cut_quoted (s cs : List Char) :
    cut ('"' :: Escape.escape s ++ '"' :: cs) =
      (some (.string, String.ofList s), '"' :: Escape.escape s ++ ['"']) := by
  have fits : Pattern.string.lexeme ('"' :: Escape.escape s ++ '"' :: cs) =
      some ('"' :: Escape.escape s ++ ['"']) := by
    rw [List.cons_append, lexeme, Escape.stringBody_escape]
    rfl
  rw [cut_of_first (first_of_lexeme (table.take 7) rfl ?_ fits)]
  · simp [token?, stringToken, Escape.unescape_escape]
  · simp only [table, List.take_succ_cons, List.take_zero, List.forall_mem_cons]
    exact ⟨rfl, rfl, rfl, rfl, rfl, rfl, rfl, by simp⟩

theorem lexeme_of_symbol {c d : Char} (symbol : c ∈ ['=', '!', '<', '>', '&', '|', '/'])
    (hd : d ≠ '/') (cs : List Char) : ∀ q ∈ table.take 8, q.lexeme (c :: d :: cs) = none := by
  have comment : Pattern.comment.lexeme ('/' :: d :: cs) = none := by simp [lexeme, hd]
  simp only [List.mem_cons, List.not_mem_nil, or_false] at symbol
  simp only [table, List.take_succ_cons, List.take_zero, List.forall_mem_cons]
  obtain rfl | rfl | rfl | rfl | rfl | rfl | rfl := symbol
  case inr.inr.inr.inr.inr.inr => exact ⟨rfl, comment, rfl, rfl, rfl, rfl, rfl, rfl, by simp⟩
  all_goals exact ⟨rfl, rfl, rfl, rfl, rfl, rfl, rfl, rfl, by simp⟩

theorem cut_short {c d : Char} (symbol : c ∈ ['=', '!', '<', '>', '&', '|', '/'])
    (clear : d ∉ ['=', '<', '>', '&', '|', '/']) (cs : List Char) :
    cut (c :: d :: cs) = cut [c] := by
  have others := lexeme_of_symbol (d := d) symbol (fun h => clear (by simp [h])) cs
  have inside : (cut (c :: d :: cs)).2 <+: [c] := by
    unfold cut
    split
    case h_1 p ds fits =>
      obtain ⟨hp, hl⟩ := first_eq_some fits
      cases p with
      | symbol kind spelling =>
        obtain rfl : spelling.toList = ds :=
          Option.some.inj (Option.ite_none_right_eq_some.mp hl).2
        have longer : spelling.toList <+: c :: d :: cs := lexeme_prefix hl
        -- What follows the first character of a symbol makes others longer.
        have rest : ∀ b ∈ spelling.toList.tail, b ∈ ['=', '<', '>', '&', '|', '/'] :=
          List.forall_iff_forall_mem.mp
            (of_symbol hp (P := fun s => s.toList.tail.Forall (· ∈ _)) (by decide +kernel))
        cases spelled : spelling.toList with
        | nil => exact List.nil_prefix
        | cons a more =>
          rw [spelled] at longer rest
          obtain ⟨rfl, behind⟩ := List.cons_prefix_cons.mp longer
          cases more with
          | nil => exact List.prefix_refl _
          | cons b more =>
            obtain ⟨rfl, _⟩ := List.cons_prefix_cons.mp behind
            exact absurd (rest b List.mem_cons_self) clear
      | _ =>
        rw [others _ (by simp [table])] at hl
        cases hl
    case h_2 => simp
  have same : cut ([c] ++ d :: cs) = cut ([c] ++ []) := cut_local (by simp) inside ( cut_prefix [c])
  exact same

/-- The symbols that no longer one begins with. -/
def singles : List (Char × Kind) :=
  [('(', .openParen), (')', .closeParen), ('[', .openBracket), (']', .closeBracket),
   ('\x7b', .openCurly), ('\x7d', .closeCurly), ('@', .at), ('.', .dot), (',', .comma),
   (':', .colon), ('*', .star)]

/-- Such a symbol is read by itself whatever follows. -/
theorem cut_single {mark : Char} {kind : Kind} (h : (mark, kind) ∈ singles) (cs : List Char) :
    cut (mark :: cs) = (some (kind, String.singleton mark), [mark]) := by
  simp only [singles, List.mem_cons, Prod.mk.injEq, List.not_mem_nil, or_false] at h
  obtain ⟨rfl, rfl⟩ | ⟨rfl, rfl⟩ | ⟨rfl, rfl⟩ | ⟨rfl, rfl⟩ | ⟨rfl, rfl⟩ | ⟨rfl, rfl⟩ | ⟨rfl, rfl⟩ |
    ⟨rfl, rfl⟩ | ⟨rfl, rfl⟩ | ⟨rfl, rfl⟩ | ⟨rfl, rfl⟩ := h
  all_goals rfl

theorem Ends.of_single {mark : Char} {kind : Kind} (h : (mark, kind) ∈ singles)
    (notDot : kind ≠ .dot) (cs : List Char) : Ends (mark :: cs) := by
  simp only [singles, List.mem_cons, Prod.mk.injEq, List.not_mem_nil, or_false] at h
  obtain ⟨rfl, rfl⟩ | ⟨rfl, rfl⟩ | ⟨rfl, rfl⟩ | ⟨rfl, rfl⟩ | ⟨rfl, rfl⟩ | ⟨rfl, rfl⟩ | ⟨rfl, rfl⟩ |
    ⟨rfl, rfl⟩ | ⟨rfl, rfl⟩ | ⟨rfl, rfl⟩ | ⟨rfl, rfl⟩ := h
  case inr.inr.inr.inr.inr.inr.inr.inl => exact absurd rfl notDot
  all_goals exact ⟨by simp [isWordPart], nofun⟩

theorem cut_symbol {c : Char} (symbol : c ∈ ['=', '!', '<', '>', '&', '|', '/']) {cs : List Char}
    (clear : Clear cs) : cut (c :: cs) = cut [c] := by
  cases cs with
  | nil => rfl
  | cons d cs => exact cut_short symbol (clear d rfl) cs

theorem cut_operator (op : InfixOp) {cs : List Char} (clear : Clear cs) :
    cut (op.symbol.toList ++ cs) = (some (op.kind, op.symbol), op.symbol.toList) := by
  cases op with
  | divide | bitAnd | bitOr | less | greater | assign => exact cut_symbol (by decide) clear
  | _ => rfl

theorem cut_prefixOp (op : PrefixOp) {cs : List Char} (clear : Clear cs) :
    cut (op.symbol.toList ++ cs) = (some (op.kind, op.symbol), op.symbol.toList) := by
  cases op with
  | not | reference => exact cut_symbol (by decide) clear
  | _ => rfl

end Pattern

theorem Cursor.cut_of_mem {c : Cursor} {t : Token} (h : t ∈ c.tokens) (notEof : t.kind ≠ .eof) :
    ∃ cs, (Pattern.cut cs).1 = some (t.kind, t.value) := by
  induction c using induct_steps with
  | atEnd c atEnd =>
    rw [tokens_of_atEnd atEnd, List.mem_singleton] at h
    exact absurd (congrArg Token.kind h) notEof
  | step c more ih =>
    rw [step_eq_cut more] at ih
    rw [tokens_of_cut more] at h
    obtain first | rest := List.mem_append.mp h
    · obtain ⟨kv, cutOff, rfl⟩ := Option.map_eq_some_iff.mp (Option.mem_toList.mp first)
      exact ⟨c.rest, cutOff⟩
    · exact ih rest

end FrontEnd
