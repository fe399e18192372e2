import FrontEnd.Proofs.Reading.Texts

namespace FrontEnd

namespace Pattern

variable {cs ds : List Char}

/-- The patterns of which a lexeme may hold blanks. -/
def mayHoldBlanks : Pattern → Bool
  | .blank | .comment | .string => true
  | _ => false

theorem isWordPart_of_isHexDigit {c : Char} (h : Escape.isHexDigit c = true) :
    isWordPart c = true := by
  simp only [Escape.isHexDigit, Bool.or_eq_true, Bool.and_eq_true, decide_eq_true_eq] at h
  obtain (digit | ⟨low, high⟩) | ⟨low, high⟩ := h
  · exact isWordPart_of_isDigit digit
  · have := isAlpha_iff.mpr (.inr ⟨low, UInt32.le_trans high (by decide : 'f'.val ≤ 'z'.val)⟩)
    simp [isWordPart, Char.isAlphanum, this]
  · have := isAlpha_iff.mpr (.inl ⟨low, UInt32.le_trans high (by decide : 'F'.val ≤ 'Z'.val)⟩)
    simp [isWordPart, Char.isAlphanum, this]

theorem isWordPart_of_isBit {c : Char} (h : isBit c = true) : isWordPart c = true := by
  simp only [isBit, Bool.or_eq_true, beq_iff_eq] at h
  obtain rfl | rfl := h <;> decide

theorem all_of_run {p : Char → Bool} (h : run p cs = some ds) : ∀ c ∈ ds, p c = true := by
  obtain ⟨rfl, _⟩ := run_eq_some h
  exact fun c mem => List.mem_takeWhile_imp mem

theorem not_blank_of_mem_lexeme {p : Pattern} (mem : p ∈ table) (solid : p.mayHoldBlanks = false)
    (h : p.lexeme cs = some ds) : ∀ c ∈ ds, Text.isBlank c = false := by
  have part {c : Char} (h : isWordPart c = true) := isBlank_of_isWordPart h
  have digit {c : Char} (h : c.isDigit = true) := part (isWordPart_of_isDigit h)
  cases p with
  | blank | comment | string => cases solid
  | word => exact fun c hc => part (lexeme_word h c hc)
  | integer => exact fun c hc => digit (all_of_run h c hc)
  | hex =>
    unfold lexeme at h
    split at h
    case h_6 =>
      obtain ⟨es, hr, rfl⟩ := Option.map_eq_some_iff.mp h
      simp only [List.forall_mem_cons]
      exact ⟨by decide, by decide, fun c hc => part (isWordPart_of_isHexDigit (all_of_run hr c hc))⟩
    all_goals simp_all
  | binary =>
    unfold lexeme at h
    split at h
    case h_8 =>
      obtain ⟨es, hr, rfl⟩ := Option.map_eq_some_iff.mp h
      simp only [List.forall_mem_cons]
      exact ⟨by decide, by decide, fun c hc => part (isWordPart_of_isBit (all_of_run hr c hc))⟩
    all_goals simp_all
  | float =>
    rw [lexeme] at h
    split at h
    case h_1 whole rest hw _ =>
      obtain ⟨es, hr, rfl⟩ := Option.map_eq_some_iff.mp h
      simp only [List.forall_mem_append, List.forall_mem_cons]
      exact ⟨fun c hc => digit (all_of_run hw c hc), by decide,
        fun c hc => digit (all_of_run hr c hc)⟩
    case h_2 => cases h
  | symbol kind spelling =>
    obtain rfl : spelling.toList = ds := Option.some.inj (Option.ite_none_right_eq_some.mp h).2
    exact List.forall_iff_forall_mem.mp
      (of_symbol mem (P := fun s => s.toList.Forall (Text.isBlank · = false)) (by decide +kernel))

theorem cut_hex (nonempty : ds ≠ []) (digits : ∀ d ∈ ds, Escape.isHexDigit d = true) :
    cut ('0' :: 'x' :: ds) = (some (.hex, String.ofList ('0' :: 'x' :: ds)), '0' :: 'x' :: ds) := by
  have fits : Pattern.hex.lexeme ('0' :: 'x' :: ds) = some ('0' :: 'x' :: ds) := by
    have run : run _ (ds ++ []) = some ds := run_of_ends nonempty digits (by simp)
    simpa [lexeme] using run
  refine cut_of_first (p := .hex) (first_of_lexeme [.blank, .comment, .word] rfl ?_ fits)
  simp only [List.forall_mem_cons]
  exact ⟨rfl, rfl, rfl, by simp⟩

theorem cut_binary (nonempty : ds ≠ []) (digits : ∀ d ∈ ds, isBit d = true) :
    cut ('0' :: 'b' :: ds) =
      (some (.binary, String.ofList ('0' :: 'b' :: ds)), '0' :: 'b' :: ds) := by
  have fits : Pattern.binary.lexeme ('0' :: 'b' :: ds) = some ('0' :: 'b' :: ds) := by
    have run : run _ (ds ++ []) = some ds := run_of_ends nonempty digits (by simp)
    simpa [lexeme] using run
  refine cut_of_first (p := .binary) (first_of_lexeme [.blank, .comment, .word, .hex] rfl ?_ fits)
  simp only [List.forall_mem_cons]
  exact ⟨rfl, rfl, rfl, rfl, by simp⟩

/-- Nothing is left of a text, or it goes on with a blank. -/
def Apart (cs : List Char) : Prop :=
  ∀ c ∈ cs.head?, Text.isBlank c = true

/-- A text that is one token by itself begins with no gap and no string, whatever follows apart. -/
theorem first_solid {rest : List Char} {p : Pattern} {t : Kind × String}
    (alone : (cut cs).1 = some t) (noQuote : '"' ∉ cs) (nonempty : cs ≠ []) (apart : Apart rest)
    (fits : first (cs ++ rest) = some (p, ds)) : p.mayHoldBlanks = false := by
  obtain ⟨ch, more, rfl⟩ := List.exists_cons_of_ne_nil nonempty
  obtain ⟨_, hl⟩ := first_eq_some fits
  rw [List.cons_append] at hl
  cases p with
  | blank =>
    have blank : Text.isBlank ch = true := by
      by_contra none
      rw [lexeme_blank (Bool.eq_false_iff.mpr none)] at hl
      cases hl
    rw [Cursor.cut_blank blank] at alone
    cases alone
  | comment =>
    have slash : ch = '/' := by
      by_contra other
      rw [lexeme_comment other] at hl
      cases hl
    subst slash
    cases more with
    | nil =>
      -- The second slash would have to be the blank.
      cases rest with
      | nil => cases hl
      | cons d rest =>
        have notSlash : d ≠ '/' := by
          rintro rfl
          exact absurd (apart '/' rfl) (by decide)
        simp [lexeme, notSlash] at hl
    | cons d more =>
      by_cases slash : d = '/'
      · subst slash
        cases alone
      · simp [lexeme, slash] at hl
  | string =>
    have other : ch ≠ '"' := fun quote => noQuote (quote ▸ List.mem_cons_self)
    simp [lexeme, other] at hl
  | _ => rfl

theorem cut_apart {rest : List Char} {t : Kind × String} (alone : cut cs = (some t, cs))
    (noQuote : '"' ∉ cs) (nonempty : cs ≠ []) (apart : Apart rest) :
    cut (cs ++ rest) = (some t, cs) := by
  have inside : (cut (cs ++ rest)).2 <+: cs := by
    obtain ⟨back, whole⟩ := cut_prefix (cs ++ rest)
    obtain ⟨less, longer, _⟩ | ⟨extra, longer, beyond⟩ := List.append_eq_append_iff.mp whole
    · exact ⟨less, longer.symm⟩
    cases extra with
    | nil => exact ⟨[], by simpa using longer⟩
    | cons d extra =>
      -- A longer lexeme would hold the blank.
      have blank : Text.isBlank d = true := apart d (by rw [beyond]; rfl)
      have held : d ∈ (cut (cs ++ rest)).2 := by
        rw [longer]
        simp
      unfold cut at held longer
      split at held
      case h_1 p ds fits =>
        have solid := first_solid (congrArg Prod.fst alone) noQuote nonempty apart fits
        obtain ⟨mem, hl⟩ := first_eq_some fits
        rw [not_blank_of_mem_lexeme mem solid hl d held] at blank
        cases blank
      case h_2 none =>
        have length := congrArg List.length longer
        have := List.length_pos_iff.mpr nonempty
        simp [none] at length
        omega
  have wholly : (cut (cs ++ [])).2 <+: cs := by
    rw [List.append_nil]
    exact cut_prefix cs
  rw [cut_local nonempty inside wholly, List.append_nil, alone]

end Pattern

/-- A token as it is written: what kind it is, and its text. -/
structure Lexeme where
  kind : Kind
  text : String
  deriving DecidableEq, Repr

namespace Lexeme

def chars (x : Lexeme) : List Char :=
  x.text.toList

/-- The text is the token by itself, and holds no quote. -/
structure Alone (x : Lexeme) : Prop where
  cut : Pattern.cut x.chars = (some (x.kind, x.text), x.chars)
  noQuote : '"' ∉ x.chars
  nonempty : x.chars ≠ []

theorem Alone.of_cut {cs : List Char} {kind : Kind}
    (h : Pattern.cut cs = (some (kind, String.ofList cs), cs)) (nonempty : cs ≠ [])
    (parts : ∀ c ∈ cs, Pattern.isWordPart c = true) : Alone ⟨kind, String.ofList cs⟩ := by
  refine ⟨?_, ?_, ?_⟩ <;> rw [chars, String.toList_ofList]
  · exact h
  · exact fun quote => absurd (parts _ quote) (by decide)
  · exact nonempty

/-- A text of lexemes with blanks between them. -/
inductive Spaced : List Lexeme → List Char → Prop where
  | nil : Spaced [] []
  | cons {x : Lexeme} {xs : List Lexeme} {gap cs : List Char} :
      (∀ ch ∈ gap, Text.isBlank ch = true) → (xs ≠ [] → gap ≠ []) → Spaced xs cs →
      Spaced (x :: xs) (x.chars ++ (gap ++ cs))

theorem spaced_intercalate (xs : List Lexeme) : Spaced xs ([' '].intercalate (xs.map chars)) := by
  induction xs with
  | nil => exact .nil
  | cons x xs ih =>
    by_cases last : xs = []
    · subst last
      have single := Spaced.cons (x := x) (nofun : ∀ ch ∈ [], Text.isBlank ch = true) nofun .nil
      simpa using single
    · rw [List.map_cons, List.intercalate_cons_of_ne_nil (by simpa using last), List.append_assoc]
      exact .cons (by simp [Text.isBlank]) nofun ih

end Lexeme

namespace Cursor

variable {c c' c'' : Cursor} {x : Lexeme} {xs ys : List Lexeme}

theorem Past.blanks {gap : List Char} (h : c.Past gap c')
    (blanks : ∀ ch ∈ gap, Text.isBlank ch = true) : c.tokens = c'.tokens := by
  induction gap generalizing c with
  | nil => rw [h.of_nil]
  | cons ch gap ih =>
    obtain ⟨blank, blanks⟩ := List.forall_mem_cons.mp blanks
    obtain ⟨c₁, first, rest⟩ := Past.split (show c.Past ([ch] ++ gap) c' from h)
    rw [first.blank blank, ih rest blanks]

/-- The next tokens are the lexemes, up to those at `c'`. -/
inductive Spells : Cursor → List Lexeme → Cursor → Prop where
  | nil {c c' : Cursor} : c.tokens = c'.tokens → Spells c [] c'
  | cons {c c₁ c' : Cursor} {x : Lexeme} {xs : List Lexeme} {span : Span} :
      c.Takes ⟨x.kind, x.text, span⟩ c₁ → Spells c₁ xs c' → Spells c (x :: xs) c'

theorem Spells.congr_left (h : Spells c xs c') (same : c''.tokens = c.tokens) :
    Spells c'' xs c' := by
  cases h with
  | nil tokens => exact .nil (same.trans tokens)
  | cons takes rest => exact .cons (same.trans takes) rest

theorem Spells.uncons (h : Spells c (x :: xs) c') :
    ∃ span c₁, c.Takes ⟨x.kind, x.text, span⟩ c₁ ∧ Spells c₁ xs c' := by
  cases h with
  | cons takes rest => exact ⟨_, _, takes, rest⟩

theorem Spells.single (h : Spells c [x] c') : ∃ span, c.Takes ⟨x.kind, x.text, span⟩ c' := by
  obtain ⟨span, c₁, takes, rest⟩ := h.uncons
  cases rest with
  | nil tokens => exact ⟨span, takes.trans (congrArg _ tokens)⟩

theorem Spells.split (h : Spells c (xs ++ ys) c'') : ∃ c', Spells c xs c' ∧ Spells c' ys c'' := by
  induction xs generalizing c with
  | nil => exact ⟨c, .nil rfl, h⟩
  | cons x xs ih =>
    obtain ⟨span, c₁, takes, rest⟩ := h.uncons
    obtain ⟨c', front, back⟩ := ih rest
    exact ⟨c', .cons takes front, back⟩

theorem Past.spells {cs : List Char} (h : c.Past cs c') (spaced : Lexeme.Spaced xs cs)
    (alone : ∀ x ∈ xs, x.Alone) (apart : Pattern.Apart c'.rest) : c.Spells xs c' := by
  induction spaced generalizing c with
  | nil => exact .nil (by rw [h.of_nil])
  | @cons x xs gap cs blanks between spaced ih =>
    obtain ⟨here, alone⟩ := List.forall_mem_cons.mp alone
    obtain ⟨c₁, pastLexeme, pastMore⟩ := h.split
    obtain ⟨c₂, pastGap, pastRest⟩ := pastMore.split
    have ends : Pattern.Apart c₁.rest := by
      cases gap with
      | nil =>
        obtain rfl : xs = [] := by
          by_contra more
          exact between more rfl
        cases spaced
        rw [pastGap.of_nil, pastRest.of_nil]
        exact apart
      | cons ch gap =>
        rw [pastGap.rest]
        rintro d ⟨⟩
        exact blanks ch List.mem_cons_self
    have takes := pastLexeme.takes here.nonempty
      (Pattern.cut_apart here.cut here.noQuote here.nonempty ends)
    exact .cons takes ((ih pastRest alone).congr_left (pastGap.blanks blanks))

end Cursor

end FrontEnd
