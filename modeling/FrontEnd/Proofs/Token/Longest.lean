import FrontEnd.Proofs.Token.Spelling

/-!
The first pattern that fits is the longest that fits. Each pattern describes a set of texts, and its
lexeme is the longest front of the text that is in the set. Main statement: no pattern describes a
longer front of the text than the lexeme that is read, and a character by itself is illegal exactly
if no pattern describes any front that begins with it.
-/

namespace FrontEnd

namespace Pattern

inductive Inner : List Char → Prop
  | nil : Inner []
  | plain {c : Char} {cs : List Char} (notQuote : c ≠ '"') (notSlash : c ≠ '\\') (more : Inner cs) :
      Inner (c :: cs)
  | pair {c : Char} {cs : List Char} (notBreak : c ≠ '\n') (more : Inner cs) :
      Inner ('\\' :: c :: cs)

def Many (p : Char → Bool) (cs : List Char) : Prop :=
  cs ≠ [] ∧ ∀ c ∈ cs, p c = true

/-- The texts that a pattern describes. -/
def Fits : Pattern → List Char → Prop
  | .blank, cs => Many Text.isBlank cs
  | .comment, cs => ∃ body, cs = '/' :: '/' :: body ∧ '\n' ∉ body
  | .word, cs => ∃ c ds, cs = c :: ds ∧ isWordStart c = true ∧ ∀ d ∈ ds, isWordPart d = true
  | .hex, cs => ∃ ds, cs = '0' :: 'x' :: ds ∧ Many Escape.isHexDigit ds
  | .binary, cs => ∃ ds, cs = '0' :: 'b' :: ds ∧ Many isBit ds
  | .float, cs => ∃ whole part, cs = whole ++ '.' :: part ∧ Many Char.isDigit whole ∧
      Many Char.isDigit part
  | .integer, cs => Many Char.isDigit cs
  | .string, cs => ∃ inner, cs = '"' :: inner ++ ['"'] ∧ Inner inner
  | .symbol _ s, cs => cs = s.toList

section Sound

theorem many_of_run {p : Char → Bool} {cs ds : List Char} (h : run p cs = some ds) : Many p ds := by
  obtain ⟨rfl, nonempty⟩ := run_eq_some h
  exact ⟨nonempty, fun c mem => List.mem_takeWhile_imp mem⟩

theorem inner_of_stringBody {cs ds : List Char} (h : stringBody cs = some ds) :
    ∃ inner, ds = inner ++ ['"'] ∧ Inner inner := by
  fun_induction stringBody cs generalizing ds with
  | case1 cs =>
    cases h
    exact ⟨[], rfl, .nil⟩
  | case2 | case4 | case6 => cases h
  | case3 c cs notBreak ih =>
    obtain ⟨es, he, rfl⟩ := Option.map_eq_some_iff.mp h
    obtain ⟨inner, rfl, more⟩ := ih he
    exact ⟨'\\' :: c :: inner, rfl, .pair notBreak more⟩
  | case5 c cs notQuote notPair notLast ih =>
    obtain ⟨es, he, rfl⟩ := Option.map_eq_some_iff.mp h
    obtain ⟨inner, rfl, more⟩ := ih he
    have notSlash : c ≠ '\\' := by
      rintro rfl
      cases cs with
      | nil => exact notLast rfl rfl
      | cons d cs => exact notPair d cs rfl rfl
    exact ⟨c :: inner, rfl, .plain (fun quote => notQuote quote) notSlash more⟩

theorem fits_of_lexeme {p : Pattern} {cs ds : List Char} (h : p.lexeme cs = some ds) :
    p.Fits ds := by
  unfold lexeme at h
  split at h
  case h_1 | h_11 => exact many_of_run h
  case h_2 cs =>
    cases h
    refine ⟨_, rfl, fun mem => ?_⟩
    have := List.mem_takeWhile_imp mem
    simp at this
  case h_4 c cs =>
    split at h
    case isTrue starts =>
      cases h
      exact ⟨c, _, rfl, starts, fun d mem => List.mem_takeWhile_imp mem⟩
    case isFalse => cases h
  case h_6 | h_8 =>
    obtain ⟨digits, hd, rfl⟩ := Option.map_eq_some_iff.mp h
    exact ⟨digits, rfl, many_of_run hd⟩
  case h_10 =>
    split at h
    case h_1 whole rest hw _ =>
      obtain ⟨part, hp, rfl⟩ := Option.map_eq_some_iff.mp h
      exact ⟨whole, part, rfl, many_of_run hw, many_of_run hp⟩
    case h_2 => cases h
  case h_12 =>
    obtain ⟨body, hb, rfl⟩ := Option.map_eq_some_iff.mp h
    obtain ⟨inner, rfl, more⟩ := inner_of_stringBody hb
    exact ⟨inner, rfl, more⟩
  case h_14 =>
    split at h
    case isTrue =>
      cases h
      rfl
    case isFalse => cases h
  all_goals cases h

end Sound

section Complete

theorem Many.prefix_takeWhile {p : Char → Bool} {front : List Char}
    (h : ∀ c ∈ front, p c = true) (back : List Char) : front <+: (front ++ back).takeWhile p := by
  rw [List.takeWhile_append_of_pos h]
  exact List.prefix_append _ _

theorem Many.run {p : Char → Bool} {front : List Char} (h : Many p front) (back : List Char) :
    ∃ ds, Pattern.run p (front ++ back) = some ds ∧ front <+: ds := by
  have longer : front <+: (front ++ back).takeWhile p := prefix_takeWhile h.2 back
  refine ⟨_, ?_, longer⟩
  unfold Pattern.run
  split
  case h_1 none => exact absurd (List.prefix_nil.mp (none ▸ longer)) h.1
  case h_2 => rfl

theorem Inner.stringBody {inner : List Char} (h : Inner inner) (back : List Char) :
    stringBody (inner ++ '"' :: back) = some (inner ++ ['"']) := by
  induction h with
  | nil => rfl
  | plain notQuote notSlash more ih => simp [Pattern.stringBody, notSlash, ih]
  | pair notBreak more ih => simp [Pattern.stringBody, notBreak, ih]

theorem Fits.lexeme {p : Pattern} {front : List Char} (h : p.Fits front) (back : List Char) :
    ∃ ds, p.lexeme (front ++ back) = some ds ∧ front <+: ds := by
  cases p with
  | blank | integer => exact Many.run h back
  | comment =>
    obtain ⟨body, rfl, inLine⟩ := h
    refine ⟨_, rfl, ?_⟩
    have all : ∀ c ∈ body, decide (c ≠ '\n') = true := by
      simpa using fun c mem => ne_of_mem_of_not_mem mem inLine
    simpa using Many.prefix_takeWhile all back
  | word =>
    obtain ⟨c, ds, rfl, starts, parts⟩ := h
    refine ⟨c :: (ds ++ back).takeWhile isWordPart, by simp [Pattern.lexeme, starts], ?_⟩
    simpa using Many.prefix_takeWhile parts back
  | hex | binary =>
    obtain ⟨ds, rfl, digits⟩ := h
    obtain ⟨es, run, longer⟩ := digits.run back
    exact ⟨_, congrArg (Option.map _) run, by simpa using longer⟩
  | float =>
    obtain ⟨whole, part, rfl, ⟨nonempty, digits⟩, fraction⟩ := h
    obtain ⟨es, run, longer⟩ := fraction.run back
    have fits := lexeme_float digits nonempty (part ++ back)
    rw [run, Option.map_some] at fits
    exact ⟨_, by simpa using fits, by simpa using longer⟩
  | string =>
    obtain ⟨inner, rfl, more⟩ := h
    exact ⟨_, by simp [Pattern.lexeme, more.stringBody], List.prefix_rfl⟩
  | symbol kind s =>
    obtain rfl := h
    exact ⟨s.toList, by simp [Pattern.lexeme], List.prefix_rfl⟩

end Complete

section Order

variable {p q : Pattern} {cs ds : List Char}

/-- Wherever both patterns fit, the second has no longer lexeme. -/
def Covers (p q : Pattern) : Prop :=
  ∀ ⦃cs ds es⦄, p.lexeme cs = some ds → q.lexeme cs = some es → es.length ≤ ds.length

theorem exists_head (hp : p ∈ table) (hq : q ∈ table) {es : List Char}
    (fits : p.lexeme cs = some ds) (fits' : q.lexeme cs = some es) :
    ∃ c ds' es', ds = c :: ds' ∧ es = c :: es' := by
  obtain ⟨c, ds, rfl⟩ := List.exists_cons_of_ne_nil (lexeme_ne_nil hp fits)
  obtain ⟨d, es, rfl⟩ := List.exists_cons_of_ne_nil (lexeme_ne_nil hq fits')
  obtain ⟨back, rfl⟩ := lexeme_prefix fits
  obtain ⟨rfl, _⟩ := List.cons_prefix_cons.mp <| lexeme_prefix fits'
  exact ⟨_, _, _, rfl, rfl⟩

/-- What a character can begin, other than a symbol. Numbers are told apart only by what follows. -/
def lead (c : Char) : Option Pattern :=
  if Text.isBlank c then some .blank
  else if c = '/' then some .comment
  else if isWordStart c then some .word
  else if c.isDigit then some .integer
  else if c = '"' then some .string
  else none

def group : Pattern → Pattern
  | .hex | .binary | .float => .integer
  | p => p

theorem lead_of_isDigit {c : Char} (h : c.isDigit = true) : lead c = some .integer := by
  have part := isWordPart_of_isDigit h
  simp [lead, isBlank_of_isWordPart part, ne_of_isWordPart part (d := '/') (by decide),
    not_isWordStart_of_isDigit h, h]

theorem Fits.lead {c : Char} (h : p.Fits (c :: cs)) (hp : p ∈ table.take 8) :
    lead c = some p.group := by
  cases p with
  | blank => exact if_pos (h.2 c List.mem_cons_self)
  | integer => exact lead_of_isDigit (h.2 c List.mem_cons_self)
  | comment | hex | binary | string =>
    obtain ⟨_, eq, _⟩ := h
    obtain rfl := (List.cons.inj eq).1
    rfl
  | word =>
    obtain ⟨_, _, eq, word, _⟩ := h
    obtain rfl := (List.cons.inj eq).1
    have part := isWordPart_of_isWordStart word
    simp [Pattern.lead, isBlank_of_isWordPart part,
      ne_of_isWordPart part (d := '/') (by decide), word,
      group]
  | float =>
    obtain ⟨whole, _, eq, ⟨nonempty, digits⟩, _⟩ := h
    obtain ⟨d, whole, rfl⟩ := List.exists_cons_of_ne_nil nonempty
    obtain rfl := (List.cons.inj eq).1
    exact lead_of_isDigit (digits _ List.mem_cons_self)
  | symbol => simp [table] at hp

theorem Covers.of_group (hp : p ∈ table.take 8) (hq : q ∈ table.take 8)
    (apart : p.group ≠ q.group) :
    p.Covers q := by
  intro cs ds es fits fits'
  obtain ⟨c, _, _, rfl, rfl⟩ :=
    exists_head (List.mem_of_mem_take hp) (List.mem_of_mem_take hq) fits fits'
  have here := (fits_of_lexeme fits).lead hp
  rw [(fits_of_lexeme fits').lead hq] at here
  exact absurd (Option.some.inj here).symm apart

theorem exists_mark (hp : p = .hex ∨ p = .binary) (fits : p.lexeme cs = some ds) :
    ∃ mark back, cs = '0' :: mark :: back ∧ (p = .hex ∧ mark = 'x' ∨ p = .binary ∧ mark = 'b') ∧
      2 ≤ ds.length := by
  obtain ⟨back, rfl⟩ := lexeme_prefix fits
  obtain rfl | rfl := hp
  all_goals
    obtain ⟨digits, rfl, _⟩ := fits_of_lexeme fits
    exact ⟨_, digits ++ back, rfl, by simp, by simp⟩

theorem covers_binary : Pattern.hex.Covers .binary := by
  intro cs ds es fits fits'
  obtain ⟨mark, back, rfl, mark_eq, _⟩ := exists_mark (.inl rfl) fits
  obtain ⟨_, rfl⟩ | ⟨other, _⟩ := mark_eq
  · rw [lexeme_binary (by simp)] at fits'
    cases fits'
  · cases other

theorem covers_decimal (hp : p = .hex ∨ p = .binary) (hq : q = .float ∨ q = .integer) :
    p.Covers q := by
  intro cs ds es fits fits'
  obtain ⟨mark, back, rfl, mark_eq, long⟩ := exists_mark hp fits
  have letter : mark.isDigit = false ∧ mark ≠ '.' := by
    obtain ⟨_, rfl⟩ | ⟨_, rfl⟩ := mark_eq <;> decide
  have zero : run Char.isDigit ('0' :: mark :: back) = some ['0'] := by
    simp [run, letter.1]
  obtain rfl | rfl := hq
  · have rest : ('0' :: mark :: back).dropWhile Char.isDigit = mark :: back := by
      simp [letter.1]
    simp [lexeme, zero, rest, letter.2] at fits'
  · obtain rfl : ['0'] = es := Option.some.inj (zero.symm.trans fits')
    exact Nat.le_of_succ_le long

theorem covers_integer : Pattern.float.Covers .integer := by
  intro cs ds es fits fits'
  obtain ⟨back, rfl⟩ := lexeme_prefix fits
  obtain ⟨whole, part, rfl, ⟨nonempty, digits⟩, _⟩ := fits_of_lexeme fits
  have run : run Char.isDigit (whole ++ ('.' :: part ++ back)) = some whole :=
    run_of_ends nonempty digits (by simp)
  rw [List.append_assoc] at fits'
  obtain rfl : whole = es := Option.some.inj (run.symm.trans fits')
  simp

theorem covers_front : (table.take 8).Pairwise Covers := by
  have pairs : (table.take 8).Pairwise fun p q => p.group ≠ q.group ∨ p = .hex ∧ q = .binary ∨
      (p = .hex ∨ p = .binary) ∧ (q = .float ∨ q = .integer) ∨ p = .float ∧ q = .integer := by
    decide +kernel
  refine pairs.imp_of_mem fun hp hq pair => ?_
  obtain apart | ⟨rfl, rfl⟩ | ⟨marked, decimal⟩ | ⟨rfl, rfl⟩ := pair
  · exact .of_group hp hq apart
  · exact covers_binary
  · exact covers_decimal marked decimal
  · exact covers_integer

/-- Whether the second symbol is no longer one that begins with the first. -/
def standsAfter : Pattern → Pattern → Bool
  | .symbol _ s, .symbol _ t => s.toList.isPrefixOf t.toList → t.toList.length ≤ s.toList.length
  | _, _ => false

theorem covers_symbols : (table.drop 8).Pairwise Covers := by
  have order : (table.drop 8).Pairwise fun p q => standsAfter p q = true := by decide +kernel
  refine order.imp fun {p q} after => ?_
  unfold standsAfter at after
  split at after
  case h_2 => cases after
  case h_1 k s l t =>
    intro cs ds es fits fits'
    obtain rfl : ds = s.toList := fits_of_lexeme fits
    obtain rfl : es = t.toList := fits_of_lexeme fits'
    obtain first | second :=
      List.prefix_or_prefix_of_prefix ( lexeme_prefix fits) ( lexeme_prefix fits')
    · exact of_decide_eq_true after (List.isPrefixOf_iff_prefix.mpr first)
    · exact second.length_le

/-- Whether the pattern is a symbol that begins like nothing else, unless it is a comment. -/
def isPlainSymbol : Pattern → Bool
  | .symbol _ s => s.toList.length ≤ 2 && s.toList.head?.all fun c =>
      lead c = none || lead c = some .comment
  | _ => false

theorem covers_symbol (hp : p ∈ table.take 8) (hq : q ∈ table.drop 8) : p.Covers q := by
  have symbols : ∀ q ∈ table.drop 8, q.isPlainSymbol = true := by decide +kernel
  have symbol := symbols q hq
  intro cs ds es fits fits'
  obtain ⟨c, ds, es, rfl, rfl⟩ :=
    exists_head (List.mem_of_mem_take hp) (List.mem_of_mem_drop hq) fits fits'
  have front := (fits_of_lexeme fits).lead hp
  cases q with
  | symbol k s =>
    have spelled : c :: es = s.toList := fits_of_lexeme fits'
    obtain ⟨short, none | comment⟩ : es.length ≤ 1 ∧ (lead c = none ∨ lead c = some .comment) := by
      simpa [isPlainSymbol, ← spelled] using symbol
    · rw [front] at none
      cases none
    · cases p with
      | comment =>
        obtain ⟨body, eq, _⟩ := fits_of_lexeme fits
        rw [eq]
        exact (Nat.succ_le_succ short).trans (by simp)
      | _ => cases front.symm.trans comment
  | _ => cases symbol

theorem covers_table : table.Pairwise Covers := by
  rw [← List.take_append_drop 8 table, List.pairwise_append]
  exact ⟨covers_front, covers_symbols, fun p hp q hq => covers_symbol hp hq⟩

theorem length_le_of_first (h : first cs = some (p, ds)) (hq : q ∈ table) {front : List Char}
    (fits : q.Fits front) (inside : front <+: cs) : front.length ≤ ds.length := by
  obtain ⟨back, rfl⟩ := inside
  obtain ⟨es, found, longer⟩ := fits.lexeme back
  refine longer.length_le.trans ?_
  -- The pattern before which none fits either is `q` or stands before it.
  obtain ⟨before, p', after, split, chosen, none⟩ := List.findSome?_eq_some_iff.mp h
  obtain ⟨ds', fit, same⟩ := Option.map_eq_some_iff.mp chosen
  obtain ⟨rfl, rfl⟩ := Prod.mk.inj same
  have order := covers_table
  rw [split] at order hq
  obtain there | here | behind : q ∈ before ∨ q = p' ∨ q ∈ after := by simpa using hq
  · have := none q there
    rw [found] at this
    cases this
  · subst here
    rw [found] at fit
    cases fit
    exact Nat.le_refl _
  · have covers := (List.pairwise_cons.mp (List.pairwise_append.mp order).2.1).1 q behind
    exact covers fit found

theorem first_eq_none_iff :
    first cs = none ↔ ∀ q ∈ table, ∀ front, q.Fits front → ¬ front <+: cs := by
  constructor
  · rintro none q hq front fits ⟨back, rfl⟩
    obtain ⟨ds, found, _⟩ := fits.lexeme back
    rw [first_eq_none none hq] at found
    cases found
  · intro none
    cases h : first cs with
    | none => rfl
    | some found =>
      obtain ⟨hp, hl⟩ := first_eq_some h
      exact absurd ( lexeme_prefix hl) (none _ hp _ (fits_of_lexeme hl))

end Order

theorem length_ne_one_of_illegal {p : Pattern} (hp : p ∈ table) {ds : List Char} {value : String}
    (h : p.token? ds = some (.illegal, value)) : value.length ≠ 1 := by
  have symbols : ∀ q ∈ table, ∀ spelling, q ≠ .symbol .illegal spelling := by simp [table]
  cases p with
  | blank | comment | hex | binary | float | integer => cases h
  | word =>
    have kind : Kind.ofWord (String.ofList ds) = .illegal := congrArg Prod.fst (Option.some.inj h)
    exact absurd kind (ofWord_ne (by decide) _)
  | string =>
    have token : stringToken ds = (.illegal, value) := Option.some.inj h
    unfold stringToken at token
    split at token
    · cases token
    · cases token
      rw [String.length_ofList]
      simp
  | symbol kind spelling =>
    cases h
    exact absurd rfl (symbols _ hp value)

end Pattern

namespace Cursor

variable {c : Cursor}

theorem step_illegal_iff (more : c.rest ≠ []) :
    (∃ t, c.step.1 = some t ∧ t.kind = .illegal ∧ t.value.length = 1) ↔
      Pattern.first c.rest = none := by
  rw [step_eq_cut more, Pattern.cut]
  constructor
  · rintro ⟨t, made, illegal, single⟩
    cases h : Pattern.first c.rest with
    | none => rfl
    | some found =>
      obtain ⟨p, lexeme⟩ := found
      obtain ⟨⟨kind, value⟩, token, rfl⟩ := Option.map_eq_some_iff.mp (h ▸ made)
      obtain rfl : kind = .illegal := illegal
      exact absurd single (Pattern.length_ne_one_of_illegal (Pattern.first_eq_some h).1 token)
  · intro none
    obtain ⟨ch, cs, rest⟩ := List.exists_cons_of_ne_nil more
    rw [none, rest]
    exact ⟨_, rfl, rfl, by simp [tokenOf]⟩

theorem next_eq_step (more : c.rest ≠ []) : c.next = match c.step with
      | (some t, c') => (t, c')
      | (none, c') => c'.next := by
  rcases h : c.step with ⟨_ | t, c'⟩
  · exact next_of_gap more h
  · exact next_of_token more h

/-- Reading goes by the longest match. The lexeme that is read at a place of a text is a front of
what is left that its pattern describes, and no pattern of the table describes a longer one. A
character by itself is an illegal token exactly if no pattern describes any front. -/
theorem step_longest (c : Cursor) (more : c.rest ≠ []) :
    (∀ p lexeme, Pattern.first c.rest = some (p, lexeme) →
      p.Fits lexeme ∧ lexeme <+: c.rest ∧ c.step.2 = c.pass lexeme ∧
      (∀ q ∈ Pattern.table, ∀ other, q.lexeme c.rest = some other →
        other.length ≤ lexeme.length) ∧
      ∀ q ∈ Pattern.table, ∀ front, q.Fits front → front <+: c.rest →
        front.length ≤ lexeme.length) ∧
    ((∃ t, c.step.1 = some t ∧ t.kind = .illegal ∧ t.value.length = 1) ↔
      ∀ q ∈ Pattern.table, ∀ front, q.Fits front → ¬ front <+: c.rest) ∧
    c.next = match c.step with
      | (some t, c') => (t, c')
      | (none, c') => c'.next := by
  refine ⟨fun p lexeme h => ?_, ?_, next_eq_step more⟩
  · obtain ⟨_, hl⟩ := Pattern.first_eq_some h
    have passed : c.step.2 = c.pass lexeme := by
      rw [step_eq_cut more, Pattern.cut_of_first h]
    refine ⟨Pattern.fits_of_lexeme hl, Pattern.lexeme_prefix hl, passed, fun q hq other found => ?_,
      fun q hq front fits inside => Pattern.length_le_of_first h hq fits inside⟩
    exact Pattern.length_le_of_first h hq (Pattern.fits_of_lexeme found) <|
      Pattern.lexeme_prefix found
  · rw [step_illegal_iff more, Pattern.first_eq_none_iff]

/-- Of a number that goes on as another one could begin, all is read that is a number. -/
theorem step_longest_fraction :
    Pattern.first "1.25.5".toList = some (.float, "1.25".toList) ∧
      ∀ q ∈ Pattern.table, ∀ front, q.Fits front → front <+: "1.25.5".toList →
        front.length ≤ "1.25".toList.length := by
  have first : Pattern.first "1.25.5".toList = some (.float, "1.25".toList) := by decide +kernel
  have longest := (step_longest (.ofSource "1.25.5" "f") (by decide +kernel)).1 _ _ first
  exact ⟨first, longest.2.2.2.2⟩

end Cursor

end FrontEnd
