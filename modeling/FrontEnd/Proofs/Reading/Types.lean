import FrontEnd.Proofs.Name
import FrontEnd.Proofs.Reading.Texts
import FrontEnd.Reading.Types
import FrontEnd.Ty.Printer

namespace FrontEnd

def Name.IsWord (w : String) : Prop :=
  Pattern.IsWord w.toList ∧ Kind.ofWord w = .identifier

instance (w : String) : Decidable (Name.IsWord w) :=
  inferInstanceAs (Decidable (_ ∧ _))

/-- The types that can be written in a unit: no record, module or open type is one. A function type
that is written inline has no names, and the first word of a reference is not the name of a
primitive type. -/
inductive Ty.Source (unit : String) : Ty → Prop where
  | primitive {word : String} {t : Ty} : (word, t) ∈ Ty.primitives → Source unit t
  | pointer {t : Ty} : Source unit t → Source unit (.pointer t)
  | array {t : Ty} {n : Nat} : Source unit t → n < Word.limit → Source unit (.array t n)
  | func {params : List Ty} {result : Ty} : (∀ t ∈ params, Source unit t) → Source unit result →
      Source unit (.func ⟨"", params, params.map fun _ => "", result⟩)
  | named {modules : List String} {name : String} : (∀ w ∈ modules, Name.IsWord w) →
      Name.IsWord name → Ty.primitive? ((modules ++ [name]).headD "") = none →
      Source unit (.named ⟨Name.qualify name unit, modules.map (Name.qualify · unit)⟩)

mutual

/-- The first words of the references in a type, which a unit may have bound to types. -/
def Ty.heads : Ty → List String
  | .named ⟨name, modules⟩ => [Name.bare ((modules ++ [name]).headD "")]
  | .pointer t => t.heads
  | .array t _ => t.heads
  | .func ⟨_, params, _, result⟩ => Ty.headsOfAll params ++ result.heads
  | _ => []

def Ty.headsOfAll : List Ty → List String
  | [] => []
  | t :: ts => t.heads ++ Ty.headsOfAll ts

end

theorem Ty.mem_headsOfAll {ts : List Ty} {w : String} :
    w ∈ Ty.headsOfAll ts ↔ ∃ t ∈ ts, w ∈ t.heads := by
  induction ts with
  | nil => simp [Ty.headsOfAll]
  | cons t ts ih => simp [Ty.headsOfAll, ih]

theorem Name.IsWord.plain {w : String} (h : Name.IsWord w) : '-' ∉ w.toList := by
  intro mem
  have := Pattern.lexeme_word h.1 '-' mem
  simp [Pattern.isWordPart] at this

theorem Name.IsWord.bare_qualify {w : String} (h : Name.IsWord w) (unit : String) :
    Name.bare (Name.qualify w unit) = w :=
  Name.bare_qualify h.plain unit

theorem Ty.texts_eq_map (ts : List Ty) : Ty.texts ts = ts.map Ty.text := by
  induction ts with
  | nil => rfl
  | cons t ts ih => rw [Ty.texts, ih, List.map_cons]

theorem toList_intercalate_commas (ss : List String) :
    (", ".intercalate ss).toList = Parse.commas (ss.map String.toList) := by
  rw [String.toList_intercalate]
  rfl

theorem primitive_text {w : String} {t : Ty} (h : (w, t) ∈ Ty.primitives) :
    Name.IsWord t.text ∧ Ty.primitive? t.text = some t := by
  simp only [Ty.primitives, List.mem_cons, List.not_mem_nil, or_false, Prod.mk.injEq] at h
  obtain ⟨-, rfl⟩ | ⟨-, rfl⟩ | ⟨-, rfl⟩ | ⟨-, rfl⟩ | ⟨-, rfl⟩ | ⟨-, rfl⟩ | ⟨-, rfl⟩ | ⟨-, rfl⟩ |
    ⟨-, rfl⟩ | ⟨-, rfl⟩ | ⟨-, rfl⟩ | ⟨-, rfl⟩ | ⟨-, rfl⟩ := h
  all_goals exact ⟨by decide +kernel, rfl⟩

namespace Ty

theorem toList_text_pointer (t : Ty) : (Ty.pointer t).text.toList = ['*'] ++ t.text.toList := by
  rw [Ty.text, String.toList_append]
  rfl

theorem toList_text_array (t : Ty) (n : Nat) :
    (Ty.array t n).text.toList = ['['] ++ (Nat.toDigits 10 n ++ ([']'] ++ t.text.toList)) := by
  simp [Ty.text]

theorem toList_text_func (name : String) (params : List Ty) (names : List String) (result : Ty) :
    (Ty.func ⟨name, params, names, result⟩).text.toList =
      "func".toList ++ (['('] ++ ((Parse.commas (params.map fun t => t.text.toList) ++ [')']) ++
        if result.isVoid then [] else [' '] ++ result.text.toList)) := by
  have params : (", ".intercalate (Ty.texts params)).toList =
      Parse.commas (params.map fun t => t.text.toList) := by
    rw [toList_intercalate_commas, texts_eq_map, List.map_map]
    rfl
  rw [Ty.text]
  split <;> simp [params]

theorem join_words (modules : List String) (name : String) :
    ∃ first more, modules ++ [name] = first :: more ∧
      (modules.flatMap fun w => w.toList ++ ['.']) ++ name.toList =
        first.toList ++ more.flatMap fun w => ['.'] ++ w.toList := by
  induction modules with
  | nil => exact ⟨name, [], rfl, by simp⟩
  | cons m modules ih =>
    obtain ⟨first, more, words, text⟩ := ih
    refine ⟨m, first :: more, by rw [List.cons_append, words], ?_⟩
    rw [List.flatMap_cons, List.append_assoc, text]
    simp

theorem forall_mem_words {modules : List String} {name : String} {P : String → Prop}
    (words : ∀ w ∈ modules, P w) (word : P name) : ∀ w ∈ modules ++ [name], P w :=
  List.forall_mem_append.mpr ⟨words, by simpa using word⟩

theorem toList_text_named {unit : String} {modules : List String} {name : String}
    (words : ∀ w ∈ modules, Name.IsWord w) (word : Name.IsWord name) :
    (Ty.named ⟨Name.qualify name unit, modules.map (Name.qualify · unit)⟩).text.toList =
      (modules.flatMap fun w => w.toList ++ ['.']) ++ name.toList := by
  rw [Ty.text, String.toList_append, word.bare_qualify]
  simp only [String.toList_join, List.flatMap_map]
  rw [List.flatMap_congr fun w mem => by rw [(words w mem).bare_qualify, String.toList_append]]
  rfl

end Ty

namespace Parse

variable {r : Reader} {c c' c'' : Cursor}
variable {words : List String}

structure AfterType (r : Reader) (c : Cursor) : Prop where
  noType : (r.before c).kind.startsType = false
  noDot : (r.before c).kind ≠ .dot
  ends : Pattern.Ends c.rest

theorem takes_word {w : String} (h : Name.IsWord w) (past : c.Past w.toList c')
    (stop : ∀ ch ∈ c'.rest.head?, Pattern.isWordPart ch = false) :
    c.Takes ⟨.identifier, w, ⟨c.position, c'.position⟩⟩ c' := by
  have cut := Pattern.cut_word h.1 stop
  rw [String.ofList_toList, h.2] at cut
  refine past.takes ?_ cut
  obtain ⟨first, more, text, _⟩ := Pattern.isWord_iff.mp h.1
  rw [text]
  exact nofun

theorem stop_before_words (past : c.Past (words.flatMap fun w => ['.'] ++ w.toList) c')
    (ends : Pattern.Ends c'.rest) : ∀ ch ∈ c.rest.head?, Pattern.isWordPart ch = false := by
  cases words with
  | nil =>
    obtain rfl := past.of_nil
    exact ends.word
  | cons v words =>
    rw [past.rest]
    simp [Pattern.isWordPart]

def dottedStep (words : List String) : Parse (List String ⊕ List String) := do
  if (← kind) = .dot ∧ (← peekKind) = .identifier then
    let _ ← advance
    return .inl ((← advance).value :: words)
  else return .inr words.reverse

theorem steps_dottedName (names : ∀ w ∈ words, Name.IsWord w)
    (past : c.Past (words.flatMap fun w => ['.'] ++ w.toList) c') (ends : Pattern.Ends c'.rest)
    (before : List String) : Steps r dottedStep before c (words.reverse ++ before) c' := by
  induction words generalizing c before with
  | nil =>
    obtain rfl := past.of_nil
    exact .refl before c
  | cons w words ih =>
    obtain ⟨name, names⟩ := List.forall_mem_cons.mp names
    rw [List.flatMap_cons, List.append_assoc] at past
    obtain ⟨c₁, pastDot, past⟩ := past.split
    obtain ⟨c₂, pastWord, past⟩ := past.split
    have stop := stop_before_words past ends
    have dot := pastDot.symbol .dot (by decide)
    have word := takes_word name pastWord stop
    have step : Reads r (dottedStep before) c (.inl (w :: before)) c₂ := by
      have next : (r.before c).peek.kind = .identifier := by
        rw [r.peek_before dot, r.current_before word]
      refine reads_kind (reads_peekKind ?_)
      rw [if_pos ⟨r.kind_before dot, next⟩]
      exact (reads_advance dot).bind ((reads_advance word).bind (reads_pure _))
    have shorter : c₂.size < c.size := by
      rw [dot.size_eq, word.size_eq]
      omega
    have rest := ih names past (w :: before)
    refine .head step shorter ?_
    simpa using rest

theorem reads_dottedName (first : String) (names : ∀ w ∈ words, Name.IsWord w)
    (past : c.Past (words.flatMap fun w => ['.'] ++ w.toList) c') (after : AfterType r c') :
    Reads r (dottedName first) c (first :: words) c' ∧ c'.size ≤ c.size := by
  have steps := steps_dottedName (r := r) names past after.ends [first]
  have last : Reads r (dottedStep (words.reverse ++ [first])) c' (.inr (first :: words)) c' := by
    refine reads_kind (reads_peekKind ?_)
    rw [if_neg fun h => after.noDot h.1]
    have words : (words.reverse ++ [first]).reverse = first :: words := by simp
    exact words ▸ reads_pure _
  exact ⟨steps.loop last, steps.size_le⟩

theorem reads_namedType_primitive {w : String} {t : Ty} (word : Name.IsWord w)
    (primitive : Ty.primitive? w = some t) (past : c.Past w.toList c') (after : AfterType r c') :
    Reads r namedType c t c' := by
  have takes := takes_word word past after.ends.word
  refine (reads_expect takes).bind (reads_get ?_)
  rw [primitive]
  exact reads_pure t

theorem reads_namedType {modules : List String} {name : String}
    (unbound : r.generic? ((modules ++ [name]).headD "") = none)
    (words : ∀ w ∈ modules, Name.IsWord w) (word : Name.IsWord name)
    (notPrimitive : Ty.primitive? ((modules ++ [name]).headD "") = none)
    (past : c.Past ((modules.flatMap fun w => w.toList ++ ['.']) ++ name.toList) c')
    (after : AfterType r c') :
    Reads r namedType c
        (.named ⟨Name.qualify name r.unit, modules.map (Name.qualify · r.unit)⟩) c' ∧
      c'.size < c.size ∧ (r.before c).kind = .identifier := by
  obtain ⟨first, more, all, text⟩ := Ty.join_words modules name
  have names : ∀ w ∈ first :: more, Name.IsWord w := all ▸ Ty.forall_mem_words words word
  obtain ⟨firstWord, names⟩ := List.forall_mem_cons.mp names
  rw [all, List.headD_cons] at notPrimitive unbound
  rw [text] at past
  obtain ⟨c₁, pastFirst, past⟩ := past.split
  have stop := stop_before_words past after.ends
  have takes := takes_word firstWord pastFirst stop
  obtain ⟨read, shorter⟩ := reads_dottedName first names past after
  refine ⟨(reads_expect takes).bind (reads_get ?_), by rw [takes.size_eq]; omega,
    r.kind_before takes⟩
  have none : (r.before c₁).generic? first = none := unbound
  simp only [notPrimitive, none]
  refine read.bind (reads_get ?_)
  have qualified : (first :: more).map (r.before c').qualify =
      modules.map (Name.qualify · r.unit) ++ [Name.qualify name r.unit] := by
    rw [← all, List.map_append]
    rfl
  rw [qualified]
  simpa using reads_pure _

theorem AfterItem.afterType (h : AfterItem r .closeParen c) : AfterType r c := by
  refine ⟨?_, ?_, h.ends⟩ <;> obtain kind | kind := h.kind <;> rw [kind] <;> decide

theorem takes_number {n : Nat} (past : c.Past (Nat.toDigits 10 n) c')
    (ends : Pattern.Ends c'.rest) :
    c.Takes ⟨.integer, toString n, ⟨c.position, c'.position⟩⟩ c' := by
  rw [Nat.toString_eq_ofList_toDigits]
  refine past.takes Nat.toDigits_ne_nil (Pattern.cut_digits Nat.toDigits_ne_nil ?_ ends)
  exact fun d mem => Nat.isDigit_of_mem_toDigits (by decide) (by decide) mem

theorem natural_number (n : Nat) (span : Span) :
    Literal.natural? ⟨.integer, toString n, span⟩ = some n := by
  rw [Nat.toString_eq_ofList_toDigits]
  simp [Literal.natural?, Escape.numeral_toDigits]

theorem reads_arrayLength {n : Nat} (fits : n < Word.limit) (past : c.Past (Nat.toDigits 10 n) c')
    (ends : Pattern.Ends c'.rest) : Reads r arrayLength c n c' := by
  refine (reads_advance (takes_number past ends)).bind ?_
  rw [Literal.length?, Literal.below?, natural_number, Option.filter_some,
    if_pos (by simpa using fits)]
  exact reads_pure n

theorem takes_func (past : c.Past "func".toList c') (paren : c'.Past ['('] c'') :
    c.Takes ⟨.kwFunc, "func", ⟨c.position, c'.position⟩⟩ c' := by
  have stop : ∀ ch ∈ c'.rest.head?, Pattern.isWordPart ch = false := by
    rw [paren.rest]
    simp [Pattern.isWordPart]
  exact past.takes (by decide) (Pattern.cut_word (by decide) stop)

theorem mem_commas {ch : Char} {xs : List (List Char)} (h : ch ∈ commas xs) :
    ch ∈ [',', ' '] ∨ ∃ x ∈ xs, ch ∈ x := by
  induction xs with
  | nil => simp [commas] at h
  | cons x xs ih =>
    by_cases empty : xs = []
    · subst empty
      rw [commas_single] at h
      exact .inr ⟨x, List.mem_singleton_self x, h⟩
    · rw [commas_cons x empty] at h
      simp only [List.mem_append] at h
      obtain inFirst | comma | blank | rest := h
      · exact .inr ⟨x, List.mem_cons_self, inFirst⟩
      · exact .inl (List.mem_cons.mpr (.inl (List.mem_singleton.mp comma)))
      · exact .inl (List.mem_cons_of_mem _ blank)
      · obtain sep | ⟨y, hy, mem⟩ := ih rest
        · exact .inl sep
        · exact .inr ⟨y, List.mem_cons_of_mem x hy, mem⟩

end Parse

theorem Position.line_pastAll {cs : List Char} (h : '\n' ∉ cs) (p : Position) :
    (p.pastAll cs).line = p.line := by
  induction cs generalizing p with
  | nil => rfl
  | cons c cs ih =>
    simp only [List.mem_cons, not_or] at h
    rw [pastAll, List.foldl_cons, ← pastAll, ih h.2, past, if_neg (Ne.symm h.1)]

namespace Ty.Source

open Parse

variable {unit : String} {t : Ty} {r : Reader} {c c' : Cursor}

theorem newline_not_mem_commas {ts : List Ty} (h : ∀ t ∈ ts, '\n' ∉ t.text.toList) :
    '\n' ∉ commas (ts.map fun t => t.text.toList) := by
  intro mem
  obtain sep | ⟨x, hx, mem⟩ := mem_commas mem
  · simp at sep
  · obtain ⟨t, ht, rfl⟩ := List.mem_map.mp hx
    exact h t ht mem

theorem newline_not_mem (h : t.Source unit) : '\n' ∉ t.text.toList := by
  have word {w : String} (h : Name.IsWord w) : '\n' ∉ w.toList := fun mem => by
    have := Pattern.lexeme_word h.1 _ mem
    simp [Pattern.isWordPart] at this
  induction h with
  | primitive h => exact word (primitive_text h).1
  | pointer _ ih => simpa [toList_text_pointer] using ih
  | @array t n _ _ ih =>
    have digits : '\n' ∉ Nat.toDigits 10 n := fun mem => by
      have := Nat.isDigit_of_mem_toDigits (by decide) (by decide) mem
      simp at this
    simpa [toList_text_array, digits] using ih
  | @func params result _ _ ihs ih =>
    rw [toList_text_func]
    split <;> simp [newline_not_mem_commas ihs, ih]
  | @named modules name words name_word _ =>
    rw [toList_text_named words name_word]
    simp only [List.mem_append, List.mem_flatMap, not_or, not_exists, not_and]
    refine ⟨fun w hw => ⟨word (words w hw), by simp⟩, word name_word⟩

theorem takes_first (h : t.Source unit) (past : c.Past t.text.toList c')
    (ends : Pattern.Ends c'.rest) :
    ∃ token c₁, c.Takes token c₁ ∧ token.kind.startsType = true ∧ token.start = c.position := by
  cases h with
  | primitive h => exact ⟨_, _, takes_word (primitive_text h).1 past ends.word, rfl, rfl⟩
  | pointer _ =>
    rw [toList_text_pointer] at past
    obtain ⟨c₁, pastStar, _⟩ := past.split
    exact ⟨_, _, pastStar.symbol .star (by decide), rfl, rfl⟩
  | array _ _ =>
    rw [toList_text_array] at past
    obtain ⟨c₁, pastBracket, _⟩ := past.split
    exact ⟨_, _, pastBracket.symbol .openBracket (by decide), rfl, rfl⟩
  | func _ _ =>
    rw [toList_text_func] at past
    obtain ⟨c₁, pastFunc, past⟩ := past.split
    obtain ⟨c₂, pastParen, _⟩ := past.split
    exact ⟨_, _, takes_func pastFunc pastParen, rfl, rfl⟩
  | @named modules name words word _ =>
    rw [toList_text_named words word] at past
    obtain ⟨first, more, all, text⟩ := join_words modules name
    have names : ∀ w ∈ first :: more, Name.IsWord w := all ▸ forall_mem_words words word
    rw [text] at past
    obtain ⟨c₁, pastFirst, past⟩ := past.split
    exact ⟨_, _,
      takes_word (names first List.mem_cons_self) pastFirst (stop_before_words past ends),
      rfl, rfl⟩

theorem isVoid_eq_true (h : t.isVoid = true) : t = .void := by
  cases t with
  | void => rfl
  | _ => cases h

theorem reads_resultAfter {type : Parse Ty} {close : Token} (h : t.Source unit)
    (line : close.line = c.position.line)
    (past : c.Past (if t.isVoid then [] else [' '] ++ t.text.toList) c') (after : AfterType r c')
    (reads : ∀ c₁, c₁.size = c.size → c₁.Past t.text.toList c' →
      Reads r type c₁ t c' ∧ c'.size < c₁.size) :
    Reads r (resultAfter type close) c t c' ∧ c'.size ≤ c.size := by
  by_cases void : t.isVoid = true
  · rw [if_pos void] at past
    obtain rfl := past.of_nil
    obtain rfl := isVoid_eq_true void
    refine ⟨reads_current ?_, Nat.le_refl _⟩
    have noType : (r.before c).current.kind.startsType = false := after.noType
    rw [if_neg (by simp [noType])]
    exact reads_pure _
  · rw [if_neg void] at past
    obtain ⟨c₁, pastBlank, past⟩ := past.split
    have same := pastBlank.blank (by decide)
    obtain ⟨read, shorter⟩ := reads c₁ (congrArg List.length same.symm) past
    obtain ⟨token, c₂, takes, begins, start⟩ := h.takes_first past after.ends
    have sameLine : token.line = close.line := by
      rw [Token.line, ← Token.start, start, pastBlank.position,
        Position.line_pastAll (by decide), line]
    refine ⟨Reads.congr_left (reads_current ?_) same, ?_⟩
    · rw [r.current_before takes, if_pos ⟨begins, sameLine⟩]
      exact read
    · have : c₁.size = c.size := congrArg List.length same.symm
      omega

/-- A bound that is enough is enough after the first token. -/
theorem bound_cons {bound : List Token} {token : Token} (takes : c.Takes token c')
    (enough : c.size ≤ bound.length + 1) :
    ∃ b bound', bound = b :: bound' ∧ c'.size ≤ bound'.length + 1 := by
  have := c'.size_pos
  rw [takes.size_eq] at enough
  cases bound with
  | nil => simp at enough; omega
  | cons b bound => exact ⟨b, bound, rfl, by simpa using enough⟩

theorem head_named {modules : List String} {name unit : String}
    (words : ∀ w ∈ modules, Name.IsWord w) (word : Name.IsWord name) :
    (Ty.named ⟨Name.qualify name unit, modules.map (Name.qualify · unit)⟩).heads =
      [(modules ++ [name]).headD ""] := by
  cases modules with
  | nil => exact congrArg (fun w => [w]) (word.bare_qualify unit)
  | cons m modules => exact congrArg (fun w => [w]) ((words m List.mem_cons_self).bare_qualify unit)

theorem reads (h : t.Source r.unit) (unbound : ∀ w ∈ t.heads, r.generic? w = none)
    {bound : List Token} (enough : c.size ≤ bound.length + 1) (past : c.Past t.text.toList c')
    (after : AfterType r c') : Reads r (typeWithin bound) c t c' ∧ c'.size < c.size := by
  induction h generalizing c c' bound with
  | @primitive _ t h =>
    obtain ⟨word, primitive⟩ := primitive_text h
    have takes := takes_word word past after.ends.word
    obtain ⟨b, bound, rfl, _⟩ := bound_cons takes enough
    refine ⟨reads_kind ?_, by rw [takes.size_eq]; omega⟩
    rw [r.kind_before takes]
    exact reads_namedType_primitive word primitive past after
  | pointer _ ih =>
    rw [toList_text_pointer] at past
    obtain ⟨c₁, pastStar, past⟩ := past.split
    have star := pastStar.symbol .star (by decide)
    obtain ⟨b, bound, rfl, left⟩ := bound_cons star enough
    obtain ⟨read, shorter⟩ := ih unbound left past after
    refine ⟨reads_kind ?_, by rw [star.size_eq]; omega⟩
    rw [r.kind_before star]
    exact (reads_advance star).bind (read.bind (reads_pure _))
  | array _ fits ih =>
    rw [toList_text_array] at past
    obtain ⟨c₁, pastOpen, past⟩ := past.split
    obtain ⟨c₂, pastLength, past⟩ := past.split
    obtain ⟨c₃, pastClose, past⟩ := past.split
    have opens := pastOpen.symbol .openBracket (by decide)
    have closes := pastClose.symbol .closeBracket (by decide)
    have ends := pastClose.ends .closeBracket (by decide) (by decide)
    have size := (takes_number pastLength ends).size_eq
    have := closes.size_eq
    obtain ⟨b, bound, rfl, left⟩ := bound_cons opens enough
    have enough : c₃.size ≤ bound.length + 1 := by omega
    obtain ⟨read, shorter⟩ := ih unbound enough past after
    refine ⟨reads_kind ?_, by rw [opens.size_eq]; omega⟩
    rw [r.kind_before opens]
    refine (reads_advance opens).bind ((reads_arrayLength fits pastLength ends).bind ?_)
    exact (reads_expect closes).bind (read.bind (reads_pure _))
  | @func params result hs h ihs ih =>
    rw [toList_text_func] at past
    obtain ⟨c₁, pastFunc, past⟩ := past.split
    obtain ⟨c₂, pastOpen, past⟩ := past.split
    obtain ⟨c₃, pastParams, pastResult⟩ := past.split
    have func := takes_func pastFunc pastOpen
    have opens := pastOpen.symbol .openParen (by decide)
    have := opens.size_eq
    obtain ⟨b, bound, rfl, left⟩ := bound_cons func enough
    have free : ∀ t ∈ params, ∀ w ∈ t.heads, r.generic? w = none := fun t mem w hw =>
      unbound w (List.mem_append_left _ (mem_headsOfAll.mpr ⟨t, mem, hw⟩))
    have items : ∀ t ∈ params,
        ReadsItem r .closeParen (typeWithin bound) (bound.length + 1) t.text.toList (t = ·) := by
      intro t mem c c' enough past after
      obtain ⟨token, _, takes, begins, _⟩ := (hs t mem).takes_first past after.ends
      obtain ⟨read, shorter⟩ := ihs t mem (free t mem) enough past after.afterType
      refine ⟨?_, shorter, t, read, rfl⟩
      rw [r.kind_before takes]
      intro closing
      rw [closing] at begins
      cases begins
    obtain ⟨types, close, readParams, same, start, shorter⟩ :=
      reads_commaList (fun t : Ty => t.text.toList)
      ⟨by decide, by decide, by decide⟩ items pastParams (by omega)
    rw [List.forall₂_eq_eq_eq] at same
    subst same
    have line : close.line = c₃.position.line := by
      have noBreak := newline_not_mem_commas fun t mem => (hs t mem).newline_not_mem
      rw [Token.line, ← Token.start, start, pastParams.position, Position.line_pastAll noBreak,
        Position.line_pastAll (by simp [noBreak])]
    obtain ⟨readResult, le⟩ := h.reads_resultAfter line pastResult after
      (fun c₄ size past => @ih c₄ c' (fun w hw => unbound w (List.mem_append_right _ hw)) bound
        (by omega) past
        after)
    refine ⟨reads_kind ?_, by rw [func.size_eq]; omega⟩
    rw [r.kind_before func]
    refine (reads_advance func).bind ((reads_expect opens).bind (readParams.bind ?_))
    exact readResult.bind (reads_pure _)
  | @named modules name words word notPrimitive =>
    obtain ⟨token, c₁, takes, _⟩ := (named words word notPrimitive).takes_first past after.ends
    obtain ⟨b, bound, rfl, _⟩ := bound_cons takes enough
    rw [toList_text_named words word] at past
    rw [head_named words word, List.forall_mem_singleton] at unbound
    obtain ⟨read, shorter, kind⟩ := reads_namedType unbound words word notPrimitive past after
    refine ⟨reads_kind ?_, shorter⟩
    rw [kind]
    exact read

theorem reads_type_unbound (h : t.Source r.unit) (unbound : ∀ w ∈ t.heads, r.generic? w = none)
    (past : c.Past t.text.toList c') (after : AfterType r c') :
    Reads r type c t c' ∧ c'.size < c.size := by
  obtain ⟨read, shorter⟩ := h.reads unbound (Nat.le_of_eq (r.length_before c).symm) past after
  exact ⟨reads_get read, shorter⟩

theorem reads_type (h : t.Source r.unit) (generics : r.generics = [])
    (past : c.Past t.text.toList c') (after : AfterType r c') :
    Reads r type c t c' ∧ c'.size < c.size :=
  h.reads_type_unbound (fun w _ => by rw [Reader.generic?, generics]; rfl) past after

end Ty.Source

theorem Parse.afterType_nil (h : c.rest = []) : AfterType r c where
  noType := by rw [r.kind_before_nil h]; rfl
  noDot := by rw [r.kind_before_nil h]; exact nofun
  ends := by rw [h]; exact ⟨nofun, nofun⟩

/-- A reader that has taken a whole text has no tokens left, and sees the end of the file that it
saw before. -/
theorem Reader.before_end (r : Reader) (source file : String) :
    r.before ⟨[], (Position.start file).pastAll source.toList⟩ =
      { r.before (.ofSource source file) with tokens := [] } := by
  have start : (Cursor.ofSource source file).position = .after file ([] ++ []) := rfl
  obtain ⟨ts, eof, tokens, last, -⟩ := (Cursor.tiles_tokens _ .nil start).ends
  have done : (Cursor.mk [] ((Position.start file).pastAll source.toList)).tokens =
      [] ++ [eof] := by
    have reached : (Position.start file).pastAll source.toList = .after file source.toList :=
      Position.pastAll_after file [] source.toList
    rw [Cursor.tokens_of_atEnd rfl, last, Cursor.eofToken, reached]
    rfl
  rw [r.before_eq tokens, r.before_eq done]

/-- The text of a type that a unit can write is read as that type to its end, whatever names the
unit has bound to types, as long as no reference in it begins with one of them. -/
theorem Parse.type_text {t : Ty} {o : ReadOptions} (source : t.Source o.unit)
    {generics : List (String × Ty)} (unbound : ∀ w ∈ t.heads, generics.lookup w = none)
    (file : String) :
    let r := { Reader.ofCursor (.ofSource t.text file) o with generics := generics }
    Parse.type.run r = (.ok t, { r with tokens := [] }) := by
  intro r
  have past := Cursor.past_ofSource t.text file
  obtain ⟨read, -⟩ := source.reads_type_unbound (r := r) unbound past (afterType_nil rfl)
  rw [Reads, Reader.before_end] at read
  exact read

def Ty.nestedSample : Ty :=
  .func ⟨"", [.pointer (.named ⟨"T-7", ["m-7"]⟩),
      .array (.func ⟨"", [.func ⟨"", [], [], .void⟩], [""], .int 8⟩) 18446744073709551615],
        ["", ""],
    .func ⟨"", [.uint 8], [""], .void⟩⟩

theorem Parse.type_text_nested :
    Ty.nestedSample.text = "func(*m.T, [18446744073709551615]func(func()) i8) func(u8)" ∧
      Parse.type.run { Reader.ofCursor (.ofSource Ty.nestedSample.text "f") ⟨"7", [], 1, 1⟩ with
          generics := [("T", .bool)] } =
        (.ok Ty.nestedSample,
          { Reader.ofCursor (.ofSource Ty.nestedSample.text "f") ⟨"7", [], 1, 1⟩ with
            generics := [("T", .bool)], tokens := [] }) := by
  have void : Ty.Source "7" .void := @Ty.Source.primitive _ "void" _ (by simp [Ty.primitives])
  have byte : Ty.Source "7" (.uint 8) := @Ty.Source.primitive _ "u8" _ (by simp [Ty.primitives])
  have small : Ty.Source "7" (.int 8) := @Ty.Source.primitive _ "i8" _ (by simp [Ty.primitives])
  have action : Ty.Source "7" (.func ⟨"", [], [], .void⟩) := @Ty.Source.func _ [] _ nofun void
  have callback : Ty.Source "7" (.func ⟨"", [.func ⟨"", [], [], .void⟩], [""], .int 8⟩) :=
    @Ty.Source.func _ [.func ⟨"", [], [], .void⟩] _ (by simpa using action) small
  have reference : Ty.Source "7" (.named ⟨"T-7", ["m-7"]⟩) :=
    @Ty.Source.named "7" ["m"] "T" (by decide +kernel) (by decide +kernel) (by decide +kernel)
  have source : Ty.nestedSample.Source "7" := by
    refine @Ty.Source.func _ [_, _] _ ?_ (@Ty.Source.func _ [.uint 8] _ (by simpa using byte) void)
    simp only [List.forall_mem_cons]
    exact ⟨.pointer reference, .array callback (by decide), nofun⟩
  have unbound : ∀ w ∈ Ty.nestedSample.heads, [("T", Ty.bool)].lookup w = none := by
    decide +kernel
  exact ⟨by decide +kernel, Parse.type_text source unbound "f"⟩

end FrontEnd
