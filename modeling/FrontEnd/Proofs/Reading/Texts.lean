import FrontEnd.Proofs.Reading.Moves
import FrontEnd.Proofs.Token.Spelling
import FrontEnd.Proofs.Token.Tiling
import Mathlib.Data.List.Forall2

namespace FrontEnd

namespace Cursor

variable {c c' c'' : Cursor}

/-- The cursor `c'` is `c` after the text `cs`. -/
structure Past (c : Cursor) (cs : List Char) (c' : Cursor) : Prop where
  rest : c.rest = cs ++ c'.rest
  position : c'.position = c.position.pastAll cs

theorem Past.split {as bs : List Char} (h : Past c (as ++ bs) c'') :
    ∃ c', Past c as c' ∧ Past c' bs c'' := by
  refine ⟨⟨bs ++ c''.rest, c.position.pastAll as⟩, ⟨?_, rfl⟩, ⟨rfl, ?_⟩⟩
  · rw [h.rest, List.append_assoc]
  · rw [h.position, Position.pastAll, List.foldl_append]
    rfl

theorem Past.of_nil (h : Past c [] c') : c = c' := by
  obtain ⟨rest, position⟩ := c
  obtain ⟨rest', position'⟩ := c'
  obtain ⟨hr, hp⟩ := h
  cases hr
  cases hp
  rfl

theorem past_ofSource (source file : String) :
    (Cursor.ofSource source file).Past source.toList
      ⟨[], (Position.start file).pastAll source.toList⟩ :=
  ⟨(List.append_nil _).symm, rfl⟩

theorem Past.pass_eq {cs : List Char} (h : Past c cs c') : c.pass cs = c' := by
  rw [pass, ← h.position, h.rest, List.drop_left]

/-- The first token of a text, and the cursor that stands before the others. -/
def Takes (c : Cursor) (t : Token) (c' : Cursor) : Prop :=
  c.tokens = t :: c'.tokens

def size (c : Cursor) : Nat :=
  c.tokens.length

theorem Takes.size_eq {t : Token} (h : Takes c t c') : c.size = c'.size + 1 := by
  rw [size, h]
  rfl

theorem Takes.size_lt {t : Token} (h : Takes c t c') : c'.size < c.size := by
  rw [h.size_eq]
  exact Nat.lt_succ_self _

theorem size_pos (c : Cursor) : 0 < c.size := by
  obtain ⟨ts, eof, h, _⟩ := c.exists_tokens_eq
  simp [size, h]

theorem Past.takes {cs : List Char} {kind : Kind} {value : String} (h : Past c cs c')
    (nonempty : cs ≠ []) (cut : Pattern.cut (cs ++ c'.rest) = (some (kind, value), cs)) :
    c.Takes ⟨kind, value, ⟨c.position, c'.position⟩⟩ c' := by
  have more : c.rest ≠ [] := by
    rw [h.rest]
    exact List.append_ne_nil_of_left_ne_nil nonempty _
  rw [Takes, tokens_of_cut more, h.rest, cut, h.pass_eq, h.position]
  rfl

theorem Past.symbol {mark : Char} (h : Past c [mark] c') (kind : Kind)
    (single : (mark, kind) ∈ Pattern.singles) :
    c.Takes ⟨kind, String.singleton mark, ⟨c.position, c'.position⟩⟩ c' :=
  h.takes nofun (Pattern.cut_single single c'.rest)

theorem Past.ends {mark : Char} (h : Past c [mark] c') (kind : Kind)
    (single : (mark, kind) ∈ Pattern.singles) (notDot : kind ≠ .dot) : Pattern.Ends c.rest := by
  rw [h.rest]
  exact .of_single single notDot c'.rest

theorem cut_blank {ch : Char} (blank : Text.isBlank ch = true) (cs : List Char) :
    Pattern.cut (ch :: cs) = (none, ch :: cs.takeWhile Text.isBlank) := by
  refine Pattern.cut_of_first (p := .blank) (Pattern.first_of_lexeme [] rfl nofun ?_)
  simp [Pattern.lexeme, Pattern.run, blank]

theorem tokens_pass_blanks (c : Cursor) :
    (c.pass (c.rest.takeWhile Text.isBlank)).tokens = c.tokens := by
  obtain ⟨rest, position⟩ := c
  cases rest with
  | nil => rfl
  | cons d ds =>
    by_cases blank : Text.isBlank d = true
    · have all := tokens_of_cut (c := ⟨d :: ds, position⟩) nofun
      rw [cut_blank blank] at all
      rw [List.takeWhile_cons_of_pos blank]
      exact all.symm
    · rw [List.takeWhile_cons_of_neg blank]
      rfl

theorem Past.blank {ch : Char} (h : Past c [ch] c') (blank : Text.isBlank ch = true) :
    c.tokens = c'.tokens := by
  have more : c.rest ≠ [] := by simp [h.rest]
  have all := tokens_of_cut more
  rw [h.rest, List.singleton_append, cut_blank blank] at all
  have passed : c.pass (ch :: c'.rest.takeWhile Text.isBlank) =
      c'.pass (c'.rest.takeWhile Text.isBlank) := by
    simp only [pass, h.rest, h.position]
    rfl
  rw [all, passed, tokens_pass_blanks]
  rfl

end Cursor

namespace Reader

variable {c c' : Cursor}

def before (r : Reader) (c : Cursor) : Reader :=
  { r with tokens := c.tokens.dropLast, eof := c.tokens.getLastD c.eofToken }

variable (r : Reader)

theorem before_eq {c : Cursor} {ts : List Token} {eof : Token} (h : c.tokens = ts ++ [eof]) :
    r.before c = { r with tokens := ts, eof := eof } := by
  simp [Reader.before, h]

theorem before_congr (h : c.tokens = c'.tokens) : r.before c = r.before c' := by
  obtain ⟨ts, eof, tokens, _⟩ := c'.exists_tokens_eq
  rw [r.before_eq (h.trans tokens), r.before_eq tokens]

theorem before_of_takes {t : Token} (h : c.Takes t c') :
    r.before c = { r.before c' with tokens := t :: (r.before c').tokens } := by
  obtain ⟨ts, eof, tokens, _⟩ := c'.exists_tokens_eq
  have all : c.tokens = (t :: ts) ++ [eof] := by
    rw [h, tokens]
    rfl
  rw [r.before_eq all, r.before_eq tokens]

theorem length_before (c : Cursor) : (r.before c).tokens.length + 1 = c.size := by
  obtain ⟨ts, eof, tokens, _⟩ := c.exists_tokens_eq
  rw [r.before_eq tokens, Cursor.size, tokens, List.length_append]
  rfl

theorem current_before {t : Token} (h : c.Takes t c') : (r.before c).current = t := by
  rw [r.before_of_takes h]
  rfl

theorem kind_before {t : Token} (h : c.Takes t c') : (r.before c).kind = t.kind :=
  congrArg Token.kind (r.current_before h)

theorem peek_before {t : Token} (h : c.Takes t c') : (r.before c).peek = (r.before c').current := by
  rw [r.before_of_takes h]
  rfl

theorem kind_before_nil (h : c.rest = []) : (r.before c).kind = .eof := by
  have tokens : c.tokens = [] ++ [c.eofToken] := Cursor.tokens_of_atEnd h
  rw [r.before_eq tokens]
  rfl

end Reader

namespace Parse

variable {α β : Type} {r : Reader} {c c' c'' : Cursor}

/-- Before the text at `c` a reader gives `a`, and then stands before the text at `c'`. -/
def Reads (r : Reader) (p : Parse α) (c : Cursor) (a : α) (c' : Cursor) : Prop :=
  p.run (r.before c) = (.ok a, r.before c')

theorem reads_pure (a : α) : Reads r (pure a) c a c :=
  rfl

theorem Reads.bind {p : Parse α} {f : α → Parse β} {a : α} {b : β} (h : Reads r p c a c')
    (h' : Reads r (f a) c' b c'') : Reads r (p >>= f) c b c'' := by
  rw [Reads, run_bind, h]
  exact h'

theorem reads_get {f : Reader → Parse β} {b : β} (h : Reads r (f (r.before c)) c b c') :
    Reads r (get >>= f) c b c' :=
  h

theorem reads_kind {f : Kind → Parse β} {b : β} (h : Reads r (f (r.before c).kind) c b c') :
    Reads r (kind >>= f) c b c' :=
  h

theorem reads_peekKind {f : Kind → Parse β} {b : β}
    (h : Reads r (f (r.before c).peek.kind) c b c') :
    Reads r (peekKind >>= f) c b c' :=
  h

theorem reads_current {f : Token → Parse β} {b : β} (h : Reads r (f (r.before c).current) c b c') :
    Reads r (current >>= f) c b c' :=
  h

theorem reads_qualify {name : String} {f : String → Parse β} {b : β}
    (h : Reads r (f (r.qualify name)) c b c') : Reads r (qualify name >>= f) c b c' :=
  h

theorem reads_hasTokens {f : Bool → Parse β} {b : β}
    (h : Reads r (f (r.before c).hasTokens) c b c') :
    Reads r (hasTokens >>= f) c b c' :=
  h

theorem reads_advance {t : Token} (h : c.Takes t c') : Reads r advance c t c' := by
  rw [Reads, r.before_of_takes h]
  rfl

theorem reads_expect {t : Token} (h : c.Takes t c') : Reads r (expect t.kind) c t c' := by
  refine reads_kind ?_
  rw [r.kind_before h, if_pos rfl]
  exact reads_advance h

/-- A loop goes from `b` to `b'`, taking a token with each step. -/
inductive Steps (r : Reader) (step : β → Parse (β ⊕ α)) : β → Cursor → β → Cursor → Prop where
  | refl (b : β) (c : Cursor) : Steps r step b c b c
  | head {b b₁ b' : β} {c c₁ c' : Cursor} : Reads r (step b) c (.inl b₁) c₁ → c₁.size < c.size →
      Steps r step b₁ c₁ b' c' → Steps r step b c b' c'

variable {step : β → Parse (β ⊕ α)} {b b' b'' : β}

theorem Steps.trans (h : Steps r step b c b' c') (h' : Steps r step b' c' b'' c'') :
    Steps r step b c b'' c'' := by
  induction h with
  | refl => exact h'
  | head first shorter _ ih => exact .head first shorter (ih h')

theorem Steps.tail (h : Steps r step b c b' c') (last : Reads r (step b') c' (.inl b'') c'')
    (shorter : c''.size < c'.size) : Steps r step b c b'' c'' :=
  h.trans (.head last shorter (.refl b'' c''))

theorem Steps.size_le (h : Steps r step b c b' c') : c'.size ≤ c.size := by
  induction h with
  | refl => exact Nat.le_refl _
  | head _ shorter _ ih => omega

theorem Steps.loopWithin {a : α} (h : Steps r step b c b' c')
    (last : Reads r (step b') c' (.inr a) c'') {bound : List Token}
    (enough : c.size ≤ bound.length + 1) : Reads r (loopWithin step bound b) c a c'' := by
  induction h generalizing bound with
  | refl b c =>
    unfold Parse.loopWithin
    exact last.bind (reads_pure a)
  | @head b b₁ b' c c₁ c' first shorter _ ih =>
    unfold Parse.loopWithin
    have := c₁.size_pos
    cases bound with
    | nil => simp at enough; omega
    | cons t bound =>
      refine first.bind (ih last ?_)
      simp at enough
      omega

theorem Steps.loop {a : α} (h : Steps r step b c b' c') (last : Reads r (step b') c' (.inr a) c'') :
    Reads r (loop step b) c a c'' :=
  reads_get (h.loopWithin last (Nat.le_of_eq (r.length_before c).symm))

theorem Reads.congr_right {p : Parse α} {a : α} (h : Reads r p c a c')
    (same : c'.tokens = c''.tokens) : Reads r p c a c'' := by
  rw [Reads, h, r.before_congr same]

theorem Reads.congr_left {p : Parse α} {a : α} (h : Reads r p c a c')
    (same : c''.tokens = c.tokens) : Reads r p c'' a c' := by
  rw [Reads, r.before_congr same, h]

def commas (texts : List (List Char)) : List Char :=
  [',', ' '].intercalate texts

theorem commas_single (x : List Char) : commas [x] = x := by
  simp [commas]

theorem commas_cons {xs : List (List Char)} (x : List Char) (h : xs ≠ []) :
    commas (x :: xs) = x ++ ([','] ++ ([' '] ++ commas xs)) := by
  simp [commas, List.intercalate_cons_of_ne_nil h]

structure AfterItem (r : Reader) (closing : Kind) (c : Cursor) : Prop where
  kind : (r.before c).kind = .comma ∨ (r.before c).kind = closing
  ends : Pattern.Ends c.rest

def ReadsItem (r : Reader) (closing : Kind) (item : Parse α) (n : Nat) (text : List Char)
    (Q : α → Prop) : Prop :=
  ∀ c c', c.size ≤ n → c.Past text c' → AfterItem r closing c' →
    (r.before c).kind ≠ closing ∧ c'.size < c.size ∧ ∃ a, Reads r item c a c' ∧ Q a

section CommaList

variable {closing : Kind} {mark : Char} {item : Parse α} {n : Nat}

structure Closes (closing : Kind) (mark : Char) : Prop where
  single : (mark, closing) ∈ Pattern.singles
  notComma : closing ≠ .comma
  notDot : closing ≠ .dot

theorem Closes.afterItem (h : Closes closing mark) (past : c.Past [mark] c') :
    AfterItem r closing c where
  kind := .inr (r.kind_before (past.symbol _ h.single))
  ends := past.ends _ h.single h.notDot

theorem afterItem_comma (past : c.Past [','] c') : AfterItem r closing c where
  kind := .inl (r.kind_before (past.symbol _ (by decide)))
  ends := past.ends .comma (by decide) (by decide)

def commaStep (closing : Kind) (item : Parse α) (items : List α) :
    Parse (List α ⊕ (List α × Token)) := do
  if (← kind) = closing then
    return .inr (items.reverse, ← expect closing)
  let a ← item
  if (← kind) = .comma then
    let _ ← advance
  else if (← kind) ≠ closing then
    unexpected closing.name
  return .inl (a :: items)

section Steps

variable {text : String} {span : Span}

theorem reads_commaStep_end (item : Parse α) (takes : c.Takes ⟨closing, text, span⟩ c')
    (items : List α) :
    Reads r (commaStep closing item items) c (.inr (items.reverse, ⟨closing, text, span⟩)) c' := by
  refine reads_kind ?_
  rw [r.kind_before takes, if_pos rfl]
  exact (reads_expect takes).bind (reads_pure _)

theorem reads_commaStep_last {a : α} (notComma : closing ≠ .comma)
    (takes : c'.Takes ⟨closing, text, span⟩ c'') (more : (r.before c).kind ≠ closing)
    (h : Reads r item c a c') (items : List α) :
    Reads r (commaStep closing item items) c (.inl (a :: items)) c' := by
  have kind := r.kind_before takes
  refine reads_kind ?_
  rw [if_neg more]
  refine h.bind (reads_kind ?_)
  rw [kind, if_neg notComma]
  refine reads_kind ?_
  rw [kind, if_neg (fun h => h rfl)]
  exact reads_pure _

theorem reads_commaStep_comma {a : α} (takes : c'.Takes ⟨.comma, text, span⟩ c'')
    (more : (r.before c).kind ≠ closing) (h : Reads r item c a c') (items : List α) :
    Reads r (commaStep closing item items) c (.inl (a :: items)) c'' := by
  refine reads_kind ?_
  rw [if_neg more]
  refine h.bind (reads_kind ?_)
  rw [r.kind_before takes, if_pos rfl]
  exact (reads_advance takes).bind (reads_pure _)

end Steps

theorem steps_commaList {ι : Type} {R : ι → α → Prop} {text : ι → List Char} {xs : List ι}
    (closes : Closes closing mark) (items : ∀ x ∈ xs, ReadsItem r closing item n (text x) (R x))
    (past : c.Past (commas (xs.map text)) c') (closed : c'.Past [mark] c'') (enough : c.size ≤ n)
    (before : List α) :
    ∃ as, Steps r (commaStep closing item) before c (as.reverse ++ before) c' ∧
      List.Forall₂ R xs as := by
  induction xs generalizing c before with
  | nil =>
    obtain rfl := past.of_nil
    exact ⟨[], .refl before c, .nil⟩
  | cons x xs ih =>
    obtain ⟨first, rest⟩ := List.forall_mem_cons.mp items
    rw [List.map_cons] at past
    by_cases empty : xs = []
    · subst empty
      rw [List.map_nil, commas_single] at past
      obtain ⟨more, shorter, a, reads, ha⟩ := first c c' enough past (closes.afterItem closed)
      have step := reads_commaStep_last closes.notComma (closed.symbol _ closes.single) more reads
        before
      exact ⟨[a], .head step shorter (.refl _ _), .cons ha .nil⟩
    · rw [commas_cons _ (by simpa using empty)] at past
      obtain ⟨c₁, pastItem, past⟩ := past.split
      obtain ⟨c₂, pastComma, past⟩ := past.split
      obtain ⟨c₃, pastBlank, past⟩ := past.split
      obtain ⟨more, shorter, a, reads, ha⟩ := first c c₁ enough pastItem (afterItem_comma pastComma)
      have comma := pastComma.symbol .comma (by decide)
      have step := (reads_commaStep_comma comma more reads before).congr_right
        (pastBlank.blank (by decide))
      have smaller : c₃.size < c.size := by
        have := comma.size_eq
        have : c₃.size = c₂.size := congrArg List.length (pastBlank.blank (by decide)).symm
        omega
      obtain ⟨as, steps, has⟩ := ih rest past (by omega) (a :: before)
      refine ⟨a :: as, .head step smaller ?_, .cons ha has⟩
      simpa using steps

theorem reads_commaList {ι : Type} {R : ι → α → Prop} (text : ι → List Char) {xs : List ι}
    (closes : Closes closing mark) (items : ∀ x ∈ xs, ReadsItem r closing item n (text x) (R x))
    (past : c.Past (commas (xs.map text) ++ [mark]) c') (enough : c.size ≤ n) :
    ∃ as t, Reads r (commaList closing item) c (as, t) c' ∧ List.Forall₂ R xs as ∧
      t.start = c.position.pastAll (commas (xs.map text)) ∧ c'.size < c.size := by
  obtain ⟨c₁, pastItems, closed⟩ := past.split
  obtain ⟨as, steps, has⟩ := steps_commaList closes items pastItems closed enough []
  have close := closed.symbol _ closes.single
  have last := reads_commaStep_end (r := r) item close (as.reverse ++ [])
  rw [List.append_nil, List.reverse_reverse] at last
  rw [List.append_nil] at steps
  refine ⟨as, _, steps.loop last, has, pastItems.position, ?_⟩
  have := close.size_eq
  have := steps.size_le
  omega

end CommaList

end Parse

end FrontEnd
