import FrontEnd.Proofs.Token.Scan
import Mathlib.Data.List.TakeWhile

namespace FrontEnd

open Text

/-- The place in a text that has `front` before it. -/
def Position.after (file : String) (front : List Char) : Position :=
  ⟨bytes front, 1 + front.count '\n', 1 + (front.reverse.takeWhile (· ≠ '\n')).length, file⟩

namespace Position

theorem past_after (file : String) (front : List Char) (c : Char) :
    (after file front).past c = after file (front ++ [c]) := by
  by_cases h : c = '\n'
  · subst h
    simp [past, after]
    omega
  · simp [past, after, h]
    omega

theorem pastAll_after (file : String) (front cs : List Char) :
    (after file front).pastAll cs = after file (front ++ cs) := by
  induction cs generalizing front with
  | nil => simp [pastAll]
  | cons c cs ih =>
    have first : (after file front).pastAll (c :: cs) = ((after file front).past c).pastAll cs :=
      rfl
    rw [first, past_after, ih, List.append_assoc]
    rfl

theorem pastAll_start (file : String) (cs : List Char) : (start file).pastAll cs = after file cs :=
  pastAll_after file [] cs

end Position

theorem Text.Addressable.after {file : String} {text front : List Char}
    (places : Addressable file text) (h : front <+: text) : (Position.after file front).Fits :=
  Position.pastAll_start file front ▸ places front h

/-- A text between tokens, with `next` after it: blanks, and comments that end where their line
does. -/
inductive Gap (next : List Char) : List Char → Prop
  | nil : Gap next []
  | blank {c : Char} {gap : List Char} (blank : isBlank c = true) (more : Gap next gap) :
      Gap next (c :: gap)
  | comment {body gap : List Char} (inLine : '\n' ∉ body)
      (lineEnds : ∀ c ∈ (gap ++ next).head?, c = '\n') (more : Gap next gap) :
      Gap next ('/' :: '/' :: body ++ gap)

namespace Gap

variable {next gap more : List Char}

theorem append (h : Gap (more ++ next) gap) (h' : Gap next more) : Gap next (gap ++ more) := by
  induction h with
  | nil => exact h'
  | blank blank _ ih => exact .blank blank ih
  | @comment body gap inLine lineEnds _ ih =>
    have split : '/' :: '/' :: body ++ gap ++ more = '/' :: '/' :: body ++ (gap ++ more) := by simp
    rw [split]
    exact .comment inLine (by simpa using lineEnds) ih

theorem of_blanks (h : ∀ c ∈ gap, isBlank c = true) : Gap next gap := by
  induction gap with
  | nil => exact .nil
  | cons c gap ih =>
    obtain ⟨first, rest⟩ := List.forall_mem_cons.mp h
    exact .blank first (ih rest)

theorem of_line (cs : List Char) :
    Gap (cs.dropWhile (· ≠ '\n')) ('/' :: '/' :: cs.takeWhile (· ≠ '\n')) := by
  have inLine : '\n' ∉ cs.takeWhile (· ≠ '\n') := fun mem => by
    have := List.mem_takeWhile_imp mem
    simp at this
  have lineEnds : ∀ c ∈ ([] ++ cs.dropWhile (· ≠ '\n')).head?, c = '\n' := fun c mem => by
    have := List.head?_dropWhile_not (· ≠ '\n') cs
    rw [List.nil_append] at mem
    rw [mem] at this
    simpa using this
  simpa using Gap.comment inLine lineEnds .nil

end Gap

/-- The token of a string literal that is illegal for one of its escapes, by which it is named. -/
def Token.IsByteEscape (t : Token) : Prop :=
  t.kind = .illegal ∧ ∃ a b, Escape.isHexDigit a = true ∧ Escape.isHexDigit b = true ∧
    t.value = String.ofList ['\\', 'x', a, b]

/-- The tokens tile the text that has `front` before it: each stands after a gap and covers what
follows the gap, with the places where that begins and ends. Except for strings, its value is what
it covers. The end of the file stands after the last gap. -/
inductive Tiles (file : String) : List Char → List Char → List Token → Prop
  | eof {front gap : List Char} (clear : Gap [] gap) :
      Tiles file front gap
        [⟨.eof, "EOF", .after file (front ++ gap), .after file (front ++ gap)⟩]
  | token {front gap lexeme rest : List Char} {t : Token} {ts : List Token}
      (clear : Gap (lexeme ++ rest) gap) (covers : lexeme ≠ [])
      (span : t.span = ⟨.after file (front ++ gap), .after file (front ++ gap ++ lexeme)⟩)
      (notEof : t.kind ≠ .eof)
      (value : t.kind ≠ .string → ¬ t.IsByteEscape → t.value = String.ofList lexeme)
      (more : Tiles file (front ++ gap ++ lexeme) rest ts) :
      Tiles file front (gap ++ lexeme ++ rest) (t :: ts)

namespace Escape

theorem digitValue_lt (c : Char) : digitValue c < 16 := by
  have digit (a b : Char) (h : (a ≤ c && c ≤ b) = true) : a.toNat ≤ c.toNat ∧
      c.toNat ≤ b.toNat := by
    simpa [Char.le_def, UInt32.le_iff_toNat_le] using h
  unfold digitValue
  split
  case isTrue h =>
    have := digit '0' '9' h
    simp at this ⊢
    omega
  case isFalse =>
    split
    case isTrue h =>
      have := digit 'a' 'f' h
      simp at this ⊢
      omega
    case isFalse =>
      split
      case isTrue h =>
        have := digit 'A' 'F' h
        simp at this ⊢
        omega
      case isFalse => decide

theorem byte_digit (a : Char) : byte [a] = .ok (Char.ofNat (digitValue a)) := by
  have := digitValue_lt a
  have value : numeral 16 [a] = digitValue a := by simp [numeral]
  rw [byte, value, if_pos (by omega)]

theorem unescape_eq_error {cs ds : List Char} (h : unescape cs = .error ds) :
    ∃ a b, isHexDigit a = true ∧ isHexDigit b = true ∧ ds = [a, b] := by
  have deeper {f : List Char → List Char} {r : Except (List Char) (List Char)}
      (h : (do return f (← r) : Except (List Char) (List Char)) = .error ds) : r = .error ds := by
    cases r with
    | error e => exact h
    | ok _ => cases h
  fun_induction unescape cs with
  | case1 | case8 => cases h
  | case2 _ ih | case3 _ ih | case4 _ ih | case5 _ ih | case6 _ ih | case7 _ ih =>
    exact ih (deeper h)
  | case9 a =>
    rw [byte_digit] at h
    cases h
  | case10 a ha b bs hb ih =>
    cases hc : byte [a, b] with
    | ok c =>
      rw [hc] at h
      exact ih (deeper h)
    | error e =>
      rw [hc] at h
      cases h
      unfold byte at hc
      split at hc
      · cases hc
      · cases hc
        exact ⟨a, b, ha, hb, rfl⟩
  | case11 a ha b bs hb ih =>
    rw [byte_digit] at h
    exact ih (deeper h)
  | case12 a as ha ih => exact ih (deeper h)
  | case13 c cs _ _ _ _ _ _ _ ih => exact ih (deeper h)

end Escape

namespace Pattern

theorem gap_of_token?_eq_none {p : Pattern} {cs ds back : List Char} (h : p.lexeme cs = some ds)
    (split : cs = ds ++ back) (none : p.token? ds = none) : Gap back ds := by
  cases p with
  | blank =>
    obtain ⟨rfl, _⟩ := run_eq_some (show run isBlank cs = some ds from h)
    exact .of_blanks fun c mem => List.mem_takeWhile_imp mem
  | comment =>
    unfold lexeme at h
    split at h
    case h_2 cs _ =>
      cases h
      have after : back = cs.dropWhile (· ≠ '\n') := by
        have parts := List.takeWhile_append_dropWhile (p := (· ≠ '\n')) (l := cs)
        simp only [List.cons_append, List.cons.injEq, true_and] at split
        exact (List.append_cancel_left (parts.trans split)).symm
      rw [after]
      exact .of_line cs
    all_goals simp_all
  | word | hex | binary | float | integer | string | symbol => cases none

theorem token?_value {p : Pattern} (hp : p ∈ table) {cs ds : List Char} {k : Kind} {value : String}
    (h : p.lexeme cs = some ds) (ht : p.token? ds = some (k, value)) :
    k ≠ .eof ∧ ∀ span, k ≠ .string → ¬ (Token.mk k value span).IsByteEscape →
      value = String.ofList ds := by
  have symbols : ∀ q ∈ table, ∀ spelling, q ≠ .symbol .eof spelling := by simp [table]
  cases p with
  | blank | comment => cases ht
  | hex | binary | float | integer =>
    cases ht
    exact ⟨by decide, fun _ _ _ => rfl⟩
  | word =>
    cases ht
    exact ⟨ofWord_ne (by decide) _, fun _ _ _ => rfl⟩
  | string =>
    have hs : stringToken ds = (k, value) := Option.some.inj ht
    unfold stringToken at hs
    split at hs
    case h_1 =>
      cases hs
      exact ⟨by decide, fun _ notString => absurd rfl notString⟩
    case h_2 ds hd =>
      cases hs
      obtain ⟨a, b, ha, hb, rfl⟩ := Escape.unescape_eq_error hd
      exact ⟨by decide, fun _ _ notEscape => absurd ⟨rfl, a, b, ha, hb, rfl⟩ notEscape⟩
  | symbol kind spelling =>
    cases ht
    refine ⟨fun eof => symbols _ hp value (by rw [eof]), fun _ _ _ => ?_⟩
    simp only [lexeme] at h
    split at h
    · cases h
      exact String.ofList_toList.symm
    · cases h

end Pattern

namespace Cursor

variable {c : Cursor}

theorem step_cuts (h : c.rest ≠ []) : ∃ lexeme back, c.rest = lexeme ++ back ∧
    (c.step = (none, ⟨back, c.position.pastAll lexeme⟩) ∧ Gap back lexeme ∨
      ∃ t, c.step = (some t, ⟨back, c.position.pastAll lexeme⟩) ∧ lexeme ≠ [] ∧
        t.span = ⟨c.position, c.position.pastAll lexeme⟩ ∧ t.kind ≠ .eof ∧
        (t.kind ≠ .string → ¬ t.IsByteEscape → t.value = String.ofList lexeme)) := by
  obtain ⟨p, lexeme, fits, hs⟩ | ⟨ch, cs, hr, hs⟩ | ⟨hr, _⟩ := step_cases c
  · obtain ⟨hp, hl⟩ := Pattern.first_eq_some fits
    obtain ⟨back, hb⟩ := Pattern.lexeme_prefix hl
    have passed : c.pass lexeme = ⟨back, c.position.pastAll lexeme⟩ := by simp [pass, ← hb]
    refine ⟨lexeme, back, hb.symm, ?_⟩
    cases ht : p.token? lexeme with
    | none => exact .inl ⟨by rw [hs, ht, passed]; rfl, Pattern.gap_of_token?_eq_none hl hb.symm ht⟩
    | some kv =>
      obtain ⟨notEof, value⟩ := Pattern.token?_value hp hl ht
      exact .inr ⟨(c.emit kv.1 kv.2 lexeme).1, by rw [hs, ht, passed]; rfl,
        Pattern.lexeme_ne_nil hp hl, rfl, notEof, value _⟩
  · have passed : c.pass [ch] = ⟨cs, c.position.pastAll [ch]⟩ := by simp [pass, hr]
    rw [passed] at hs
    exact ⟨[ch], cs, hr, .inr ⟨_, hs, by simp, rfl, Kind.noConfusion, fun _ _ => rfl⟩⟩
  · exact absurd hr h

theorem exists_tokens_eq (c : Cursor) : ∃ ts eof, c.tokens = ts ++ [eof] ∧ eof.kind = .eof := by
  induction c using induct_steps with
  | atEnd c h => exact ⟨[], c.eofToken, tokens_of_atEnd h, rfl⟩
  | step c h ih =>
    obtain ⟨ts, eof, ht, last⟩ := ih
    rcases hs : c.step with ⟨t?, c'⟩
    rw [hs] at ht
    cases t? with
    | none => exact ⟨ts, eof, (tokens_of_gap h hs).trans ht, last⟩
    | some t => exact ⟨t :: ts, eof, (tokens_of_token h hs).trans (congrArg (t :: ·) ht), last⟩

theorem tiles_tokens (c : Cursor) {file : String} {front gap : List Char} (clear : Gap c.rest gap)
    (place : c.position = .after file (front ++ gap)) :
    Tiles file front (gap ++ c.rest) c.tokens := by
  induction c using induct_steps generalizing front gap with
  | atEnd c h =>
    rw [tokens_of_atEnd h, h, List.append_nil, eofToken, place]
    rw [h] at clear
    exact .eof clear
  | step c h ih =>
    obtain ⟨lexeme, back, hr, ⟨hs, more⟩ | ⟨t, hs, covers, span, notEof, value⟩⟩ := step_cuts h
    all_goals
      rw [place, Position.pastAll_after] at hs
      rw [hs] at ih
      rw [hr] at clear
    · rw [tokens_of_gap h hs, hr, ← List.append_assoc]
      exact ih (clear.append more) (by simp)
    · rw [tokens_of_token h hs, hr, ← List.append_assoc]
      rw [place, Position.pastAll_after] at span
      have after : Tiles file (front ++ gap ++ lexeme) ([] ++ back) _ := ih .nil (by simp)
      exact .token clear covers span notEof value after

end Cursor

namespace Tiles

variable {file : String} {front text : List Char} {ts : List Token}

theorem exists_start (h : Tiles file front text ts) :
    ∀ t ∈ ts, ∃ more, t.start = .after file (front ++ more) := by
  induction h with
  | eof =>
    intro t mem
    cases List.mem_singleton.mp mem
    exact ⟨_, rfl⟩
  | token clear covers span notEof value more ih =>
    intro t mem
    obtain rfl | mem := List.mem_cons.mp mem
    · exact ⟨_, congrArg Span.start span⟩
    · obtain ⟨more, start⟩ := ih t mem
      exact ⟨_, by rw [start, List.append_assoc, List.append_assoc]⟩

theorem ordered (h : Tiles file front text ts) :
    ts.Pairwise fun t u => t.span.stop.byte ≤ u.span.start.byte := by
  induction h with
  | eof => exact List.pairwise_singleton _ _
  | token clear covers span notEof value more ih =>
    refine List.pairwise_cons.mpr ⟨fun u mem => ?_, ih⟩
    obtain ⟨more, start⟩ := more.exists_start u mem
    have start : u.span.start = _ := start
    simp [span, start, Position.after]

theorem advancing (h : Tiles file front text ts) :
    ts.Pairwise fun t u => t.start.byte < u.start.byte ∧ t.line ≤ u.line := by
  induction h with
  | eof => exact List.pairwise_singleton _ _
  | token clear covers span notEof value more ih =>
    refine List.pairwise_cons.mpr ⟨fun u mem => ?_, ih⟩
    obtain ⟨more, start⟩ := more.exists_start u mem
    have start : u.span.start = _ := start
    obtain ⟨ch, chs, rfl⟩ := List.exists_cons_of_ne_nil covers
    have := ch.utf8Size_pos
    simp [Token.line, Token.start, start, span, Position.after]
    omega

/-- The last token is the end of the file, at the end of the text, and the others are none and are
not empty. -/
theorem ends (h : Tiles file front text ts) : ∃ us eof, ts = us ++ [eof] ∧
    eof = ⟨.eof, "EOF", .after file (front ++ text), .after file (front ++ text)⟩ ∧
    ∀ t ∈ us, t.kind ≠ .eof ∧ t.span.start.byte < t.span.stop.byte := by
  induction h with
  | eof => exact ⟨[], _, rfl, rfl, nofun⟩
  | @token front gap lexeme rest t ts clear covers span notEof value more ih =>
    obtain ⟨us, eof, rfl, he, hu⟩ := ih
    refine ⟨t :: us, eof, rfl, by simpa using he, List.forall_mem_cons.mpr ⟨⟨notEof, ?_⟩, hu⟩⟩
    obtain ⟨ch, chs, rfl⟩ := List.exists_cons_of_ne_nil covers
    have := ch.utf8Size_pos
    simp [span, Position.after]
    omega

theorem fits (h : Tiles file front text ts) (places : Addressable file (front ++ text)) :
    ∀ t ∈ ts, t.span.start.Fits ∧ t.span.stop.Fits := by
  induction h with
  | eof =>
    intro t mem
    cases List.mem_singleton.mp mem
    exact ⟨places.after List.prefix_rfl, places.after List.prefix_rfl⟩
  | @token front gap lexeme rest t ts clear covers span notEof value more ih =>
    have parts : front ++ (gap ++ lexeme ++ rest) = front ++ gap ++ lexeme ++ rest := by simp
    rw [parts] at places
    refine List.forall_mem_cons.mpr ⟨?_, ih places⟩
    rw [span]
    exact ⟨places.after ⟨lexeme ++ rest, by simp⟩, places.after ⟨rest, rfl⟩⟩

end Tiles

namespace TokenStream

/-- Asked again and again, a stream gives the tokens and then no more. -/
inductive Yields : TokenStream → List Token → TokenStream → Prop
  | done {s : TokenStream} (none : s.next = (none, s)) : Yields s [] s
  | more {s s' s'' : TokenStream} {t : Token} {ts : List Token} (some : s.next = (some t, s'))
      (yields : Yields s' ts s'') : Yields s (t :: ts) s''

theorem next_of_token {c c' : Cursor} {t : Token} (h : c.next = (t, c')) :
    (TokenStream.mk c false).next = (some t, ⟨c', t.kind = .eof⟩) := by
  simp [next, h]

theorem Yields.of_next_eq {c c' : Cursor} {ts : List Token} {s : TokenStream}
    (h : Yields ⟨c', false⟩ ts s) (same : c.next = c'.next) (finished : s.finished = true) :
    Yields ⟨c, false⟩ ts s := by
  have first : (TokenStream.mk c false).next = (TokenStream.mk c' false).next := by
    simp [next, same]
  cases h with
  | done => cases finished
  | more some yields => exact .more (first.trans some) yields

theorem yields_tokens (c : Cursor) :
    Yields ⟨c, false⟩ c.tokens ⟨⟨[], c.position.pastAll c.rest⟩, true⟩ := by
  induction c using Cursor.induct_steps with
  | atEnd c h =>
    have last : c = ⟨[], c.position.pastAll c.rest⟩ := by
      obtain ⟨rest, position⟩ := c
      cases h
      rfl
    rw [Cursor.tokens_of_atEnd h, ← last]
    exact .more (next_of_token (Cursor.next_of_atEnd h)) (.done rfl)
  | step c h ih =>
    obtain ⟨lexeme, back, hr, split⟩ := Cursor.step_cuts h
    have reached : (c.position.pastAll lexeme).pastAll back = c.position.pastAll c.rest := by
      simp [Position.pastAll, hr]
    obtain ⟨hs, -⟩ | ⟨t, hs, -, -, notEof, -⟩ := split
    all_goals
      rw [hs] at ih
      simp only [reached] at ih
    · rw [Cursor.tokens_of_gap h hs]
      exact ih.of_next_eq (Cursor.next_of_gap h hs) rfl
    · have reads := next_of_token (Cursor.next_of_token h hs)
      rw [decide_eq_false notEof] at reads
      rw [Cursor.tokens_of_token h hs]
      exact .more reads ih

end TokenStream

/-- The tokens that reading a text gives one after the other: one end-of-file token, which comes
last and again whenever it is asked for, at the end of the text, and before it tokens of at least
one byte, in order and disjoint, which with the gaps before them tile the text. The text has to be
so short that its end has a line and a column of 32 bits, whatever is in it. -/
theorem tokens_tile (source file : String) (small : source.utf8ByteSize < 2 ^ 32 - 1) : ∃ ts eof c,
    TokenStream.Yields ⟨.ofSource source file, false⟩ (ts ++ [eof]) ⟨c, true⟩ ∧
    c.next = (eof, c) ∧ eof.kind = .eof ∧ eof.start.offset = source.utf8ByteSize ∧
    (∀ t ∈ ts, t.kind ≠ .eof ∧ t.span.start.offset < t.span.stop.offset) ∧
    (ts ++ [eof]).Pairwise (fun t u => t.span.stop.offset ≤ u.span.start.offset) ∧
    Tiles file [] source.toList (ts ++ [eof]) ∧
    Addressable file source.toList ∧ ∀ t ∈ ts ++ [eof], t.span.start.Fits ∧ t.span.stop.Fits := by
  have start : (Cursor.ofSource source file).position = .after file [] := rfl
  have tiles : Tiles file [] ([] ++ source.toList) _ :=
    Cursor.tiles_tokens (.ofSource source file) .nil start
  obtain ⟨ts, eof, ht, he, hu⟩ := tiles.ends
  have yields := TokenStream.yields_tokens (.ofSource source file)
  rw [ht] at tiles yields
  rw [start, Position.pastAll_after] at yields
  have places : Addressable file source.toList := addressable file small
  have fits := tiles.fits places
  have offsets (t : Token) (mem : t ∈ ts ++ [eof]) :
      t.span.start.offset = t.span.start.byte ∧ t.span.stop.offset = t.span.stop.byte :=
    ⟨Position.offset_eq (fits t mem).1.byte, Position.offset_eq (fits t mem).2.byte⟩
  have last : eof ∈ ts ++ [eof] := List.mem_append_right _ List.mem_cons_self
  refine ⟨ts, eof, _, yields, ?_, ?_, ?_, fun t mem => ?_, ?_, tiles, places, fits⟩
  · rw [Cursor.next_of_atEnd rfl, he]
    rfl
  · rw [he]
  · refine (offsets eof last).1.trans ?_
    simp [he, Position.after, bytes_toList]
  · obtain ⟨start, stop⟩ := offsets t (List.mem_append_left _ mem)
    rw [start, stop]
    exact hu t mem
  · refine tiles.ordered.imp_of_mem fun ht hu le => ?_
    rw [(offsets _ ht).2, (offsets _ hu).1]
    exact le

/-- Two tokens with a gap before each, the second one with a character of two bytes in it. -/
theorem tokens_tile_gaps : "a // one\n  \"é\"".utf8ByteSize < 2 ^ 32 - 1 ∧
    ∃ ts eof c,
      TokenStream.Yields ⟨.ofSource "a // one\n  \"é\"" "b", false⟩ (ts ++ [eof]) ⟨c, true⟩ ∧
      eof.start.offset = 15 ∧ Tiles "b" [] "a // one\n  \"é\"".toList (ts ++ [eof]) := by
  have small : "a // one\n  \"é\"".utf8ByteSize < 2 ^ 32 - 1 := by decide
  obtain ⟨ts, eof, c, yields, -, -, stop, -, -, tiles, -⟩ :=
    tokens_tile "a // one\n  \"é\"" "b" small
  exact ⟨small, ts, eof, c, yields, stop, tiles⟩

theorem Cursor.tokens_end (source file : String) : ∃ ts eof,
    (ofSource source file).tokens = ts ++ [eof] ∧ eof.start = .after file source.toList := by
  have tiles : Tiles file [] ([] ++ source.toList) (ofSource source file).tokens :=
    tiles_tokens (.ofSource source file) .nil rfl
  obtain ⟨ts, eof, tokens, last, -⟩ := tiles.ends
  exact ⟨ts, eof, tokens, congrArg Token.start last⟩

/-- Line breaks up to the largest offset: the line after the last of them has no number of 32
bits. -/
theorem last_line_overflows :
    (String.ofList (List.replicate (2 ^ 32 - 1) '\n')).utf8ByteSize < 2 ^ 32 ∧
      ∃ ts eof, (Cursor.ofSource (.ofList (List.replicate (2 ^ 32 - 1) '\n')) "b").tokens =
        ts ++ [eof] ∧ ¬ eof.start.Fits := by
  generalize number : 2 ^ 32 - 1 = n
  have size : '\n'.utf8Size = 1 := by decide
  obtain ⟨ts, eof, tokens, place⟩ := Cursor.tokens_end (.ofList (List.replicate n '\n')) "b"
  refine ⟨?_, ts, eof, tokens, fun fits => ?_⟩
  · rw [← bytes_toList, String.toList_ofList, bytes_replicate, size]
    omega
  · have line : eof.start.line = 1 + n := by
      rw [place, Position.after, String.toList_ofList, List.count_replicate_self]
    have small := fits.line
    rw [line, Position.limit] at small
    omega

end FrontEnd
