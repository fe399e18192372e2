import FrontEnd.Token.Cursor
import Mathlib.Algebra.Ring.Nat
import Mathlib.Logic.Function.Iterate

namespace FrontEnd

namespace Text

def bytes (cs : List Char) : Nat :=
  (cs.map Char.utf8Size).sum

/-- The text can be cut after `n` bytes: they end in the text, and not inside a character. -/
def CutAt (cs : List Char) (n : Nat) : Prop :=
  ∃ front back, cs = front ++ back ∧ bytes front = n

@[simp]
theorem bytes_nil : bytes [] = 0 :=
  rfl

@[simp]
theorem bytes_cons (c : Char) (cs : List Char) : bytes (c :: cs) = c.utf8Size + bytes cs := by
  simp [bytes]

@[simp]
theorem bytes_append (cs ds : List Char) : bytes (cs ++ ds) = bytes cs + bytes ds := by
  simp [bytes]

theorem bytes_replicate (n : Nat) (c : Char) : bytes (List.replicate n c) = n * c.utf8Size := by
  simp [bytes]

theorem bytes_toList (s : String) : bytes s.toList = s.utf8ByteSize := by
  have ofList (cs : List Char) : (String.ofList cs).utf8ByteSize = bytes cs := by
    induction cs with
    | nil => simp
    | cons c cs ih => simp [String.ofList_cons, ih]
  rw [← ofList, String.ofList_toList]

theorem bytes_le_of_prefix {front cs : List Char} (h : front <+: cs) : bytes front ≤ bytes cs := by
  obtain ⟨back, rfl⟩ := h
  simp

theorem CutAt.le {cs : List Char} {n : Nat} (h : CutAt cs n) : n ≤ bytes cs := by
  obtain ⟨front, back, rfl, rfl⟩ := h
  simp

end Text

open Text

namespace Position

/-- No number of the position is too large for the 32 bits that it is kept in. -/
structure Fits (p : Position) : Prop where
  byte : p.byte < limit
  line : p.line < limit
  column : p.column < limit

theorem offset_eq {p : Position} (h : p.byte < limit) : p.offset = p.byte :=
  Nat.mod_eq_of_lt h

theorem pastAll_append (p : Position) (cs ds : List Char) :
    p.pastAll (cs ++ ds) = (p.pastAll cs).pastAll ds :=
  List.foldl_append

@[simp]
theorem pastAll_byte (p : Position) (cs : List Char) :
    (p.pastAll cs).byte = p.byte + bytes cs := by
  induction cs generalizing p with
  | nil => rfl
  | cons c cs ih =>
    have step : (p.past c).byte = p.byte + c.utf8Size := by
      unfold past
      split <;> rfl
    have tail : (p.pastAll (c :: cs)).byte = ((p.past c).pastAll cs).byte := rfl
    rw [tail, ih, step, bytes_cons]
    omega

/-- A character takes a byte at least, so that lines and columns grow no faster than bytes. -/
theorem pastAll_le (p : Position) (cs : List Char) : (p.pastAll cs).line ≤ p.line + bytes cs ∧
    (p.pastAll cs).column ≤ max 1 p.column + bytes cs := by
  induction cs generalizing p with
  | nil =>
    have same : p.pastAll [] = p := rfl
    rw [same]
    omega
  | cons c cs ih =>
    have size := c.utf8Size_pos
    have step : (p.past c).line ≤ p.line + 1 ∧ (p.past c).column ≤ max 1 p.column + 1 := by
      unfold past
      split
      · exact ⟨Nat.le_refl _, Nat.le_trans (Nat.le_max_left 1 p.column) (Nat.le_succ _)⟩
      · exact ⟨Nat.le_succ _, Nat.succ_le_succ (Nat.le_max_right 1 p.column)⟩
    have tail : p.pastAll (c :: cs) = (p.past c).pastAll cs := rfl
    have more := ih (p.past c)
    rw [tail, bytes_cons]
    omega

theorem fits_pastAll_start (file : String) {cs : List Char} (small : bytes cs + 1 < limit) :
    ((start file).pastAll cs).Fits := by
  have le := (start file).pastAll_le cs
  have line : (start file).line = 1 := rfl
  have column : (start file).column = 1 := rfl
  have byte : (start file).byte = 0 := rfl
  refine ⟨?_, ?_, ?_⟩
  · rw [pastAll_byte, byte]
    omega
  · omega
  · omega

end Position

/-- All places in the text can be kept in 32 bits, so that no count overflows while it is read. -/
def Text.Addressable (file : String) (text : List Char) : Prop :=
  ∀ front, front <+: text → ((Position.start file).pastAll front).Fits

theorem Text.addressable (file : String) {source : String}
    (small : source.utf8ByteSize < 2 ^ 32 - 1) : Addressable file source.toList := by
  intro front h
  have le := bytes_le_of_prefix h
  rw [bytes_toList] at le
  exact Position.fits_pastAll_start file (by rw [Position.limit]; omega)

namespace Pattern

variable {p : Pattern} {cs ds : List Char}

theorem run_eq_some {p : Char → Bool} (h : run p cs = some ds) : ds = cs.takeWhile p ∧ ds ≠ [] := by
  unfold run at h
  split at h
  · cases h
  · rename_i hne
    cases h
    exact ⟨rfl, hne⟩

theorem run_prefix {p : Char → Bool} (h : run p cs = some ds) : ds <+: cs := by
  rw [(run_eq_some h).1]
  exact List.takeWhile_prefix p

theorem stringBody_eq_some (h : stringBody cs = some ds) :
    ds <+: cs ∧ ∃ inner, ds = inner ++ ['"'] := by
  fun_induction stringBody cs generalizing ds with
  | case1 cs =>
    cases h
    exact ⟨by simp, [], rfl⟩
  | case2 => cases h
  | case3 c cs hc ih =>
    obtain ⟨es, he, rfl⟩ := Option.map_eq_some_iff.mp h
    obtain ⟨hp, inner, rfl⟩ := ih he
    exact ⟨by simpa using hp, '\\' :: c :: inner, rfl⟩
  | case4 => cases h
  | case5 c cs _ _ _ ih =>
    obtain ⟨es, he, rfl⟩ := Option.map_eq_some_iff.mp h
    obtain ⟨hp, inner, rfl⟩ := ih he
    exact ⟨by simpa using hp, c :: inner, rfl⟩
  | case6 => cases h

theorem lexeme_prefix (h : p.lexeme cs = some ds) : ds <+: cs := by
  unfold lexeme at h
  split at h
  case h_1 | h_11 => exact run_prefix h
  case h_2 cs =>
    cases h
    simpa using List.takeWhile_prefix _
  case h_4 c cs =>
    split at h
    · cases h
      simpa using List.takeWhile_prefix _
    · cases h
  case h_6 cs | h_8 cs =>
    obtain ⟨digits, hd, rfl⟩ := Option.map_eq_some_iff.mp h
    simpa using run_prefix hd
  case h_10 =>
    split at h
    case h_1 whole rest hw hr =>
      obtain ⟨part, hp, rfl⟩ := Option.map_eq_some_iff.mp h
      obtain ⟨back, hb⟩ := run_prefix hp
      have split := List.takeWhile_append_dropWhile (p := Char.isDigit) (l := cs)
      rw [← (run_eq_some hw).1, hr] at split
      exact ⟨back, by rw [← split, ← hb]; simp⟩
    case h_2 => cases h
  case h_12 cs =>
    obtain ⟨body, hb, rfl⟩ := Option.map_eq_some_iff.mp h
    simpa using (stringBody_eq_some hb).1
  case h_14 spelling =>
    split at h
    case isTrue fits =>
      cases h
      exact List.isPrefixOf_iff_prefix.mp fits
    case isFalse => cases h
  all_goals cases h

theorem lexeme_string (h : Pattern.string.lexeme cs = some ds) :
    ∃ inner, ds = '"' :: inner ++ ['"'] := by
  cases cs with
  | nil => cases h
  | cons c cs =>
    by_cases hc : c = '"'
    · subst hc
      obtain ⟨body, hb, rfl⟩ := Option.map_eq_some_iff.mp (show Option.map _ _ = _ from h)
      obtain ⟨_, inner, rfl⟩ := stringBody_eq_some hb
      exact ⟨inner, rfl⟩
    · have none : Pattern.string.lexeme (c :: cs) = Option.none := by
        simp [lexeme, hc]
      rw [none] at h
      cases h

theorem lexeme_marked (hp : p = .hex ∨ p = .binary) (h : p.lexeme cs = some ds) :
    ∃ mark digits, ds = '0' :: mark :: digits ∧ mark.utf8Size = 1 := by
  unfold lexeme at h
  split at h
  case h_6 | h_8 =>
    obtain ⟨digits, _, rfl⟩ := Option.map_eq_some_iff.mp h
    exact ⟨_, digits, rfl, by decide⟩
  all_goals simp_all

theorem first_eq_some (h : first cs = some (p, ds)) : p ∈ table ∧ p.lexeme cs = some ds := by
  obtain ⟨q, hq, hl⟩ := List.exists_of_findSome?_eq_some h
  obtain ⟨es, he, hpair⟩ := Option.map_eq_some_iff.mp hl
  cases hpair
  exact ⟨hq, he⟩

theorem ofWord_ne {k : Kind} (hk : k ∉ Kind.identifier :: Kind.reserved.map Prod.snd) (s : String) :
    Kind.ofWord s ≠ k := by
  unfold Kind.ofWord
  cases h : Kind.reserved.lookup s with
  | none =>
    rintro rfl
    exact hk List.mem_cons_self
  | some k' =>
    obtain ⟨_, _, split, _⟩ := List.lookup_eq_some_iff.mp h
    have mem : (s, k') ∈ Kind.reserved := split ▸ List.mem_append_right _ List.mem_cons_self
    rintro rfl
    exact hk (List.mem_cons_of_mem _ (List.mem_map_of_mem mem))

theorem token?_number (hp : p ∈ table) {k : Kind} {value : String}
    (h : p.token? cs = some (k, value)) (hk : k ∈ [Kind.integer, .hex, .binary]) :
    (p = .integer ∧ k = .integer ∨ p = .hex ∧ k = .hex ∨ p = .binary ∧ k = .binary) ∧
      value = String.ofList cs := by
  have symbols : ∀ k ∈ [Kind.integer, .hex, .binary], ∀ q ∈ table, ∀ s, q ≠ .symbol k s := by
    simp [table]
  have words : ∀ k ∈ [Kind.integer, .hex, .binary],
      k ∉ Kind.identifier :: Kind.reserved.map Prod.snd := by
    decide
  cases p with
  | blank | comment => cases h
  | hex | binary | integer =>
    cases h
    exact ⟨by simp, rfl⟩
  | word =>
    cases h
    exact absurd rfl (ofWord_ne (words _ hk) _)
  | float =>
    cases h
    simp at hk
  | string =>
    have hs : stringToken cs = (k, value) := Option.some.inj h
    unfold stringToken at hs
    split at hs <;> cases hs <;> simp at hk
  | symbol kind spelling =>
    cases h
    exact absurd rfl (symbols _ hk _ hp value)

end Pattern

namespace Cursor

variable {c : Cursor} {lexeme : List Char}

theorem advance_bytes (h : lexeme <+: c.rest)
    (small : c.position.byte + bytes c.rest < Word.limit) :
    c.advance (bytes lexeme) = .ok (c.pass lexeme) := by
  obtain ⟨back, hb⟩ := h
  have cut (front : List Char) : bytes? (bytes front) (front ++ back) = some front := by
    induction front with
    | nil => simp [bytes?]
    | cons ch front ih =>
      obtain ⟨n, hn⟩ : ∃ n, bytes (ch :: front) = n + 1 :=
        Nat.exists_eq_succ_of_ne_zero (by have := ch.utf8Size_pos; simp; omega)
      have rest : n + 1 - ch.utf8Size = bytes front := by
        simp at hn
        omega
      have fits : ch.utf8Size ≤ n + 1 := by
        simp at hn
        omega
      rw [hn, List.cons_append, bytes?, if_pos fits, rest, ih]
      rfl
  have inside : ¬ Word.limit ≤ c.position.byte + bytes lexeme := by
    rw [← hb, bytes_append] at small
    omega
  simp [advance, front, inside, ← hb, cut, Except.map]

theorem step_cases (c : Cursor) :
    (∃ p lexeme, Pattern.first c.rest = some (p, lexeme) ∧
      c.step = ((p.token? lexeme).map fun kv => (c.emit kv.1 kv.2 lexeme).1, c.pass lexeme)) ∨
    (∃ ch cs, c.rest = ch :: cs ∧
      c.step = (some (c.emit .illegal (String.singleton ch) [ch]).1, c.pass [ch])) ∨
    c.rest = [] ∧ c.step = (none, c) := by
  unfold step
  split
  case h_1 p lexeme fits =>
    refine .inl ⟨p, lexeme, fits, ?_⟩
    cases p.token? lexeme <;> rfl
  case h_2 =>
    split
    case h_1 ch cs hr => exact .inr (.inl ⟨ch, cs, hr, rfl⟩)
    case h_2 hr => exact .inr (.inr ⟨hr, rfl⟩)

theorem step_eq_pass (c : Cursor) : ∃ lexeme, lexeme <+: c.rest ∧ c.step.2 = c.pass lexeme := by
  obtain ⟨p, lexeme, fits, hs⟩ | ⟨ch, cs, hr, hs⟩ | ⟨hr, hs⟩ := step_cases c
  · exact ⟨lexeme, Pattern.lexeme_prefix (Pattern.first_eq_some fits).2, by rw [hs]⟩
  · exact ⟨[ch], by simp [hr], by rw [hs]⟩
  · exact ⟨[], List.nil_prefix, by rw [hs]; rfl⟩

/-- The cursor stands in the text, between two of its characters, and has counted those before
it. -/
def StandsIn (file : String) (text : List Char) (c : Cursor) : Prop :=
  ∃ front, text = front ++ c.rest ∧ c.position = (Position.start file).pastAll front

theorem standsIn_ofSource (source file : String) :
    (ofSource source file).StandsIn file source.toList :=
  ⟨[], rfl, rfl⟩

section

variable {file : String} {text : List Char}

theorem StandsIn.step (h : c.StandsIn file text) : c.step.2.StandsIn file text := by
  obtain ⟨front, rfl, place⟩ := h
  obtain ⟨lexeme, ⟨back, hb⟩, hs⟩ := step_eq_pass c
  refine ⟨front ++ lexeme, ?_, ?_⟩
  · simp [hs, pass, ← hb]
  · simp [hs, pass, place, Position.pastAll_append]

theorem StandsIn.iterate (h : c.StandsIn file text) (n : Nat) :
    ((fun c => c.step.2)^[n] c).StandsIn file text := by
  induction n generalizing c with
  | zero => exact h
  | succ n ih => exact ih h.step

theorem StandsIn.fits (h : c.StandsIn file text) (places : Addressable file text) :
    c.position.Fits := by
  obtain ⟨front, split, place⟩ := h
  rw [place]
  exact places front ⟨c.rest, split.symm⟩

end

/-- What reading takes for granted of a cursor over a text: the bytes that it has passed can be cut
off, the bytes of the next lexeme can be passed, and the quotes can be cut off a string. -/
structure CutsSafely (text : List Char) (c : Cursor) : Prop where
  passed : CutAt text c.position.byte
  next : ∃ n, c.advance n = .ok c.step.2
  quotes : ∀ lexeme, Pattern.first c.rest = some (.string, lexeme) →
    CutAt lexeme 1 ∧ CutAt lexeme (bytes lexeme - 1) ∧ 2 ≤ bytes lexeme

theorem cutAt_quotes (h : Pattern.string.lexeme c.rest = some lexeme) :
    CutAt lexeme 1 ∧ CutAt lexeme (bytes lexeme - 1) ∧ 2 ≤ bytes lexeme := by
  obtain ⟨inner, rfl⟩ := Pattern.lexeme_string h
  have quote : '"'.utf8Size = 1 := by decide
  have size : bytes ('"' :: inner ++ ['"']) = bytes inner + 2 := by
    simp [quote]
    omega
  refine ⟨⟨['"'], inner ++ ['"'], by simp, by simp [quote]⟩,
    ⟨'"' :: inner, ['"'], by simp, ?_⟩, by omega⟩
  rw [size, bytes_cons, quote]
  omega

theorem cutAt_mark {t : Token} (h : c.step.1 = some t) (hk : t.kind = .hex ∨ t.kind = .binary) :
    CutAt t.value.toList 2 := by
  obtain ⟨p, lexeme, fits, hs⟩ | ⟨ch, cs, hr, hs⟩ | ⟨hr, hs⟩ := step_cases c
  · obtain ⟨hp, hl⟩ := Pattern.first_eq_some fits
    rw [hs] at h
    obtain ⟨⟨k, value⟩, ht, rfl⟩ := Option.map_eq_some_iff.mp h
    replace hk : k = .hex ∨ k = .binary := hk
    obtain ⟨⟨_, rfl⟩ | number, rfl⟩ := Pattern.token?_number hp ht (by simp [hk])
    · simp at hk
    have marked : p = .hex ∨ p = .binary := number.imp And.left And.left
    obtain ⟨mark, digits, rfl, size⟩ := Pattern.lexeme_marked marked hl
    have zero : '0'.utf8Size = 1 := by decide
    exact ⟨['0', mark], digits, by simp [emit], by simp [zero, size]⟩
  · rw [hs] at h
    cases h
    simp [emit] at hk
  · rw [hs] at h
    cases h

theorem StandsIn.cutsSafely {file : String} {text : List Char} (h : c.StandsIn file text)
    (small : bytes text < Word.limit) : c.CutsSafely text := by
  obtain ⟨front, rfl, place⟩ := h
  have passed : c.position.byte = bytes front := by
    rw [place, Position.pastAll_byte]
    exact Nat.zero_add _
  refine ⟨⟨front, c.rest, rfl, passed.symm⟩, ?_,
    fun _ hf => cutAt_quotes (Pattern.first_eq_some hf).2⟩
  obtain ⟨lexeme, hl, hs⟩ := step_eq_pass c
  rw [bytes_append, ← passed] at small
  exact ⟨bytes lexeme, hs ▸ advance_bytes hl small⟩

theorem cutAt_mark_of_mem_tokens {t : Token} (h : t ∈ c.tokens)
    (hk : t.kind = .hex ∨ t.kind = .binary) : CutAt t.value.toList 2 := by
  have eof (c : Cursor) (h : t ∈ [c.eofToken]) : CutAt t.value.toList 2 := by
    simp only [List.mem_singleton] at h
    subst h
    simp [eofToken] at hk
  have within (n : Nat) (c : Cursor) (h : t ∈ tokensWithin n c) : CutAt t.value.toList 2 := by
    induction n generalizing c with
    | zero => exact eof c h
    | succ n ih =>
      unfold tokensWithin at h
      split at h
      · exact eof c h
      · split at h
        case h_1 u c' hs =>
          obtain rfl | h := List.mem_cons.mp h
          · exact cutAt_mark (c := c) (by rw [hs]) hk
          · exact ih c' h
        case h_2 c' hs => exact ih c' h
  exact within _ c h

end Cursor

end FrontEnd
