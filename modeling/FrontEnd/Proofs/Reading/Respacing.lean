import FrontEnd.Proofs.Reading.Origins
import FrontEnd.Proofs.Reading.Spaced
import Mathlib.Data.List.Pairwise
import Mathlib.Logic.Equiv.Fintype

/-!
Texts with the same tokens at other places. Reading looks at the places of tokens only to see which
of them stand on one line. Main statement: two texts that have the same tokens, with lines between
the same ones, are read to the same tree, with the tokens of the other text in it, and with the same
errors at the places of the same tokens.
-/

namespace FrontEnd

/-- Lines end between the same tokens of two texts. -/
def SameBreak (a b : Token × Token) : Prop :=
  a.1.line = b.1.line ↔ a.2.line = b.2.line
  deriving Decidable

/-- Two lists of tokens that say the same. Lines end between the same ones; where the line of the
end of the file is does not matter. -/
structure SameTokens (ts us : List Token) : Prop where
  texts : ts.map (fun t => (t.kind, t.value)) = us.map fun t => (t.kind, t.value)
  breaks : (ts.zip us).dropLast.IsChain SameBreak

def Relabelling.moving (place : Span → Span) : Relabelling where
  name := fun v => v
  type := fun t => t
  record := fun decl => decl
  signature := fun sig => sig
  annotation := fun t => t
  token := fun t => { t with span := place t.span }

theorem Position.offset_lt (p : Position) : p.offset < limit :=
  Nat.mod_lt _ (by decide)

/-- The offset as a number of 32 bits. -/
def Position.word (p : Position) : Fin limit :=
  ⟨p.offset, p.offset_lt⟩

/-- The tokens of two texts, one for one and in the order in which they stand. Offsets are told
apart as before: a permutation of them takes those of the first tokens to those of the second. -/
structure Respacing where
  pairs : List (Token × Token)
  shift : Equiv.Perm (Fin Position.limit)
  texts : ∀ a ∈ pairs, a.1.kind = a.2.kind ∧ a.1.value = a.2.value
  ordered : pairs.Pairwise fun a b => a.1.start.offset < b.1.start.offset
  shift_start : ∀ a ∈ pairs, shift a.1.start.word = a.2.start.word
  lines : pairs.dropLast.Pairwise SameBreak

namespace Respacing

variable (m : Respacing)

theorem eq_of_offset {a b : Token × Token} (ha : a ∈ m.pairs) (hb : b ∈ m.pairs)
    (same : a.1.start.offset = b.1.start.offset) : a = b := by
  let Apart (a b : Token × Token) : Prop := a.1.start.offset = b.1.start.offset → a = b
  have symm : Std.Symm Apart := ⟨fun a b h same => (h same.symm).symm⟩
  have apart : m.pairs.Pairwise Apart := m.ordered.imp fun before same => by omega
  exact apart.forall_of_forall (fun _ _ _ => rfl) ha hb same

theorem sameBreak {a b : Token × Token} (ha : a ∈ m.pairs.dropLast) (hb : b ∈ m.pairs.dropLast) :
    SameBreak a b := by
  have symm : Std.Symm SameBreak := ⟨fun a b h => by unfold SameBreak at *; omega⟩
  exact m.lines.forall_of_forall (fun _ _ => by simp [SameBreak]) ha hb

def token? (p : Position) : Option Token :=
  (m.pairs.find? fun a => a.1.start.offset = p.offset).map Prod.snd

theorem token?_eq_some {p : Position} {u : Token} (h : m.token? p = some u) :
    ∃ t, (t, u) ∈ m.pairs ∧ t.start.offset = p.offset := by
  obtain ⟨⟨t, _⟩, found, rfl⟩ := Option.map_eq_some_iff.mp h
  exact ⟨t, List.mem_of_find?_eq_some found, by simpa using List.find?_some found⟩

theorem token?_start {a : Token × Token} (ha : a ∈ m.pairs) : m.token? a.1.start = some a.2 := by
  cases h : m.token? a.1.start with
  | none =>
    have := List.find?_eq_none.mp (Option.map_eq_none_iff.mp h) a ha
    simp at this
  | some u =>
    obtain ⟨t, mem, start⟩ := m.token?_eq_some h
    rw [← m.eq_of_offset mem ha start]

/-- Where no token starts, places are out of the way of all tokens. -/
def place (p : Position) : Position :=
  match m.token? p with
  | some u => u.start
  | none => { p with byte := m.shift p.word }

theorem place_start {a : Token × Token} (ha : a ∈ m.pairs) : m.place a.1.start = a.2.start := by
  rw [place, m.token?_start ha]

theorem word_place (p : Position) : (m.place p).word = m.shift p.word := by
  cases h : m.token? p with
  | none =>
    rw [place, h]
    exact Fin.ext (Nat.mod_eq_of_lt (m.shift p.word).isLt)
  | some u =>
    obtain ⟨t, mem, start⟩ := m.token?_eq_some h
    have same : p.word = t.start.word := Fin.ext start.symm
    rw [place, h, same]
    exact (m.shift_start (t, u) mem).symm

theorem offset_place (p q : Position) :
    (m.place p).offset = (m.place q).offset ↔ p.offset = q.offset := by
  have words (p q : Position) : p.offset = q.offset ↔ p.word = q.word :=
    (Fin.ext_iff (a := p.word) (b := q.word)).symm
  rw [words, words, m.word_place, m.word_place, m.shift.injective.eq_iff]

def translation : Translation :=
  { Translation.identity with
    span := fun s => ((m.token? s.start).map Token.span).getD ⟨m.place s.start, s.stop⟩
    place := m.place
    Inside := fun p => ∃ a ∈ m.pairs.dropLast, a.1.start = p
    start_span := by
      intro s
      cases h : m.token? s.start with
      | none => rfl
      | some u =>
        rw [place, h]
        rfl
    line := by
      rintro _ _ ⟨a, ha, rfl⟩ ⟨b, hb, rfl⟩
      rw [m.place_start (List.dropLast_subset _ ha), m.place_start (List.dropLast_subset _ hb)]
      exact (m.sameBreak ha hb).symm
    offset := m.offset_place }

theorem token_translation {a : Token × Token} (ha : a ∈ m.pairs) :
    m.translation.token a.1 = a.2 := by
  obtain ⟨kind, value⟩ := m.texts a ha
  have span : m.translation.span a.1.span = a.2.span := by
    change ((m.token? a.1.start).map Token.span).getD _ = a.2.span
    rw [m.token?_start ha, Option.map_some, Option.getD_some]
  rw [Translation.token, kind, value, span]

theorem tree_translation : m.translation.tree = .moving m.translation.span := by
  have field : m.translation.field = fun f => f := funext fun f => by
    cases f
    rfl
  have record : m.translation.record = fun decl => decl := funext fun decl => by
    obtain ⟨kind, name, _, id⟩ := decl
    exact congrArg (Record.mk kind name · id) (by rw [field, List.map_id'])
  have signature : m.translation.signature = fun sig => sig := funext fun sig => by
    obtain ⟨name, _, _, result⟩ := sig
    exact congrArg₂ (Signature.mk name · · result) (List.map_id' _) (List.map_id' _)
  rw [Translation.tree, record, signature]
  rfl

end Respacing

theorem SameBreak.pairwise {pairs : List (Token × Token)}
    (ordered : pairs.Pairwise fun a b => a.1.line ≤ b.1.line ∧ a.2.line ≤ b.2.line)
    (breaks : pairs.IsChain SameBreak) : pairs.Pairwise SameBreak := by
  induction pairs with
  | nil => exact .nil
  | cons a pairs ih =>
    obtain ⟨after, ordered⟩ := List.pairwise_cons.mp ordered
    cases breaks with
    | singleton => exact List.pairwise_singleton _ _
    | @cons_cons _ b pairs first more =>
      have rest := ih ordered more
      refine List.pairwise_cons.mpr ⟨fun c mem => ?_, rest⟩
      have near := after b List.mem_cons_self
      obtain rfl | mem := List.mem_cons.mp mem
      · exact first
      · have second := (List.pairwise_cons.mp rest).1 c mem
        have far := (List.pairwise_cons.mp ordered).1 c mem
        unfold SameBreak at first second ⊢
        omega

theorem Cursor.advancing_tokens {source : String} (file : String)
    (small : source.utf8ByteSize < 2 ^ 32 - 1) :
    (ofSource source file).tokens.Pairwise fun t u =>
      t.start.offset < u.start.offset ∧ t.line ≤ u.line := by
  have tiles : Tiles file [] _ (ofSource source file).tokens := tiles_tokens _ .nil rfl
  have offset (t : Token) (ht : t ∈ (ofSource source file).tokens) :
      t.start.offset = t.start.byte :=
    Position.offset_eq (tiles.fits (Text.addressable file small) t ht).1.byte
  refine tiles.advancing.imp_of_mem fun ht hu before => ?_
  rw [offset _ ht, offset _ hu]
  exact before

/-- Offsets that are told apart in both lists are taken to each other by a permutation. -/
theorem Position.exists_shift {pairs : List (Token × Token)}
    (ordered : pairs.Pairwise fun a b =>
      a.1.start.offset < b.1.start.offset ∧ a.2.start.offset < b.2.start.offset) :
    ∃ shift : Equiv.Perm (Fin limit), ∀ a ∈ pairs, shift a.1.start.word = a.2.start.word := by
  have apart := List.pairwise_iff_getElem.mp ordered
  have injective (start : Token × Token → Position)
      (before : ∀ (i j : Fin pairs.length), i < j →
        (start pairs[i]).offset < (start pairs[j]).offset) :
      Function.Injective fun i : Fin pairs.length => (start pairs[i]).word := by
    intro i j same
    have same : (start pairs[i]).offset = (start pairs[j]).offset := congrArg Fin.val same
    obtain less | rfl | more := lt_trichotomy i j
    · exact absurd same (before i j less).ne
    · rfl
    · exact absurd same (before j i more).ne'
  obtain ⟨shift, takes⟩ := Equiv.Perm.exists_extending_pair _ _
    (injective (·.1.start) fun i j less => (apart i j i.2 j.2 less).1)
    (injective (·.2.start) fun i j less => (apart i j i.2 j.2 less).2)
  refine ⟨shift, fun a mem => ?_⟩
  obtain ⟨i, hi, rfl⟩ := List.mem_iff_getElem.mp mem
  exact takes ⟨i, hi⟩

/-- The tokens of texts that have the same tokens belong together. -/
theorem SameTokens.exists_respacing {source source' file file' : String}
    (small : source.utf8ByteSize < 2 ^ 32 - 1) (small' : source'.utf8ByteSize < 2 ^ 32 - 1)
    (same : SameTokens (Cursor.ofSource source file).tokens
      (Cursor.ofSource source' file').tokens) :
    ∃ m : Respacing, (Cursor.ofSource source file).tokens = m.pairs.map Prod.fst ∧
      (Cursor.ofSource source' file').tokens = m.pairs.map Prod.snd := by
  have here := Cursor.advancing_tokens file small
  have there := Cursor.advancing_tokens file' small'
  obtain ⟨texts, breaks⟩ := same
  generalize (Cursor.ofSource source file).tokens = ts at *
  generalize (Cursor.ofSource source' file').tokens = us at *
  have length : ts.length = us.length := by simpa using congrArg List.length texts
  have fst : (ts.zip us).map Prod.fst = ts := List.map_fst_zip length.le
  have snd : (ts.zip us).map Prod.snd = us := List.map_snd_zip length.ge
  generalize ts.zip us = pairs at *
  subst fst snd
  have texts : ∀ a ∈ pairs, a.1.kind = a.2.kind ∧ a.1.value = a.2.value := by simpa using texts
  have both := (List.pairwise_map.mp here).and (List.pairwise_map.mp there)
  have lines := (both.sublist (List.dropLast_sublist _)).imp
    (S := fun a b => a.1.line ≤ b.1.line ∧ a.2.line ≤ b.2.line) fun h => ⟨h.1.2, h.2.2⟩
  obtain ⟨shift, takes⟩ := Position.exists_shift (both.imp fun h => ⟨h.1.1, h.2.1⟩)
  exact ⟨⟨pairs, shift, texts, both.imp fun h => h.1.1, takes, SameBreak.pairwise lines breaks⟩,
    rfl, rfl⟩

/-- Reading depends only on what the tokens say and on where lines end between them. Two texts that
have the same tokens, and all places of which can be kept in 32 bits, are read to the same program
but for the places of its tokens, which are those of the other text, and to the same errors at the
same tokens. -/
theorem Program.read_of_sameTokens (source source' file file' : String) (o : ReadOptions)
    (small : source.utf8ByteSize < 2 ^ 32 - 1) (small' : source'.utf8ByteSize < 2 ^ 32 - 1)
    (same : SameTokens (Cursor.ofSource source file).tokens
      (Cursor.ofSource source' file').tokens) :
    Text.Addressable file source.toList ∧ Text.Addressable file' source'.toList ∧
    ∃ place : Span → Span,
      (Cursor.ofSource source' file').tokens =
        (Cursor.ofSource source file).tokens.map (Relabelling.moving place).token ∧
      (read (.ofSource source' file') o).program =
        ⟨(read (.ofSource source file) o).program.id,
          (Relabelling.moving place).stmts (read (.ofSource source file) o).program.statements⟩ ∧
      (read (.ofSource source' file') o).nextId = (read (.ofSource source file) o).nextId ∧
      List.Forall₂ (fun d d' => d'.cause = d.cause ∧ ∃ t ∈ (Cursor.ofSource source file).tokens,
          d.position = t.start ∧ d'.position = ((Relabelling.moving place).token t).start)
        (read (.ofSource source file) o).errors (read (.ofSource source' file') o).errors := by
  refine ⟨Text.addressable file small, Text.addressable file' small', ?_⟩
  obtain ⟨m, here, there⟩ := same.exists_respacing small small'
  have moved : (Cursor.ofSource source' file').tokens =
      (Cursor.ofSource source file).tokens.map m.translation.token := by
    rw [here, there, List.map_map]
    exact List.map_congr_left fun a ha => (m.token_translation ha).symm
  have inside : ∀ t ∈ (Cursor.ofSource source file).tokens.dropLast,
      m.translation.Inside t.start := by
    rw [here, ← List.map_dropLast]
    rintro _ mem
    obtain ⟨a, ha, rfl⟩ := List.mem_map.mp mem
    exact ⟨a, ha, rfl⟩
  have options : m.translation.options o = o := by
    simp [Translation.options, Respacing.translation, Translation.identity]
  have read := m.translation.read_tokens (o := o) trivial moved inside
  rw [options, Translation.program, m.tree_translation] at read
  refine ⟨m.translation.span, moved, congrArg ReadResult.program read,
    by rw [read]; rfl, ?_⟩
  rw [read]
  refine List.forall₂_map_right_iff.mpr (List.forall₂_same.mpr fun d hd => ⟨rfl, ?_⟩)
  obtain ⟨t, ht, start⟩ := List.mem_map.mp ((read_aside (.ofSource source file) o).1 d hd)
  exact ⟨t, ht, start.symm,
    by rw [Translation.diagnostic, ← start, ← m.translation.start_token]; rfl⟩

/-- A text with blanks, a comment and empty lines between its tokens. -/
theorem Program.read_of_sameTokens_spaced :
    ∃ place : Span → Span,
      (read (.ofSource "\n  x := 1 // one\n\n\tf ( x, )  \n" "b")
        ⟨"u", [], 0, 10⟩).program.statements =
        (Relabelling.moving place).stmts
          (read (.ofSource "x:=1\nf(x,)" "a") ⟨"u", [], 0, 10⟩).program.statements := by
  obtain ⟨-, -, place, _, program, _⟩ := read_of_sameTokens "x:=1\nf(x,)"
    "\n  x := 1 // one\n\n\tf ( x, )  \n" "a" "b" ⟨"u", [], 0, 10⟩ (by decide) (by decide)
    ⟨by decide +kernel, by decide +kernel⟩
  exact ⟨place, congrArg Program.statements program⟩

/-- A function without a name, and a number `n` lines further down. -/
def Text.farNumber (n : Nat) : String :=
  String.ofList ('f' :: 'u' :: 'n' :: 'c' :: List.replicate n '\n' ++ ['5'])

theorem Position.after_breaks (file : String) (n : Nat) :
    after file (['f', 'u', 'n', 'c'] ++ List.replicate (n + 1) '\n') =
      ⟨4 + (n + 1), 1 + (n + 1), 1, file⟩ := by
  have size : '\n'.utf8Size = 1 := by decide
  have word : Text.bytes ['f', 'u', 'n', 'c'] = 4 := by decide
  have count : ['f', 'u', 'n', 'c'].count '\n' = 0 := by decide
  have last : (['f', 'u', 'n', 'c'] ++ List.replicate (n + 1) '\n').reverse.takeWhile (· ≠ '\n') =
      [] := by
    rw [List.reverse_append, List.reverse_replicate, List.replicate_succ]
    rfl
  rw [after, last, List.count_append, count, List.count_replicate_self, Text.bytes_append, word,
    Text.bytes_replicate, size]
  simp

theorem Cursor.tokens_farNumber (file : String) (n : Nat) :
    (ofSource (Text.farNumber (n + 1)) file).tokens =
      [⟨.kwFunc, "func", ⟨0, 1, 1, file⟩, ⟨4, 1, 5, file⟩⟩,
        ⟨.integer, "5", ⟨4 + (n + 1), 1 + (n + 1), 1, file⟩,
          ⟨4 + (n + 1) + 1, 1 + (n + 1), 2, file⟩⟩,
        ⟨.eof, "EOF", ⟨4 + (n + 1) + 1, 1 + (n + 1), 2, file⟩,
          ⟨4 + (n + 1) + 1, 1 + (n + 1), 2, file⟩⟩] := by
  let word := ['f', 'u', 'n', 'c']
  let breaks := List.replicate (n + 1) '\n'
  let c : Cursor := ⟨word ++ (breaks ++ ['5']), .start file⟩
  let d : Cursor := ⟨breaks ++ ['5'], .after file word⟩
  let e : Cursor := ⟨['5'], ⟨4 + (n + 1), 1 + (n + 1), 1, file⟩⟩
  have start : ofSource (Text.farNumber (n + 1)) file = c := by
    simp [ofSource, Text.farNumber, c, word, breaks]
  have cut : Pattern.cut (word ++ (breaks ++ ['5'])) = (some (.kwFunc, "func"), word) :=
    Pattern.cut_word (by decide) (by simp [breaks, List.replicate_succ]; decide)
  have first : c.tokens = ⟨.kwFunc, "func", ⟨0, 1, 1, file⟩, ⟨4, 1, 5, file⟩⟩ :: d.tokens := by
    rw [tokens_of_cut (by simp [c, word]), cut]
    rfl
  have gap : d.tokens = e.tokens := by
    have past : d.Past breaks e :=
      ⟨rfl, ((Position.pastAll_after file word breaks).trans (Position.after_breaks file n)).symm⟩
    exact past.blanks (by simp [breaks]; decide)
  rw [start, first, gap]
  rfl

/-- A number that starts where offsets begin anew is taken for the start of its statement. -/
theorem Program.read_depends_on_offset :
    SameTokens (Cursor.ofSource (Text.farNumber 1) "a").tokens
        (Cursor.ofSource (Text.farNumber (2 ^ 32 - 4)) "a").tokens ∧
      (read (.ofSource (Text.farNumber 1) "a") ⟨"u", [], 0, 10⟩).program.statements.length = 1 ∧
      (read (.ofSource (Text.farNumber (2 ^ 32 - 4)) "a") ⟨"u", [], 0, 10⟩).program.statements =
        [] := by
  have near := Cursor.tokens_farNumber "a" 0
  have far := Cursor.tokens_farNumber "a" (2 ^ 32 - 5)
  have number : 2 ^ 32 - 5 + 1 = 2 ^ 32 - 4 := by decide
  rw [number] at far
  refine ⟨?_, ?_, ?_⟩
  · rw [near, far]
    exact ⟨by decide +kernel, by decide +kernel⟩
  · rw [read, Reader.ofCursor, near, List.getLastD_cons]
    decide +kernel
  · rw [read, Reader.ofCursor, far, List.getLastD_cons]
    decide +kernel

end FrontEnd
