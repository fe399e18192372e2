import FrontEnd.Proofs.Token.Spelling
import FrontEnd.Proofs.Token.Tiling

namespace FrontEnd

def Escape.quote (v : String) : String :=
  "\"" ++ String.ofList (escape v.toList) ++ "\""

theorem Cursor.tokens_of_whole {source : String} {kind : Kind} {value : String} (file : String)
    (more : source.toList ≠ [])
    (whole : Pattern.cut source.toList = (some (kind, value), source.toList)) :
    (ofSource source file).tokens =
      [⟨kind, value, ⟨.start file, .after file source.toList⟩⟩,
        ⟨.eof, "EOF", ⟨.after file source.toList, .after file source.toList⟩⟩] := by
  have cut : Pattern.cut (ofSource source file).rest = (some (kind, value), source.toList) := whole
  have done : ((ofSource source file).pass source.toList).rest = [] := by simp [pass, ofSource]
  rw [tokens_of_cut more, cut, tokens_of_atEnd done]
  simp only [Option.map_some, tokenOf, eofToken, pass, ofSource, Position.pastAll_start]
  rfl

theorem TokenStream.yields_ofSource (source file : String) :
    Yields ⟨.ofSource source file, false⟩ (Cursor.ofSource source file).tokens
      ⟨⟨[], .after file source.toList⟩, true⟩ := by
  rw [← Position.pastAll_start]
  exact yields_tokens (.ofSource source file)

theorem Pattern.cut_quote (v : String) :
    cut (Escape.quote v).toList = (some (.string, v), (Escape.quote v).toList) := by
  have chars : (Escape.quote v).toList = '"' :: Escape.escape v.toList ++ ['"'] := by
    simp [Escape.quote]
  rw [chars, cut_quoted, String.ofList_toList]

theorem Cursor.tokens_quoted (v file : String) :
    (ofSource (Escape.quote v) file).tokens =
      [⟨.string, v, ⟨.start file, .after file (Escape.quote v).toList⟩⟩,
        ⟨.eof, "EOF",
          ⟨.after file (Escape.quote v).toList, .after file (Escape.quote v).toList⟩⟩] := by
  have more : (Escape.quote v).toList ≠ [] := by simp [Escape.quote]
  exact tokens_of_whole file more (Pattern.cut_quote v)

/-- A text that is written as a string literal is read as one string token of that value, which
spans the whole literal, and then the end of the file. The literal has to be so short that its
place can be kept in 32 bits. -/
theorem tokens_quote (v file : String) (small : (Escape.quote v).utf8ByteSize < 2 ^ 32 - 1) :
    let stop := Position.after file (Escape.quote v).toList
    let string : Token := ⟨.string, v, ⟨.start file, stop⟩⟩
    let eof : Token := ⟨.eof, "EOF", ⟨stop, stop⟩⟩
    (Cursor.ofSource (Escape.quote v) file).tokens = [string, eof] ∧
      TokenStream.Yields ⟨.ofSource (Escape.quote v) file, false⟩ [string, eof] ⟨⟨[], stop⟩, true⟩ ∧
      (Position.start file).offset = 0 ∧ stop.offset = (Escape.quote v).utf8ByteSize ∧
      Text.Addressable file (Escape.quote v).toList := by
  intro stop string eof
  have places := Text.addressable file small
  have fits : stop.Fits := places.after List.prefix_rfl
  refine ⟨Cursor.tokens_quoted v file, ?_, rfl, ?_, places⟩
  · rw [← Cursor.tokens_quoted]
    exact TokenStream.yields_ofSource _ file
  · rw [Position.offset_eq fits.byte]
    exact Text.bytes_toList _

/-- A text with quotes, backslashes, line breaks, and what looks like an escape. -/
theorem tokens_quote_escapes :
    (Escape.quote "\"\\x41\n\x000é").utf8ByteSize < 2 ^ 32 - 1 ∧
      (Position.after "b" (Escape.quote "\"\\x41\n\x000é").toList).offset = 16 := by
  have small : (Escape.quote "\"\\x41\n\x000é").utf8ByteSize < 2 ^ 32 - 1 := by decide +kernel
  refine ⟨small, ?_⟩
  rw [(tokens_quote "\"\\x41\n\x000é" "b" small).2.2.2.1]
  decide +kernel

theorem Escape.toList_quote_replicate {c : Char} (plain : escapeChar c = [c]) (n : Nat) :
    (quote (.ofList (List.replicate n c))).toList = '"' :: List.replicate n c ++ ['"'] := by
  have escaped : escape (List.replicate n c) = List.replicate n c := by
    induction n with
    | zero => rfl
    | succ n ih =>
      rw [List.replicate_succ, escape, List.flatMap_cons, plain, ← escape, ih]
      rfl
  simp [quote, escaped]

theorem Position.after_replicate (file : String) {c : Char} (inLine : c ≠ '\n') (n : Nat) :
    after file ('"' :: List.replicate n c ++ ['"']) = ⟨n * c.utf8Size + 2, 1, n + 3, file⟩ := by
  have quote : '"'.utf8Size = 1 := by decide
  have none : ('"' :: List.replicate n c ++ ['"']).count '\n' = 0 :=
    List.count_eq_zero.mpr (by simp [inLine.symm])
  have all : ('"' :: List.replicate n c ++ ['"']).reverse.takeWhile (· ≠ '\n') =
      ('"' :: List.replicate n c ++ ['"']).reverse :=
    List.takeWhile_eq_self_iff.mpr fun d mem => by
      simp only [List.mem_reverse, List.mem_append, List.mem_cons, List.mem_replicate] at mem
      obtain (rfl | ⟨-, rfl⟩) | rfl | mem := mem
      · decide
      · simpa using inLine
      · decide
      · cases mem
  have bytes : Text.bytes ('"' :: List.replicate n c ++ ['"']) = n * c.utf8Size + 2 := by
    rw [Text.bytes_append, Text.bytes_cons, Text.bytes_replicate, Text.bytes_cons, Text.bytes_nil,
      quote]
    omega
  rw [after, bytes, none, all]
  simp
  omega

/-- A literal of characters of four bytes, for which 32 bits are enough for the column but not for
the offset: its end is kept as if it were near its start. -/
theorem quote_end_wraps :
    (Escape.quote (.ofList (List.replicate (2 ^ 30) '😀'))).utf8ByteSize = 2 ^ 32 + 2 ∧
      ∃ string eof,
        (Cursor.ofSource (Escape.quote (.ofList (List.replicate (2 ^ 30) '😀'))) "b").tokens =
          [string, eof] ∧
        string.span.stop.line < Position.limit ∧ string.span.stop.column < Position.limit ∧
        string.span.stop.offset = 2 := by
  have face : '😀'.utf8Size = 4 := by decide
  have text := Escape.toList_quote_replicate (c := '😀') (by decide) (2 ^ 30)
  have stop := Position.after_replicate "b" (c := '😀') (by decide) (2 ^ 30)
  have tokens := Cursor.tokens_quoted (.ofList (List.replicate (2 ^ 30) '😀')) "b"
  rw [text, stop, face] at tokens
  have byte : Text.bytes _ = 2 ^ 30 * 4 + 2 := (congrArg Position.byte stop).trans (by rw [face])
  refine ⟨?_, _, _, tokens, ?_, ?_, ?_⟩
  · rw [← Text.bytes_toList, text, byte]
    decide
  · exact (by decide : 1 < Position.limit)
  · exact (by decide : 2 ^ 30 + 3 < Position.limit)
  · exact (by decide : (2 ^ 30 * 4 + 2) % Position.limit = 2)

end FrontEnd
