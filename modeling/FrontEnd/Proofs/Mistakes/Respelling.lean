import FrontEnd.Proofs.Mistakes.Rereading
import FrontEnd.Proofs.Token.Lexemes
import FrontEnd.Proofs.Token.Tiling

namespace FrontEnd

open Text

namespace Position

theorem after_column_of_not_mem {xs : List Char} (h : '\n' ∉ xs) (file : String)
    (front : List Char) :
    (after file (front ++ xs)).column = (after file front).column + xs.length := by
  have inLine : ∀ c ∈ xs.reverse, decide (c ≠ '\n') = true := fun c mem => by
    rw [decide_eq_true_eq]
    rintro rfl
    exact h (List.mem_reverse.mp mem)
  simp only [after, List.reverse_append, List.takeWhile_append_of_pos inLine, List.length_append,
    List.length_reverse]
  omega

theorem after_column_of_mem {xs : List Char} (h : '\n' ∈ xs) (file : String) (front : List Char) :
    (after file (front ++ xs)).column = (after file xs).column := by
  have broken : (xs.reverse.takeWhile (· ≠ '\n')).length ≠ xs.reverse.length := fun all => by
    have same := (List.takeWhile_prefix (· ≠ '\n')).eq_of_length all
    have inLine := List.mem_takeWhile_imp (same ▸ List.mem_reverse.mpr h)
    simp at inLine
  simp only [after, List.reverse_append]
  rw [List.takeWhile_append, if_neg broken]

end Position

namespace Cursor

variable (file : String) (front rest lexeme : List Char)

theorem pass_after : (Cursor.mk rest (.after file front)).pass lexeme =
    ⟨rest.drop lexeme.length, .after file (front ++ lexeme)⟩ := by
  rw [pass, Position.pastAll_after]

theorem tokenOf_after (t : Kind × String) : (Cursor.mk rest (.after file front)).tokenOf lexeme t =
    ⟨t.1, t.2, .after file front, .after file (front ++ lexeme)⟩ := by
  rw [tokenOf, Position.pastAll_after]

variable {file front rest}

theorem start_le_of_mem {t : Token} (h : t ∈ (Cursor.mk rest (.after file front)).tokens) :
    bytes front ≤ t.start.byte := by
  have tiles := tiles_tokens ⟨rest, .after file front⟩ .nil (by rw [List.append_nil])
  obtain ⟨more, start⟩ := tiles.exists_start t h
  simp [start, Position.after]

theorem mem_tokens_after_cut {t : Token} (nonempty : rest ≠ [])
    (h : t ∈ (Cursor.mk rest (.after file front)).tokens) (later : bytes front < t.start.byte) :
    t ∈ (Cursor.mk (rest.drop (Pattern.cut rest).2.length)
      (.after file (front ++ (Pattern.cut rest).2))).tokens := by
  rw [tokens_of_cut nonempty, pass_after] at h
  obtain first | rest := List.mem_append.mp h
  · obtain ⟨kv, _, rfl⟩ := Option.map_eq_some_iff.mp (Option.mem_toList.mp first)
    exact absurd later (Nat.lt_irrefl _)
  · exact rest

end Cursor

theorem Text.prefix_of_bytes_le {xs ys cs : List Char} (hx : xs <+: cs) (hy : ys <+: cs)
    (h : bytes xs ≤ bytes ys) : xs <+: ys := by
  obtain shorter | ⟨zs, rfl⟩ := List.prefix_or_prefix_of_prefix hx hy
  · exact shorter
  · cases zs with
    | nil => simp
    | cons c zs =>
      have := c.utf8Size_pos
      simp only [bytes_append, bytes_cons] at h
      omega

def Token.identifierAt (file : String) (front word : List Char) : Token :=
  ⟨.identifier, String.ofList word, .after file front, .after file (front ++ word)⟩

namespace Cursor

variable {file : String} {front rest : List Char}

theorem cut_inside {t : Token} {a xs : List Char} (nonempty : a ≠ [])
    (h : t ∈ (Cursor.mk (a ++ xs) (.after file front)).tokens)
    (place : t.start.byte = bytes (front ++ a)) : (Pattern.cut (a ++ xs)).2 <+: a := by
  have begun : a ++ xs ≠ [] := by simp [nonempty]
  have later : bytes front < t.start.byte := by
    obtain ⟨c, cs, rfl⟩ := List.exists_cons_of_ne_nil nonempty
    have := c.utf8Size_pos
    rw [place, bytes_append, bytes_cons]
    omega
  have beyond := start_le_of_mem (mem_tokens_after_cut begun h later)
  rw [place, bytes_append, bytes_append] at beyond
  exact prefix_of_bytes_le (Pattern.cut_prefix _) (List.prefix_append a xs) (by omega)

theorem cut_of_identifierAt {word xs : List Char} (nonempty : word ++ xs ≠ [])
    (h : Token.identifierAt file front word ∈ (Cursor.mk (word ++ xs) (.after file front)).tokens) :
    Pattern.cut (word ++ xs) = (some (.identifier, String.ofList word), word) := by
  have cut := Pattern.cut_prefix (word ++ xs)
  rw [tokens_of_cut nonempty, pass_after] at h
  obtain first | rest := List.mem_append.mp h
  · obtain ⟨kv, cutOff, same⟩ := Option.map_eq_some_iff.mp (Option.mem_toList.mp first)
    rw [tokenOf_after] at same
    obtain ⟨kind, value, span⟩ := (Token.mk.injEq ..).mp same
    have stops := congrArg (fun span => span.stop.byte) span
    simp only [Position.after, bytes_append] at stops
    have lexeme : (Pattern.cut (word ++ xs)).2 = word :=
      (prefix_of_bytes_le cut (List.prefix_append word xs) (by omega)).eq_of_length_le
        (prefix_of_bytes_le (List.prefix_append word xs) cut (by omega)).length_le
    exact Prod.ext (cutOff.trans (congrArg some (Prod.ext kind value))) lexeme
  · have beyond := start_le_of_mem rest
    obtain ⟨c, cs, hc⟩ := List.exists_cons_of_ne_nil (Pattern.cut_ne_nil nonempty)
    have := c.utf8Size_pos
    simp only [Token.identifierAt, Token.start, Position.after, hc, bytes_append,
      bytes_cons] at beyond
    omega

theorem tokens_of_identifierAt {word xs : List Char} (nonempty : word ≠ [])
    (h : Token.identifierAt file front word ∈ (Cursor.mk (word ++ xs) (.after file front)).tokens) :
    (Cursor.mk (word ++ xs) (.after file front)).tokens =
      .identifierAt file front word :: (Cursor.mk xs (.after file (front ++ word))).tokens := by
  have begun : word ++ xs ≠ [] := by simp [nonempty]
  have cut := cut_of_identifierAt begun h
  rw [tokens_of_cut begun, pass_after]
  simp only [cut, List.drop_left, Option.map_some, tokenOf_after]
  rfl

end Cursor

structure Respelling where
  file : String
  front : List Char
  old : List Char
  new : List Char
  nonempty : old ≠ []
  oldInLine : '\n' ∉ old
  nonempty' : new ≠ []
  newInLine : '\n' ∉ new

namespace Respelling

variable (d : Respelling)

def oldToken : Token :=
  .identifierAt d.file d.front d.old

/-- Where a place of the text is found after the replacement. -/
def shift (p : Position) : Position :=
  if p.byte ≤ bytes d.front then p
  else
    ⟨p.byte - bytes d.old + bytes d.new, p.line,
      if p.line = (Position.after d.file d.front).line then p.column - d.old.length + d.new.length
      else p.column, p.file⟩

/-- The token that is read in the place of a token. -/
def move (t : Token) : Token :=
  ⟨t.kind, if t = d.oldToken then String.ofList d.new else t.value,
    d.shift t.span.start, d.shift t.span.stop⟩

@[simp]
theorem shift_line (p : Position) : (d.shift p).line = p.line := by
  unfold shift
  split <;> rfl

theorem shift_of_le {p : Position} (h : p.byte ≤ bytes d.front) : d.shift p = p :=
  if_pos h

theorem bytes_old_pos : 0 < bytes d.old := by
  obtain ⟨c, cs, hc⟩ := List.exists_cons_of_ne_nil d.nonempty
  have := c.utf8Size_pos
  rw [hc, bytes_cons]
  omega

theorem after_column (xs : List Char) :
    (if (Position.after d.file (d.front ++ d.old ++ xs)).line = (Position.after d.file d.front).line
      then (Position.after d.file (d.front ++ d.old ++ xs)).column - d.old.length + d.new.length
      else (Position.after d.file (d.front ++ d.old ++ xs)).column) =
    (Position.after d.file (d.front ++ d.new ++ xs)).column := by
  have oldLines : d.old.count '\n' = 0 := List.count_eq_zero.mpr d.oldInLine
  by_cases broken : '\n' ∈ xs
  · have otherLine : (Position.after d.file (d.front ++ d.old ++ xs)).line ≠
        (Position.after d.file d.front).line := by
      have lines := List.count_pos_iff.mpr broken
      simp only [Position.after, List.count_append, oldLines]
      omega
    rw [if_neg otherLine, Position.after_column_of_mem broken, Position.after_column_of_mem broken]
  · have sameLine : (Position.after d.file (d.front ++ d.old ++ xs)).line =
        (Position.after d.file d.front).line := by
      simp [Position.after, oldLines, List.count_eq_zero.mpr broken]
    rw [if_pos sameLine]
    simp only [Position.after_column_of_not_mem broken,
      Position.after_column_of_not_mem d.oldInLine,
      Position.after_column_of_not_mem d.newInLine]
    omega

theorem shift_after (xs : List Char) :
    d.shift (.after d.file (d.front ++ d.old ++ xs)) = .after d.file (d.front ++ d.new ++ xs) := by
  have pos := d.bytes_old_pos
  have beyond : ¬ (Position.after d.file (d.front ++ d.old ++ xs)).byte ≤ bytes d.front := by
    simp only [Position.after, bytes_append]
    omega
  have offset : (Position.after d.file (d.front ++ d.old ++ xs)).byte - bytes d.old + bytes d.new =
      (Position.after d.file (d.front ++ d.new ++ xs)).byte := by
    simp only [Position.after, bytes_append]
    omega
  have line : (Position.after d.file (d.front ++ d.old ++ xs)).line =
      (Position.after d.file (d.front ++ d.new ++ xs)).line := by
    simp [Position.after, List.count_eq_zero.mpr d.oldInLine, List.count_eq_zero.mpr d.newInLine]
  unfold shift
  rw [if_neg beyond, d.after_column, offset, line]
  rfl

def replacement (unit : String) : Replacement where
  old := d.oldToken
  unit := unit
  move := d.move
  isIdentifier := rfl
  kind := fun _ => rfl
  line := fun t => d.shift_line t.span.start
  value := fun _ other => if_neg other

variable {d}

theorem move_of_after {t : Token} {xs ys : List Char}
    (h : t.span =
      ⟨.after d.file (d.front ++ d.old ++ xs), .after d.file (d.front ++ d.old ++ ys)⟩) :
    d.move t = ⟨t.kind, t.value,
      .after d.file (d.front ++ d.new ++ xs), .after d.file (d.front ++ d.new ++ ys)⟩ := by
  have other : t ≠ d.oldToken := by
    rintro rfl
    have := d.bytes_old_pos
    have start := congrArg (fun span => span.start.byte) h
    simp only [oldToken, Token.identifierAt, Position.after, bytes_append] at start
    omega
  simp only [move, h, if_neg other, d.shift_after]

theorem move_of_before {t : Token} (start : t.span.start.byte < bytes d.front)
    (stop : t.span.stop.byte ≤ bytes d.front) : d.move t = t := by
  have other : t ≠ d.oldToken := by
    rintro rfl
    exact absurd start (Nat.lt_irrefl _)
  simp only [move, if_neg other, d.shift_of_le (Nat.le_of_lt start), d.shift_of_le stop]

theorem move_oldToken : d.move d.oldToken = .identifierAt d.file d.front d.new := by
  have start : d.shift (.after d.file d.front) = .after d.file d.front :=
    d.shift_of_le (Nat.le_refl _)
  have stop := d.shift_after []
  simp only [List.append_nil] at stop
  simp [move, oldToken, Token.identifierAt, start, stop]

theorem tokens_after (b xs : List Char) :
    (Cursor.mk b (.after d.file (d.front ++ d.old ++ xs))).tokens.map d.move =
      (Cursor.mk b (.after d.file (d.front ++ d.new ++ xs))).tokens := by
  by_cases h : b = []
  · rw [Cursor.tokens_of_atEnd h, Cursor.tokens_of_atEnd h, List.map_singleton, move_of_after rfl]
    rfl
  · have shorter := List.length_pos_iff.mpr (Pattern.cut_ne_nil h)
    have cutOld := Cursor.tokens_of_cut (c := ⟨b, .after d.file (d.front ++ d.old ++ xs)⟩) h
    have cutNew := Cursor.tokens_of_cut (c := ⟨b, .after d.file (d.front ++ d.new ++ xs)⟩) h
    simp only [Cursor.pass_after, List.append_assoc _ _ (Prod.snd _)] at cutOld cutNew
    rw [cutOld, cutNew, List.map_append, tokens_after]
    congr 1
    cases (Pattern.cut b).1 with
    | none => rfl
    | some t =>
      refine congrArg (· :: []) ?_
      rw [Cursor.tokenOf_after, Cursor.tokenOf_after, List.append_assoc _ xs,
        List.append_assoc _ xs]
      exact move_of_after rfl
termination_by b.length
decreasing_by
  simp only [List.length_drop]
  have := List.length_pos_iff.mpr h
  omega

theorem tokens_respelled {b a f : List Char} (split : f ++ a = d.front)
    (stands : d.oldToken ∈ (Cursor.mk (a ++ (d.old ++ b)) (.after d.file f)).tokens)
    (stands' : Token.identifierAt d.file d.front d.new ∈
      (Cursor.mk (a ++ (d.new ++ b)) (.after d.file f)).tokens) :
    (Cursor.mk (a ++ (d.old ++ b)) (.after d.file f)).tokens.map d.move =
      (Cursor.mk (a ++ (d.new ++ b)) (.after d.file f)).tokens := by
  by_cases begun : a = []
  · subst begun
    obtain rfl : f = d.front := by simpa using split
    have after := tokens_after (d := d) b []
    simp only [List.append_nil] at after
    rw [List.nil_append, List.nil_append, Cursor.tokens_of_identifierAt d.nonempty stands,
      Cursor.tokens_of_identifierAt d.nonempty' stands', List.map_cons, after]
    exact congrArg (· :: _) move_oldToken
  · have begunOld : a ++ (d.old ++ b) ≠ [] := by simp [begun]
    have begunNew : a ++ (d.new ++ b) ≠ [] := by simp [begun]
    have place : bytes d.front = bytes (f ++ a) := by rw [split]
    have inside := Cursor.cut_inside begun stands place
    have same := Pattern.cut_local begun inside (Cursor.cut_inside begun stands' place)
    have later : bytes f < bytes d.front := by
      obtain ⟨c, cs, rfl⟩ := List.exists_cons_of_ne_nil begun
      have := c.utf8Size_pos
      rw [place, bytes_append, bytes_cons]
      omega
    have standsOld := Cursor.mem_tokens_after_cut begunOld stands later
    have standsNew := Cursor.mem_tokens_after_cut begunNew stands' later
    have shorter := List.length_pos_iff.mpr (Pattern.cut_ne_nil begunOld)
    have cutOld := Cursor.tokens_of_cut (c := ⟨a ++ (d.old ++ b), .after d.file f⟩) begunOld
    have cutNew := Cursor.tokens_of_cut (c := ⟨a ++ (d.new ++ b), .after d.file f⟩) begunNew
    rw [← same] at standsNew
    simp only [Cursor.pass_after, ← same] at cutOld cutNew
    clear same
    generalize Pattern.cut (a ++ (d.old ++ b)) =
      cut at inside standsOld standsNew shorter cutOld cutNew
    obtain ⟨t?, lexeme⟩ := cut
    obtain ⟨more, rfl⟩ := inside
    simp only [List.append_assoc, List.drop_left] at standsOld standsNew cutOld cutNew ⊢
    have shorter : more.length < (lexeme ++ more).length := by
      have : 0 < lexeme.length := shorter
      rw [List.length_append]
      omega
    have rest := tokens_respelled (by rw [List.append_assoc, split]) standsOld standsNew
    rw [cutOld, cutNew, List.map_append, rest]
    congr 1
    cases t? with
    | none => rfl
    | some t =>
      rw [Option.map_some, Option.map_some, Cursor.tokenOf_after, Cursor.tokenOf_after]
      refine congrArg (· :: []) (move_of_before later ?_)
      rw [← split, ← List.append_assoc, bytes_append _ more]
      exact Nat.le_add_right _ _
termination_by a.length

end Respelling

namespace Parse

open Editable

variable {c : Replacement} {r : Reader}

theorem tracks_statements (closing : Kind) :
    Tracks c 0 r (statements closing) (statements closing) := by
  have same : (c.reader r).tokens.length = r.tokens.length := List.length_map _
  have nested : Tracks c 0 r
      (get >>= fun r => (Nested.within (2 * r.tokens.length + 2)).statements closing)
      (get >>= fun r => (Nested.within (2 * r.tokens.length + 2)).statements closing) := by
    refine tracks_get ?_
    rw [same]
    exact (Nested.tracked_within c _).statements
  exact nested

instance : Editable Program :=
  ⟨fun d p => ⟨p.id, d.stmts p.statements⟩, fun old p => (Stmt.topLookups p.statements).count old⟩

theorem tracks_program : Tracks c 0 r program program := by
  refine (tracks_statements .eof).bind fun xs r => ?_
  have given : Tracks c (uses c.old xs) r (get >>= fun r => pure (⟨r.unit, xs⟩ : Program))
      (get >>= fun r => pure ⟨r.unit, edit c.edit xs⟩) := by
    refine tracks_get (tracks_pure ⟨(uses_stmts c.old xs).le, ?_⟩)
    rw [← edit_stmts]
    rfl
  -- What is added at the limit is an error, so that nothing is left to say.
  by_cases full : r.isSaturated ∧ r.hasTokens
  · have ends : ∀ {f : Reader → Reader} {g : Reader → Program}, ((modify f >>= fun _ => do
        return g (← get) : Parse Program).run r).2 = f r := rfl
    refine Reports.tracks ⟨fun fit => ?_, fun _ none => ?_, fun _ none => ?_⟩
    · rw [ends, if_pos full]
      exact ⟨fit.unit, fit.eof, fit.limit⟩
    · rw [ends, if_pos full] at none
      exact (List.append_eq_nil_iff.mp none).1
    · rw [ends, if_pos full] at none
      exact absurd none (by simp)
  · have skips {r : Reader} (more : ¬ (r.isSaturated ∧ r.hasTokens)) (p : Parse Program) :
        ((modify fun r => if r.isSaturated ∧ r.hasTokens then
            { r with errors :=
                r.errors ++ [⟨.parse (.tooManyErrors r.errors.length), r.current.start⟩] }
          else r) >>= fun _ => p).run r = p.run r := by
      have run : ∀ f : Reader → Reader, (modify f >>= fun _ => p).run r = p.run (f r) :=
        fun _ => rfl
      rw [run, if_neg more]
    have hasTokens : (c.reader r).hasTokens = r.hasTokens := by
      rw [Reader.hasTokens, c.reader_kind, Reader.hasTokens]
    refine given.of_run (skips full _) (skips ?_ _)
    rw [hasTokens]
    exact full

end Parse

namespace Reader

theorem ofCursor_of_tokens {c : Cursor} {o : ReadOptions} {ts : List Token} {eof : Token}
    (h : c.tokens = ts ++ [eof]) :
    Reader.ofCursor c o = ⟨ts, eof, o.unit, o.nextId, o.typeArgs, [], [], max 1 o.maxErrors⟩ := by
  simp [Reader.ofCursor, h]

end Reader

/-- A unit without errors in which an identifier that is looked up gets another name is read as
the same unit with the identifier replaced. -/
theorem Program.read_replaced {c : Replacement} {cursor cursor' : Cursor} {o : ReadOptions}
    (unit : o.unit = c.unit) (tokens : cursor'.tokens = cursor.tokens.map c.move)
    (once : cursor.tokens.count c.old ≤ 1) (readable : (Program.read cursor o).errors = [])
    (used : c.old ∈ Stmt.topLookups (Program.read cursor o).program.statements) :
    Program.read cursor' o =
        ⟨⟨(Program.read cursor o).program.id,
            c.edit.stmts (Program.read cursor o).program.statements⟩, [],
          (Program.read cursor o).nextId⟩ ∧
      (Stmt.topLookups (Program.read cursor o).program.statements).count c.old = 1 := by
  obtain ⟨ts, eof, ht, last⟩ := cursor.exists_tokens_eq
  rw [ht, List.map_append, List.map_singleton] at tokens
  have reader := Reader.ofCursor_of_tokens (o := o) ht
  have reader' : Reader.ofCursor cursor' o = c.reader (Reader.ofCursor cursor o) := by
    rw [reader, Reader.ofCursor_of_tokens tokens]
    rfl
  have fits : (Reader.ofCursor cursor o).Fits c.unit := by
    rw [reader]
    exact ⟨unit, last, Nat.le_max_left _ _⟩
  have count : (Reader.ofCursor cursor o).tokens.count c.old ≤ 1 := by
    rw [ht, List.count_append] at once
    rw [reader]
    exact Nat.le_trans (Nat.le_add_right _ _) once
  unfold Program.read at readable used ⊢
  rw [reader']
  cases run : Parse.program.run (Reader.ofCursor cursor o) with
  | mk result r =>
    rw [run] at readable used
    cases result with
    | error d => exact absurd readable (by simp)
    | ok p =>
      have looked : 0 < (Stmt.topLookups p.statements).count c.old := List.count_pos_iff.mpr used
      have uses : Editable.uses c.old p = (Stmt.topLookups p.statements).count c.old := rfl
      obtain ⟨le, less | same⟩ := Parse.tracks_program.result p r fits run readable
      · omega
      · rw [same]
        have errors : (c.reader r).errors = [] := readable
        simp only [errors]
        exact ⟨rfl, by omega⟩

end FrontEnd
