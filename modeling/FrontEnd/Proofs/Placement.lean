import FrontEnd.Proofs.Lines
import FrontEnd.Proofs.Log.Known
import FrontEnd.Proofs.Name

namespace FrontEnd

namespace Cursor

variable {c : Cursor}

theorem step_of_blank {ch : Char} {cs : List Char} (rest : c.rest = ch :: cs)
    (blank : Text.isBlank ch = true) : c.step.1 = none := by
  have first : Pattern.first c.rest = some (.blank, (ch :: cs).takeWhile Text.isBlank) := by
    simp [Pattern.first, Pattern.table, Pattern.lexeme, Pattern.run, rest, blank]
  simp [step, first, Pattern.token?]

/-- A token stands at a place in the text, and it begins with a character that is seen there, if it
is not the end of the file. -/
theorem place_of_token {file : String} {front : List Char} (place : c.position = .after file front)
    {t : Token} (mem : t ∈ c.tokens) :
    ∃ passed back, c.rest = passed ++ back ∧ t.start = .after file (front ++ passed) ∧
      (t.kind ≠ .eof → ∃ ch more, back = ch :: more ∧ Text.isBlank ch = false) := by
  induction c using induct_steps generalizing front with
  | atEnd c h =>
    rw [tokens_of_atEnd h, List.mem_singleton] at mem
    obtain rfl := mem
    exact ⟨[], [], h, by simpa [eofToken, Token.start] using place, fun notEof => absurd rfl notEof⟩
  | step c h ih =>
    obtain ⟨lexeme, back, hr, ⟨hs, -⟩ | ⟨t', hs, -, span, -, -⟩⟩ := step_cuts h
    all_goals
      have later : (c.position.pastAll lexeme) = .after file (front ++ lexeme) := by
        rw [place, Position.pastAll_after]
      rw [hs] at ih
      have deeper (mem : t ∈ Cursor.tokens ⟨back, c.position.pastAll lexeme⟩) :
          ∃ passed back, c.rest = passed ++ back ∧ t.start = .after file (front ++ passed) ∧
            (t.kind ≠ .eof → ∃ ch more, back = ch :: more ∧ Text.isBlank ch = false) := by
        obtain ⟨passed, back', parts, start, seen⟩ := ih later mem
        have parts : back = passed ++ back' := parts
        exact ⟨lexeme ++ passed, back', by rw [hr, parts, List.append_assoc],
          by rw [start, List.append_assoc], seen⟩
    · rw [tokens_of_gap h hs] at mem
      exact deeper mem
    · rw [tokens_of_token h hs, List.mem_cons] at mem
      obtain rfl | mem := mem
      · refine ⟨[], c.rest, rfl, by simp [Token.start, span, place], fun _ => ?_⟩
        obtain ⟨ch, cs, rest⟩ := List.exists_cons_of_ne_nil h
        refine ⟨ch, cs, rest, Bool.eq_false_iff.mpr fun blank => ?_⟩
        have gap := step_of_blank rest blank
        rw [hs] at gap
        cases gap
      · exact deeper mem

end Cursor

namespace Diagnostic

/-- The last two lines that are printed: the caret stands under `c`, which has `before` before
it. -/
def CaretUnder (printed : String) (before : List Char) (c : Char) : Prop :=
  ∃ lines after dashes,
    Text.split '\n' printed.toList = lines ++ [before ++ c :: after, dashes ++ ['^'], []] ∧
      dashes.length = before.length ∧ '^' ∉ dashes

/-- What an excerpt shows of a line before a place. -/
def shownBefore (number : Nat) (front : List Char) : List Char :=
  (toString number ++ " | ").toList ++ (Text.lastLine front).dropWhile isIndent

theorem line_parts {c : Char} (seen : Text.isBlank c = false) (front back : List Char) :
    ∃ rest, Text.dropLastWhile (· = '\r') (Text.lastLine front ++ Text.firstLine (c :: back)) =
      Text.lastLine front ++ c :: rest ∧ '\n' ∉ rest := by
  have notBreak : c ≠ '\n' := by
    rintro rfl
    exact absurd seen (by decide)
  have notReturn : decide (c = '\r') = false := by
    rw [decide_eq_false_iff_not]
    rintro rfl
    exact absurd seen (by decide)
  have first : Text.firstLine (c :: back) = c :: Text.firstLine back := by
    simp [Text.firstLine, notBreak]
  refine ⟨Text.dropLastWhile (· = '\r') (Text.firstLine back), ?_, fun mem => ?_⟩
  · rw [first, Text.dropLastWhile_append_cons notReturn]
  · exact Text.not_mem_firstLine back (Text.dropLastWhile_subset mem)

variable {d : Diagnostic} {source file : String} {front back : List Char} {c : Char}

theorem isIndent_of_seen (seen : Text.isBlank c = false) : isIndent c = false := by
  by_contra indent
  simp only [Bool.not_eq_false, isIndent, Bool.or_eq_true, beq_iff_eq] at indent
  obtain rfl | rfl := indent <;> exact absurd seen (by decide)

theorem takeWhile_isIndent (seen : Text.isBlank c = false) (before rest : List Char) :
    (before ++ c :: rest).takeWhile isIndent = before.takeWhile isIndent := by
  rw [List.takeWhile_append]
  split
  case isTrue all =>
    rw [(List.takeWhile_prefix isIndent).eq_of_length all]
    simp [isIndent_of_seen seen]
  case isFalse => rfl

theorem dropWhile_isIndent (seen : Text.isBlank c = false) (before rest : List Char) :
    (before ++ c :: rest).dropWhile isIndent = before.dropWhile isIndent ++ c :: rest := by
  rw [List.dropWhile_append]
  split
  case isTrue none => simp [List.isEmpty_iff.mp none, isIndent_of_seen seen]
  case isFalse => rfl

theorem markWidth_eq (seen : Text.isBlank c = false) (before rest : List Char) :
    markWidth (before.length + 1) (before ++ c :: rest) =
      (before.dropWhile isIndent).length + 1 := by
  have parts := congrArg List.length (List.takeWhile_append_dropWhile (p := isIndent) (l := before))
  rw [List.length_append] at parts
  rw [markWidth, takeWhile_isIndent seen]
  omega

theorem split_printed {above line mark : List Char} (hl : '\n' ∉ line) (hm : '\n' ∉ mark) :
    Text.split '\n' (above ++ '\n' :: line ++ '\n' :: mark ++ ['\n']) =
      Text.split '\n' above ++ [line, mark, []] := by
  have parts : above ++ '\n' :: line ++ '\n' :: mark ++ ['\n'] =
      above ++ '\n' :: (line ++ '\n' :: (mark ++ '\n' :: [])) := by simp
  rw [parts, Text.split_append, Text.split_append_cons hl, Text.split_append_cons hm]
  rfl

theorem caretUnder_printed (d : Diagnostic) (seen : Text.isBlank c = false)
    {before rest : List Char}
    (hb : '\n' ∉ before) (hr : '\n' ∉ rest) :
    CaretUnder (d.heading ++ excerpt d.position (before ++ c :: rest) ++ ruler d.position ++ " " ++
        mark ((before.dropWhile isIndent).length + 1) ++ "\n")
      ((toString d.position.line ++ " | ").toList ++ before.dropWhile isIndent) c := by
  have shown : Text.dropLastWhile Text.isBlank ((before ++ c :: rest).dropWhile isIndent) =
      before.dropWhile isIndent ++ c :: Text.dropLastWhile Text.isBlank rest := by
    rw [dropWhile_isIndent seen, Text.dropLastWhile_append_cons seen]
  have notBreak : c ≠ '\n' := by
    rintro rfl
    exact absurd seen (by decide)
  have hn : '\n' ∉ (toString d.position.line).toList := fun mem =>
    absurd (Name.isDigit_of_mem_toString mem) (by decide)
  have hb' : '\n' ∉ before.dropWhile isIndent := fun mem =>
    hb ((List.dropWhile_sublist isIndent).subset mem)
  have hr' : '\n' ∉ Text.dropLastWhile Text.isBlank rest := fun mem =>
    hr (Text.dropLastWhile_subset mem)
  simp only [excerpt, ruler, shown]
  generalize toString d.position.line = number at hn ⊢
  let bar := List.replicate (number.length + 1) ' ' ++ ['|']
  refine ⟨Text.split '\n' (d.heading.toList ++ bar), Text.dropLastWhile Text.isBlank rest,
    bar ++ ' ' :: List.replicate (before.dropWhile isIndent).length '-', ?_, ?_, ?_⟩
  · rw [← split_printed]
    · simp [bar, mark]
    · simp [hn, hb', hr', notBreak.symm]
    · simp [bar]
  · have bar' : " | ".length = 3 := rfl
    simp only [bar, String.toList_append, List.length_append, List.length_cons, List.length_nil,
      List.length_replicate, String.length_toList]
    omega
  · simp [bar]

theorem line_of_seen (place : d.position = .after file front)
    (parts : source.toList = front ++ c :: back) (seen : Text.isBlank c = false) {line : String}
    (found : Text.line? source d.position.line = some line) :
    (∃ rest, line.toList = Text.lastLine front ++ c :: rest ∧ '\n' ∉ rest) ∧
      markWidth d.position.column line.toList =
        ((Text.lastLine front).dropWhile isIndent).length + 1 := by
  obtain ⟨rest, shown, inLine⟩ := line_parts seen front back
  have text : line.toList = Text.lastLine front ++ c :: rest := by
    rw [place, Text.line?_after parts, Option.some.injEq] at found
    rw [← found, String.toList_ofList, shown]
  refine ⟨⟨rest, text, inLine⟩, ?_⟩
  rw [text, place, Position.column_after, markWidth_eq seen]

theorem render_seen (place : d.position = .after file front)
    (parts : source.toList = front ++ c :: back) (seen : Text.isBlank c = false) {line : String}
    (found : Text.line? source d.position.line = some line)
    (fits : markWidth d.position.column line.toList ≤ maxMarkWidth) :
    ∃ printed, d.render source = .ok printed ∧
      CaretUnder printed (shownBefore d.position.line front) c := by
  obtain ⟨⟨rest, text, inLine⟩, width⟩ := line_of_seen place parts seen found
  refine ⟨d.heading ++ excerpt d.position line.toList ++ ruler d.position ++ " " ++
    mark (markWidth d.position.column line.toList) ++ "\n", ?_, ?_⟩
  · simp only [render, found]
    rw [if_pos fits]
  · rw [width, text]
    exact caretUnder_printed d seen (Text.not_mem_lastLine front) inLine

theorem render_wide {line : String} (found : Text.line? source d.position.line = some line)
    (wide : maxMarkWidth < markWidth d.position.column line.toList) :
    ∃ printed, d.render source = .error printed := by
  refine ⟨d.heading ++ excerpt d.position line.toList, ?_⟩
  simp only [render, found]
  rw [if_neg (Nat.not_le.mpr wide)]

end Diagnostic

/-- An error stands at a token of a text. Where a line is printed for it, the caret stands under the
first character of the token, unless the mark would be too wide. -/
structure Diagnostic.Placed (d : Diagnostic) (text : String) (t : Token) : Prop where
  token : t ∈ (Cursor.ofSource text d.position.file).tokens
  start : d.position = t.start
  line : ∃ line, Text.line? text d.position.line = some line ∧ (t.kind ≠ .eof →
    ∃ front c back, text.toList = front ++ c :: back ∧ Text.bytes front = d.position.offset ∧
      d.position.Fits ∧ (markWidth d.position.column line.toList ≤ maxMarkWidth → ∃ printed,
        d.render text = .ok printed ∧ CaretUnder printed (shownBefore d.position.line front) c) ∧
      (maxMarkWidth < markWidth d.position.column line.toList →
        ∃ printed, d.render text = .error printed))

theorem Diagnostic.placed_of_mem_starts {d : Diagnostic} {text file : String}
    (small : text.utf8ByteSize < 2 ^ 32) (mem : d.position ∈ (Cursor.ofSource text file).starts) :
    d.position.file = file ∧ ∃ t, d.Placed text t := by
  obtain ⟨t, mem, start⟩ := List.mem_map.mp mem
  have first : (Cursor.ofSource text file).position = .after file [] := rfl
  obtain ⟨front, back, parts, place, begins⟩ := Cursor.place_of_token first mem
  have parts : text.toList = front ++ back := parts
  rw [start, List.nil_append] at place
  have names : d.position.file = file := congrArg Position.file place
  obtain ⟨line, found⟩ : ∃ line, Text.line? text d.position.line = some line :=
    ⟨_, place ▸ Text.line?_after parts⟩
  refine ⟨names, t, names.symm ▸ mem, start.symm, line, found, fun notEof => ?_⟩
  obtain ⟨c, more, rfl, seen⟩ := begins notEof
  -- The token takes a byte, so that its start is before the last place of the text.
  have short : Text.bytes front + 1 < Position.limit := by
    have size := Text.bytes_toList text
    have one := c.utf8Size_pos
    rw [parts, Text.bytes_append, Text.bytes_cons] at size
    rw [Position.limit]
    omega
  have fits : d.position.Fits := by
    rw [place, ← Position.pastAll_start]
    exact Position.fits_pastAll_start file short
  have offset : Text.bytes front = d.position.offset := by
    rw [Position.offset_eq fits.byte, place]
    rfl
  exact ⟨front, c, more, parts, offset, fits, render_seen place parts seen found, render_wide found⟩

namespace Build

/-- Every error of a build stands at a token of the file that it names, which is the first file or
one that was loaded. -/
theorem errors_placed (config : Config) (files : List (String × String)) (nextId : Nat)
    (registry : List (String × Ty)) (source : String) (path : Path)
    (small : ∀ text ∈ source :: files.map (·.2), text.utf8ByteSize < 2 ^ 32) :
    ∃ r session' log, file source path ⟨config, .ofFiles files, nextId, [], registry⟩ =
        .ok (r, session') ∧
      FileLogs source path ⟨config, .ofFiles files, nextId, [], registry⟩ log r session' ∧
      ∀ ds, r = .error ds → ∀ d ∈ ds, ∃ u ∈ log, d.position.file = u.path.text ∧
        (u.source = source ∧ u.path = path.normalize ∨
          u.path.text ≠ path.normalize.text ∧ (Loader.ofFiles files).read u.path = .ok u.source) ∧
        ∃ t, d.Placed u.source t := by
  let session : Session := ⟨config, .ofFiles files, nextId, [], registry⟩
  obtain ⟨⟨r, inner⟩, checked⟩ := unit_total source path.normalize []
    ((session.begin? path.normalize).getD session)
  obtain ⟨log, logged⟩ := unit_eq_ok_iff_logs.mp checked
  refine ⟨r, _, log, file_eq_ok.mpr ⟨inner, checked, rfl⟩, ⟨inner, logged, rfl⟩, ?_⟩
  rintro ds rfl d hd
  have opened : (session.begin? path.normalize).getD session =
      { session with importing := [path.normalize] } := rfl
  rw [opened] at logged
  have sound : UnitLog.Sound True log Logs := Logs.sound
  obtain ⟨u, hu, start⟩ := (sound logged (fun _ h => h) nofun fun _ _ _ _ => .inl trivial).1 d hd
  have origin : u.source = source ∧ u.path = path.normalize ∨
      u.path.text ≠ path.normalize.text ∧ (Loader.ofFiles files).read u.path = .ok u.source := by
    refine (logged.loaded u hu).imp_right fun loaded => ⟨fun same => ?_, loaded.text⟩
    have same : u.path = path.normalize := congrArg Path.mk same
    have on : [path.normalize].any u.path.same = true := by simp [same, Path.same_self]
    exact absurd (on.symm.trans loaded.new) (by decide)
  have text : u.source ∈ source :: files.map (·.2) := by
    obtain ⟨same, -⟩ | ⟨-, read⟩ := origin
    · rw [same]
      exact List.mem_cons_self
    · exact List.mem_cons_of_mem _ (Loader.mem_texts_of_read read)
  obtain ⟨names, placed⟩ := Diagnostic.placed_of_mem_starts (small _ text) start
  exact ⟨u, hu, names, origin, placed⟩

/-- The errors about a file that is imported: its own one, in a line that is indented, and that of
the import. -/
theorem errors_placed_imported :
    let source := "import u, \"u.cd\""
    let text := "\tx := y"
    ∃ ds session', file source ⟨"main.cd"⟩ (.start .default (.ofFiles [("u.cd", text)])) =
        .ok (.error ds, session') ∧
      ds.length = 2 ∧ ∀ d ∈ ds, ∃ t, d.Placed source t ∨ d.Placed text t := by
  intro source text
  have small : ∀ t ∈ source :: [("u.cd", text)].map (·.2), t.utf8ByteSize < 2 ^ 32 := by decide
  obtain ⟨r, session', log, built, -, placed⟩ :=
    errors_placed .default [("u.cd", text)] 0 [] source ⟨"main.cd"⟩ small
  have count : errorCount (file source ⟨"main.cd"⟩ (.start .default (.ofFiles [("u.cd", text)]))) =
      2 := by decide +kernel
  have start : Session.start .default (.ofFiles [("u.cd", text)]) =
      ⟨.default, .ofFiles [("u.cd", text)], 0, [], []⟩ := rfl
  rw [start, built] at count ⊢
  cases r with
  | ok unit => cases count
  | error ds =>
    have two : ds.length = 2 := count
    refine ⟨ds, session', rfl, two, fun d hd => ?_⟩
    obtain ⟨u, -, -, origin, t, here⟩ := placed ds rfl d hd
    obtain ⟨first, -⟩ | ⟨-, read⟩ := origin
    · exact ⟨t, .inl (first ▸ here)⟩
    · have loaded : u.source = text := List.mem_singleton.mp (Loader.mem_texts_of_read read)
      exact ⟨t, .inr (loaded ▸ here)⟩

end Build

/-- A parenthesis after form feeds, which are blanks but no indentation. -/
def Text.farParen (n : Nat) : String :=
  String.ofList (List.replicate n '\x0c' ++ [')'])

theorem Position.after_formFeeds (file : String) (n : Nat) :
    after file (List.replicate n '\x0c') = ⟨n, 1, n + 1, file⟩ := by
  have size : Char.utf8Size '\x0c' = 1 := rfl
  simp [after, Text.bytes, size, List.count_replicate, Nat.add_comm]

theorem Cursor.tokens_farParen (file : String) {n : Nat} (some : n ≠ 0) :
    (ofSource (Text.farParen n) file).tokens =
      [⟨.closeParen, ")", ⟨n, 1, n + 1, file⟩, ⟨n + 1, 1, n + 2, file⟩⟩,
        ⟨.eof, "EOF", ⟨n + 1, 1, n + 2, file⟩, ⟨n + 1, 1, n + 2, file⟩⟩] := by
  let feeds := List.replicate n '\x0c'
  have rest : (ofSource (Text.farParen n) file).rest = feeds ++ [')'] := String.toList_ofList
  have lexeme : (feeds ++ [')']).takeWhile Text.isBlank = feeds := by
    have blank : ∀ ch ∈ feeds, Text.isBlank ch = true := by
      simp only [feeds, List.mem_replicate]
      rintro _ ⟨-, rfl⟩
      decide
    rw [List.takeWhile_append_of_pos blank, List.takeWhile_cons_of_neg (by decide),
      List.append_nil]
  have first : Pattern.first (feeds ++ [')']) = Option.some (.blank, feeds) := by
    obtain ⟨n, rfl⟩ := Nat.exists_eq_succ_of_ne_zero some
    simp only [Pattern.first, Pattern.table, List.findSome?_cons, Pattern.lexeme, Pattern.run,
      lexeme]
    rfl
  have place : (Position.start file).pastAll feeds = ⟨n, 1, n + 1, file⟩ :=
    (Position.pastAll_after file [] feeds).trans (Position.after_formFeeds file n)
  have step : (ofSource (Text.farParen n) file).step = (none, ⟨[')'], ⟨n, 1, n + 1, file⟩⟩) := by
    rw [Cursor.step, rest, first, ← place]
    simp only [Pattern.token?, pass, rest, List.drop_left]
    rfl
  rw [tokens_of_gap (by simp [rest]) step]
  rfl

theorem Diagnostic.render_farParen {d : Diagnostic} {file : String} {n : Nat}
    (place : d.position = ⟨n, 1, n + 1, file⟩) (far : maxMarkWidth ≤ n) :
    ∃ printed, d.render (Text.farParen n) = .error printed := by
  let feeds := List.replicate n '\x0c'
  have place : d.position = .after file feeds := place.trans (Position.after_formFeeds file n).symm
  have parts : (Text.farParen n).toList = feeds ++ ')' :: [] := String.toList_ofList
  have found : Text.line? (Text.farParen n) d.position.line = some _ :=
    place ▸ Text.line?_after parts
  have shown : (Text.lastLine feeds).dropWhile isIndent = feeds := by
    have noBreak : Text.lastLine feeds = feeds := by simp [Text.lastLine, feeds]
    rw [noBreak]
    cases n with
    | zero => rfl
    | succ n => exact List.dropWhile_cons_of_neg (by decide)
  have width := (line_of_seen place parts (by decide) found).2
  refine render_wide found ?_
  rw [width, shown, List.length_replicate]
  exact Nat.lt_succ_of_le far

namespace Build

theorem file_paren {source : String} {t eof : Token}
    (tokens : (Cursor.ofSource source "main.cd").tokens = [t, eof])
    (ht : t = ⟨.closeParen, ")", ⟨65535, 1, 65535 + 1, "main.cd"⟩, eof.start⟩)
    (he : eof = ⟨.eof, "EOF", ⟨65535 + 1, 1, 65535 + 2, "main.cd"⟩,
      ⟨65535 + 1, 1, 65535 + 2, "main.cd"⟩⟩) :
    ∃ session', file source ⟨"main.cd"⟩ (.start .default (.ofFiles [])) =
      .ok (.error [⟨.parse (.unknownPrefix ")"), t.start⟩], session') := by
  let path : Path := .normalize ⟨"main.cd"⟩
  let session : Session := ⟨.default, .ofFiles [], 0, [path], []⟩
  have normal : path.text = "main.cd" := by decide +kernel
  have errors : (reading source path [] session).errors =
      [⟨.parse (.unknownPrefix ")"), t.start⟩] := by
    rw [reading, Program.read, normal, Reader.ofCursor, tokens, List.getLastD_cons, ht, he]
    decide +kernel
  have loader : session.loader = .ofFiles [] := rfl
  have same : unit source path [] session = unitWith unit source path [] session :=
    unit_eq_unitWith loader
  have unread : (reading source path [] session).errors ≠ [] := by
    rw [errors]
    exact List.cons_ne_nil _ _
  have built : unitWith unit source path [] session = _ :=
    unitWith_eq_ok.mpr (.unreadable unread)
  rw [← same, errors] at built
  exact ⟨_, file_start_eq_ok.mpr ⟨_, built, rfl⟩⟩

/-- Far out in a line an error is reported that cannot be printed with a mark under it. -/
theorem mark_out_of_print :
    ∃ d session' t, file (Text.farParen 65535) ⟨"main.cd"⟩ (.start .default (.ofFiles [])) =
        .ok (.error [d], session') ∧
      t ∈ (Cursor.ofSource (Text.farParen 65535) "main.cd").tokens ∧ t.kind ≠ .eof ∧
      d.position = t.start ∧ ∃ printed, d.render (Text.farParen 65535) = .error printed := by
  have tokens := Cursor.tokens_farParen "main.cd" (n := 65535) (by decide)
  obtain ⟨session', built⟩ := file_paren tokens rfl rfl
  exact ⟨_, session', _, built, tokens ▸ List.mem_cons_self, Kind.noConfusion, rfl,
    Diagnostic.render_farParen rfl (Nat.le_refl _)⟩

end Build

end FrontEnd
