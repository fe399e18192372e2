import FrontEnd.Proofs.Reading.Exprs

namespace FrontEnd

open Parse Nested

variable {r : Reader} {c c' : Cursor} {e e' : Expr}

theorem Kind.stmtForm?_eq_none {k : Kind} (begins : k.prefixForm?.isSome = true)
    (noFunc : k ≠ .kwFunc) : k.stmtForm? = none := by
  cases k with
  | kwFunc => exact absurd rfl noFunc
  | kwIf | kwFor | kwStruct | kwUnion | kwReturn | kwImport | kwBreak | kwContinue | kwExtern
  | kwType => cases begins
  | _ => rfl

theorem Expr.Printable.statementOf_eq {unit : String} (h : e.Printable unit) (alike : e'.Alike e)
    (token : Token) : statementOf token e' = pure (.expression token e') := by
  obtain ⟨node, ty, token'⟩ := e'
  cases node with
  | binary op left right =>
    by_cases assign : op = .assign
    · subst assign
      have same := congrArg Expr.node alike
      cases h with
      | binary notAssign => exact absurd (Node.binary.inj same).1.symm notAssign
      | member => exact nomatch (Node.binary.inj same).1
      | _ => cases same
    · exact statementOf_binary assign token left right ty token'
  | _ => rfl

namespace Parse

theorem reads_skipSemicolons (h : (r.before c).kind ≠ .semicolon) :
    Reads r skipSemicolons c () c := by
  have kept : (r.before c).tokens.dropWhile (fun t => [Kind.semicolon].contains t.kind) =
      (r.before c).tokens := by
    cases tokens : (r.before c).tokens with
    | nil => rfl
    | cons t ts =>
      have : t.kind ≠ .semicolon := by
        simpa [Reader.kind, Reader.current, tokens] using h
      simp [this]
  have run : skipSemicolons.run (r.before c) = (.ok (), { r.before c with
      tokens := (r.before c).tokens.dropWhile (fun t => [Kind.semicolon].contains t.kind) }) := rfl
  rw [Reads, run, kept]

end Parse

theorem reads_statement {n : Nat} (generics : r.generics = []) (h : e.Printable r.unit)
    (enough : c.size ≤ n) (past : c.Past e.chars c') (ended : c'.rest = []) :
    ∃ token e', Reads r (within (n + 1)).statement c (.expression token e') c' ∧ e'.Alike e ∧
      c'.size < c.size := by
  have kind := r.kind_before_nil ended
  have ends : Pattern.Ends c'.rest := by
    rw [ended]
    exact ⟨nofun, nofun⟩
  obtain ⟨token, c₁, takes, begins, noFunc, next⟩ := h.takes_first (r := r) past ends
  have stops : Stops r .default c' := stops_of_none (by rw [kind]; rfl)
  obtain ⟨shorter, e', read, alike⟩ :=
    (h.readsBack generics).expr enough past ends (by decide) stops
  refine ⟨(r.before c).current, e', reads_get ?_, alike, shorter⟩
  have form : (if (r.before c).kind = .kwFunc ∧ (r.before c).peek.kind = .openParen then none
      else (r.before c).kind.stmtForm?) = none := by
    rw [r.kind_before takes, if_neg (fun h => noFunc h.1), Kind.stmtForm?_eq_none begins noFunc]
  have noDeclaration : ¬ ((r.before c).kind = .identifier ∧ (r.before c).peek.kind = .colon) := by
    rw [r.kind_before takes, r.peek_before takes]
    rintro ⟨word, colon⟩
    refine next word ?_ colon
    rw [kind]
    exact nofun
  dsimp only
  rw [form]
  dsimp only
  rw [if_neg noDeclaration]
  refine reads_current (read.bind (reads_kind ?_))
  rw [kind]
  have expression := h.statementOf_eq alike (r.before c).current
  split
  case h_1 colon => cases colon
  case h_2 =>
    rw [expression]
    exact reads_pure _

theorem reads_attempt {α : Type} {p : Parse α} {a : α} (h : Reads r p c a c') :
    Reads r (attempt p) c (.ok a) c' := by
  have run : (attempt p).run (r.before c) = (.ok (p.run (r.before c)).1, (p.run (r.before c)).2) :=
    rfl
  rw [Reads, run, h]

def statementsStep (g : Nested) (closing : Kind) (stmts : List Stmt) :
    Parse (List Stmt ⊕ List Stmt) := do
  let r ← get
  if r.kind = .eof ∨ r.kind = closing ∨ r.isSaturated then
    return .inr stmts.reverse
  match ← attempt g.stmt with
  | .ok stmt =>
    skipSemicolons
    return .inl (stmt :: stmts)
  | .error d =>
    record d
    if (← current).start.offset = r.current.start.offset then
      let _ ← advance
    skipSemicolons
    return .inl stmts

theorem statements_eq_loop (g : Nested) (closing : Kind) :
    g.statements closing = (do skipSemicolons; loop (statementsStep g closing) []) :=
  rfl

theorem reads_statements {n : Nat} (generics : r.generics = []) (h : e.Printable r.unit)
    (room : r.isSaturated = false) (enough : c.size ≤ n) (past : c.Past e.chars c')
    (ended : c'.rest = []) :
    ∃ token e', Reads r ((within (n + 2)).statements .eof) c [.expression token e'] c' ∧
      e'.Alike e := by
  have last := r.kind_before_nil ended
  obtain ⟨token, e', read, alike, shorter⟩ := reads_statement generics h enough past ended
  obtain ⟨first, c₁, takes, begins, _⟩ :=
    h.takes_first (r := r) past (by rw [ended]; exact ⟨nofun, nofun⟩)
  have kind {k : Kind} (none : k.prefixForm? = none) : (r.before c).kind ≠ k :=
    kind_ne_of_begins takes begins none
  have step :
      Reads r (statementsStep (within (n + 2)) .eof []) c (.inl [.expression token e']) c' := by
    refine reads_get ?_
    have goesOn : ¬ ((r.before c).kind = .eof ∨ (r.before c).kind = .eof ∨
        (r.before c).isSaturated = true) := by
      have room : (r.before c).isSaturated = false := room
      rw [room]
      simpa using kind (k := .eof) rfl
    rw [if_neg goesOn]
    have stmt : Reads r (within (n + 2)).stmt c (.expression token e') c' := read
    refine (reads_attempt stmt).bind ?_
    exact (reads_skipSemicolons (by rw [last]; exact nofun)).bind (reads_pure _)
  have stop : Reads r (statementsStep (within (n + 2)) .eof [.expression token e']) c'
      (.inr [.expression token e']) c' := by
    refine reads_get ?_
    rw [if_pos (.inl last)]
    exact reads_pure _
  refine ⟨token, e', ?_, alike⟩
  rw [statements_eq_loop]
  exact (reads_skipSemicolons (kind rfl)).bind ((Steps.head step shorter (.refl _ _)).loop stop)

theorem reads_program {c : Cursor} (generics : r.generics = []) (h : e.Printable r.unit)
    (room : r.isSaturated = false) (past : c.Past e.chars c') (ended : c'.rest = []) :
    ∃ token e', Reads r program c ⟨r.unit, [.expression token e']⟩ c' ∧ e'.Alike e := by
  have enough : c.size ≤ 2 * (r.before c).tokens.length := by
    obtain ⟨first, c₁, takes, _⟩ :=
      h.takes_first (r := r) past (by rw [ended]; exact ⟨nofun, nofun⟩)
    have := takes.size_eq
    have := c₁.size_pos
    have := r.length_before c
    omega
  obtain ⟨token, e', read, alike⟩ := reads_statements generics h room enough past ended
  have statements : Reads r (statements .eof) c [.expression token e'] c' :=
    Reads.bind (reads_get (reads_pure _)) read
  have finished : ¬ ((r.before c').isSaturated = true ∧ (r.before c').hasTokens = true) := by
    rw [Reader.hasTokens, r.kind_before_nil ended]
    simp
  have kept : Reads r (modify fun r =>
      if r.isSaturated ∧ r.hasTokens then
        { r with errors :=
            r.errors ++ [⟨.parse (.tooManyErrors r.errors.length), r.current.start⟩] }
      else r) c' () c' :=
    congrArg (Prod.mk (Except.ok ())) (if_neg finished)
  exact ⟨token, e', statements.bind (kept.bind (reads_get (reads_pure _))), alike⟩

/-- Reading the text of an expression gives that expression and nothing else: no error, no record,
and one statement, the same tree up to tokens and annotated types. -/
theorem Program.read_text {unit : String} (h : e.Printable unit) (file : String) (o : ReadOptions)
    (named : o.unit = unit) :
    ∃ token e', Program.read (.ofSource e.text file) o =
        ⟨⟨unit, [.expression token e']⟩, [], o.nextId⟩ ∧ e'.Alike e := by
  subst named
  obtain ⟨ts, eof, tokens, _⟩ := (Cursor.ofSource e.text file).exists_tokens_eq
  have here := (Reader.ofCursor (.ofSource e.text file) o).before_eq tokens
  have start : Reader.ofCursor (.ofSource e.text file) o =
      (Reader.ofCursor (.ofSource e.text file) o).before (.ofSource e.text file) := by
    rw [here]
    simp [Reader.ofCursor, tokens]
  have past : (Cursor.ofSource e.text file).Past e.chars _ := Cursor.past_ofSource e.text file
  have room : (Reader.ofCursor (.ofSource e.text file) o).isSaturated = false := by
    simp [Reader.isSaturated, Reader.ofCursor]
  obtain ⟨token, e', read, alike⟩ := reads_program rfl h room past rfl
  refine ⟨token, e', ?_, alike⟩
  rw [Program.read, start, read]
  rfl

/-- A difference of a member and a negated literal, which is printed without blanks between the
operators. -/
def Expr.differenceSample (token : Token) : Expr :=
  ⟨.binary .subtract
    ⟨.binary .dot ⟨.ident "m-0", .todo, token⟩ ⟨.ident "x-0", .todo, token⟩, .todo, token⟩
    ⟨.unary .negate
      ⟨.structLit "S-0" none [⟨"n", ⟨.string "\"\n", .todo, token⟩⟩], .todo, token⟩, .todo, token⟩,
    .todo, token⟩

theorem Program.read_text_difference :
    (Expr.differenceSample ⟨.eof, "", ⟨.nowhere, .nowhere⟩⟩).text =
        "((m.x)--@S\x7b\nn: \"\\\"\\n\",\n\x7d)" ∧
      ∃ token e', Program.read
          (.ofSource (Expr.differenceSample ⟨.eof, "", ⟨.nowhere, .nowhere⟩⟩).text "f")
            ⟨"0", [], 7, 1⟩ =
          ⟨⟨"0", [.expression token e']⟩, [], 7⟩ ∧
        e'.Alike (.differenceSample ⟨.eof, "", ⟨.nowhere, .nowhere⟩⟩) := by
  have word (w : String) (h : Name.IsWord w) {ty : Ty} {token : Token} :
      Expr.Printable "0" ⟨.ident (Name.qualify w "0"), ty, token⟩ := .ident h
  refine ⟨by decide +kernel, Program.read_text ?_ "f" ⟨"0", [], 7, 1⟩ rfl⟩
  refine .binary (by decide) (by decide) (.member (word "m" (by decide +kernel)) rfl (w := "x")
    (by decide +kernel)) (.unary (by decide) ?_)
  exact @Expr.Legible.structLit "0" False "S" none _ _ _ (by decide +kernel) nofun
    (by simp; decide +kernel) (by simpa using .string)

end FrontEnd
