import FrontEnd.Proofs.Reading.Progress

/-!
What reading a unit gives. It is a tree of statements, and natural in the types that are given, in
the ids that are handed out and in the places of the tokens: a unit that is read with other types,
under another id or from tokens that stand elsewhere is the same unit with the types, the names and
the tokens in it translated, and has the same errors at the translated places.
-/

namespace FrontEnd

theorem Cursor.kind_ne_eof {c : Cursor} {t : Token} (h : t ∈ c.tokens.dropLast) :
    t.kind ≠ .eof := by
  induction c using induct_steps with
  | atEnd c stop =>
    rw [tokens_of_atEnd stop] at h
    cases h
  | step c more ih =>
    obtain ⟨ts, eof, tokens, _⟩ := c.step.2.exists_tokens_eq
    obtain ⟨lexeme, back, _, ⟨step, _⟩ | ⟨u, step, _, _, notEof, _⟩⟩ := step_cuts more
    · rw [tokens_of_gap more step] at h
      rw [step] at ih
      exact ih h
    · rw [tokens_of_token more step] at h
      rw [step] at ih tokens
      rw [tokens] at ih h
      rw [← List.cons_append, List.dropLast_concat] at h
      obtain rfl | h := List.mem_cons.mp h
      · exact notEof
      · exact ih (by rwa [List.dropLast_concat])

namespace Setting

open Parse

variable {A : Setting}

theorem sound_ofCursor (c : Cursor) {o : ReadOptions} (unit : o.unit = A.unit)
    (given : ∀ t ∈ o.typeArgs, A.Given t)
    (inside : ∀ t ∈ c.tokens.dropLast, A.τ.Inside t.start := by exact fun _ _ => trivial) :
    A.Sound (.ofCursor c o) where
  eof := by
    obtain ⟨ts, eof, tokens, last⟩ := c.exists_tokens_eq
    simp [Reader.ofCursor, tokens, last]
  tokens t ht := by
    have notEof : t.kind ≠ .eof := Cursor.kind_ne_eof ht
    refine ⟨notEof, fun name => ?_⟩
    obtain ⟨cs, cut⟩ := Cursor.cut_of_mem (List.dropLast_subset _ ht) notEof
    exact Pattern.cut_identifier (name ▸ cut)
  limit := Nat.le_max_left _ _
  unit := unit
  typeArgs := fun _ => given
  generics := fun _ => nofun
  inside := inside

theorem runs_statements (r : Reader) (closing : Kind) :
    A.ReadsBody r (Parse.statements closing) (Parse.statements closing) := by
  refine runs_get ?_
  have left : (A.τ.reader r).tokens.length = r.tokens.length := List.length_map A.τ.token
  rw [left]
  exact (A.agree_self _ _).statements (Nat.lt_succ_self _)

end Setting

/-- The reader after all statements. When the errors have reached their limit before the end, that
is the last error. -/
def Reader.closed (r : Reader) : Reader :=
  if r.isSaturated ∧ r.hasTokens then
    { r with errors := r.errors ++ [⟨.parse (.tooManyErrors r.errors.length), r.current.start⟩] }
  else r

theorem Reader.closed_unit (r : Reader) : r.closed.unit = r.unit := by
  unfold closed
  split <;> rfl

theorem Reader.closed_nextId (r : Reader) : r.closed.nextId = r.nextId := by
  unfold closed
  split <;> rfl

theorem Reader.errors_of_closed {r : Reader} (h : r.closed.errors = []) : r.errors = [] := by
  unfold closed at h
  split at h
  · exact (List.append_eq_nil_iff.mp h).1
  · exact h

def ReadResult.of (unit : String) : Except Diagnostic (List Stmt) × Reader → ReadResult
  | (.ok xs, r) => ⟨⟨r.unit, xs⟩, r.closed.errors, r.nextId⟩
  | (.error d, r) => ⟨⟨unit, []⟩, r.errors ++ [d], r.nextId⟩

theorem Program.read_eq (c : Cursor) (o : ReadOptions) :
    Program.read c o = .of o.unit ((Parse.statements .eof).run (.ofCursor c o)) := by
  rw [Program.read, Parse.program, Parse.run_bind]
  rcases (Parse.statements .eof).run (.ofCursor c o) with ⟨d | xs, r⟩
  · rfl
  · change ReadResult.mk ⟨r.closed.unit, xs⟩ r.closed.errors r.closed.nextId = _
    rw [r.closed_unit, r.closed_nextId, ReadResult.of]

theorem Setting.tree_read (A : Setting) (c : Cursor) {o : ReadOptions} (unit : o.unit = A.unit)
    (given : ∀ t ∈ o.typeArgs, A.Given t)
    (inside : ∀ t ∈ c.tokens.dropLast, A.τ.Inside t.start := by exact fun _ _ => trivial) :
    (Program.read c o).program.id = o.unit ∧
      (A.lossy ∨ (Program.read c o).errors = [] →
        A.Tree o.nextId (Program.read c o).nextId
          (.many ((Program.read c o).program.statements.map .stmt))) := by
  obtain ⟨x, r, run, _, out⟩ := A.runs_statements _ .eof (A.sound_ofCursor c unit given inside)
  rw [Program.read_eq, run]
  cases x with
  | ok xs =>
    obtain ⟨_, _, tree⟩ := out.result xs rfl
    exact ⟨out.moves.unit, fun speaks => tree (speaks.imp_right r.errors_of_closed)⟩
  | error d =>
    refine ⟨rfl, fun speaks => ?_⟩
    have lossy : A.lossy := speaks.resolve_right (by simp [ReadResult.of])
    exact .lost lossy out.moves.nextId .nil

namespace Translation

def options (τ : Translation) (o : ReadOptions) : ReadOptions :=
  ⟨τ.unit o.unit, o.typeArgs.map τ.type, τ.id o.nextId, o.maxErrors⟩

variable {τ : Translation}

theorem reader_closed (τ : Translation) (r : Reader) : (τ.reader r).closed = τ.reader r.closed := by
  rw [Reader.closed, Reader.closed, τ.reader_isSaturated, τ.reader_hasTokens, τ.reader_current,
    τ.start_token]
  split
  · simp [reader, diagnostic]
  · rfl

theorem read_tokens (τ : Translation) {c c' : Cursor} {o : ReadOptions} (unit : τ.Covers o.unit)
    (moved : c'.tokens = c.tokens.map τ.token)
    (inside : ∀ t ∈ c.tokens.dropLast, τ.Inside t.start) :
    Program.read c' (τ.options o) =
      ⟨τ.program (Program.read c o).program, (Program.read c o).errors.map τ.diagnostic,
        τ.id (Program.read c o).nextId⟩ := by
  have start : Reader.ofCursor c' (τ.options o) = τ.reader (Reader.ofCursor c o) := by
    obtain ⟨ts, eof, tokens, _⟩ := c.exists_tokens_eq
    simp [Reader.ofCursor, tokens, moved, options, reader]
  let A : Setting := ⟨τ, o.unit, unit, fun _ => True, True, fun _ => trivial⟩
  obtain ⟨x, r, run, run', _⟩ :=
    A.runs_statements _ .eof (A.sound_ofCursor c rfl (fun _ _ => trivial) inside)
  rw [Program.read_eq, Program.read_eq, start, run]
  refine (congrArg _ run').trans ?_
  cases x with
  | ok xs => exact congrArg (ReadResult.mk _ · _) (congrArg Reader.errors (τ.reader_closed r))
  | error d => simp [A, outcome, ReadResult.of, program, reader, options, Relabelling.stmts]

theorem read_options (τ : Translation) (c : Cursor) {o : ReadOptions} (unit : τ.Covers o.unit)
    (still : ∀ t ∈ c.tokens, τ.token t = t) (inside : ∀ t ∈ c.tokens.dropLast, τ.Inside t.start) :
    Program.read c (τ.options o) =
      ⟨τ.program (Program.read c o).program, (Program.read c o).errors.map τ.diagnostic,
        τ.id (Program.read c o).nextId⟩ := by
  refine τ.read_tokens unit ?_ inside
  conv_lhs => rw [← List.map_id c.tokens]
  exact List.map_congr_left fun t ht => (still t ht).symm

/-- A translation under which all tokens stay in place. -/
structure Still (τ : Translation) : Prop where
  span : ∀ s, τ.span s = s := by exact fun _ => rfl
  place : ∀ p, τ.place p = p := by exact fun _ => rfl
  inside : ∀ p, τ.Inside p := by exact fun _ => trivial

theorem Still.read_options (still : τ.Still) (c : Cursor) {o : ReadOptions}
    (unit : τ.Covers o.unit) :
    Program.read c (τ.options o) =
      ⟨τ.program (Program.read c o).program, (Program.read c o).errors,
        τ.id (Program.read c o).nextId⟩ := by
  have tokens (t : Token) : τ.token t = t := by
    rw [token, still.span]
  have errors : τ.diagnostic = fun d => d := by
    funext d
    rw [diagnostic, still.place]
  rw [τ.read_options c unit (fun t _ => tokens t) fun t _ => still.inside t.start, errors,
    List.map_id']

end Translation

end FrontEnd
