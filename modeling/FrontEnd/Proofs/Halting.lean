import FrontEnd.Proofs.Reading.Own

namespace FrontEnd

open Parse Nested

/-! ### Readers that agree -/

theorem Reader.Sound.any {r : Reader} (h : r.Sound) : (Setting.any r.unit).Sound r :=
  ⟨h, rfl, fun _ _ _ => trivial, fun _ _ _ => trivial, fun _ _ => trivial⟩

namespace Setting

variable {α β γ : Type} {unit : String} {r : Reader} {f : α → α} {p p' : Parse α}
  {Q Q' S S' : α → Reader → Prop}

theorem reader_any (unit : String) (r : Reader) : (any unit).τ.reader r = r := by
  change { r with
    tokens := r.tokens.map id, typeArgs := r.typeArgs.map id, generics := r.generics.map id
    errors := r.errors.map id } = r
  simp only [List.map_id]

theorem Runs.same (h : (any unit).Runs r f p p' Q S) (self : (any unit).Runs r f p p Q' S')
    (sound : (any unit).Sound r) : p'.run r = p.run r := by
  obtain ⟨x, r₁, run, run', _⟩ := h sound
  obtain ⟨y, r₂, again, self, _⟩ := self sound
  rw [reader_any] at run' self
  obtain ⟨rfl, rfl⟩ := Prod.mk.inj (again.symm.trans run)
  rw [run', run, ← self, again]

end Setting

/-- What reads one step of a loop, and takes a token if the loop goes on. -/
def Parse.StepsFrom {α β : Type} (r : Reader) (p : Parse (β ⊕ α)) : Prop :=
  ∃ x r₁, p.run r = (x, r₁) ∧ r.Moves r₁ ∧ r₁.Sound ∧
    ∀ b, x = .ok (.inl b) → r₁.tokens.length < r.tokens.length

theorem Setting.Runs.steps {α β γ : Type} {A : Setting} {r : Reader} {f : β ⊕ α → γ}
    {p : Parse (β ⊕ α)} {p' : Parse γ} {Q S : β ⊕ α → Reader → Prop} (h : A.Runs r f p p' Q S)
    (sound : A.Sound r) (goesOn : ∀ x r₁, Q x r₁ → GoesOn r x r₁) : StepsFrom r p := by
  obtain ⟨x, r₁, run, _, out⟩ := h sound
  refine ⟨x, r₁, run, out.moves, out.sound.toSound, ?_⟩
  rintro b rfl
  exact (goesOn _ _ (out.result _ rfl).1).2 rfl

theorem Setting.Runs.commaSteps {α β : Type} {A : Setting} {r : Reader} {f : α → β} {p : Parse α}
    {p' : Parse β} {S : α → Reader → Prop} (h : A.Runs r f p p' (Advanced r) S) (sound : A.Sound r)
    {closing : Kind} (proper : closing.Proper) (items : List α) :
    StepsFrom r (commaStep closing p items) := by
  have item : A.Runs r f p p' (fun a r₁ => Advanced r a r₁ ∧ (False → r₁.nextId = r.nextId))
      fun _ _ => True → True :=
    h.imp (fun _ _ q => ⟨q, False.elim⟩) fun _ _ _ _ => id
  exact (runs_commaStep proper (I := fun _ _ => True) (fun _ _ _ _ _ => trivial) item).steps sound
    fun _ _ => And.left

namespace Parse

variable {α β : Type} {step : β → Parse (β ⊕ α)} {r : Reader}

/-- A loop is over after as many steps as there are tokens, so a longer bound makes no
difference. -/
theorem loopWithin_enough (h : ∀ b (r : Reader), r.Sound → StepsFrom r (step b))
    {bound bound' : List Token} {b : β} (sound : r.Sound)
    (enough : r.tokens.length ≤ bound.length) (enough' : r.tokens.length ≤ bound'.length) :
    (loopWithin step bound b).run r = (loopWithin step bound' b).run r := by
  induction bound generalizing b r bound' with
  | nil =>
    unfold loopWithin
    obtain ⟨x, r₁, run, _, _, less⟩ := h b r sound
    rw [run_bind, run_bind, run]
    rcases x with d | b' | a
    · rfl
    · have := less b' rfl
      exact absurd this (by simp_all)
    · rfl
  | cons token bound ih =>
    unfold loopWithin
    obtain ⟨x, r₁, run, _, sound₁, less⟩ := h b r sound
    rw [run_bind, run_bind, run]
    rcases x with d | b' | a
    · rfl
    · have := less b' rfl
      simp only [List.length_cons] at enough
      cases bound' with
      | nil => exact absurd this (by simp_all)
      | cons token' bound' =>
        simp only [List.length_cons] at enough'
        exact ih sound₁ (by omega) (by omega)
    · rfl

/-- A loop that takes a token with every step that goes on, and that is what its step says, with no
bound on the number of steps. -/
structure Halts (step : β → Parse (β ⊕ α)) : Prop where
  descends : ∀ b b' (r r' : Reader), r.Sound → (step b).run r = (.ok (.inl b'), r') →
    r'.tokens.length < r.tokens.length
  unfolds : ∀ b (r : Reader), r.Sound →
    (loop step b).run r = (step b >>= Sum.elim (loop step) pure).run r

theorem Halts.of_steps (h : ∀ b (r : Reader), r.Sound → StepsFrom r (step b)) : Halts step where
  descends := by
    intro b b' r r' sound read
    obtain ⟨x, r₁, run, _, _, less⟩ := h b r sound
    obtain ⟨rfl, rfl⟩ := Prod.mk.inj (run.symm.trans read)
    exact less b' rfl
  unfolds := by
    intro b r sound
    have start : (loop step b).run r = (loopWithin step r.tokens b).run r := rfl
    have longer : r.tokens.length ≤ (r.eof :: r.tokens).length := Nat.le_succ _
    rw [start, loopWithin_enough h sound (Nat.le_refl r.tokens.length) longer]
    unfold loopWithin
    obtain ⟨x, r₁, run, _, sound₁, less⟩ := h b r sound
    rw [run_bind, run_bind, run]
    rcases x with d | b' | a
    · rfl
    · exact loopWithin_enough h sound₁ (Nat.le_of_lt (less b' rfl)) (Nat.le_refl _)
    · rfl

end Parse

namespace Nested

structure LoopsHalt (g : Nested) : Prop where
  words : Halts dottedStep
  types : ∀ bound, Halts (commaStep .closeParen (typeWithin bound))
  params : Halts (commaStep .closeParen param)
  recordFields : Halts Setting.recordStep
  typeArgs : Halts Setting.typeArgStep
  arguments : ∀ closing : Kind, closing.Proper → Halts (commaStep closing (g.argument closing))
  structFields : Halts (Expr.ReadsBack.fieldStep g)
  items : Halts (Setting.Agree.itemStep g)
  operators : ∀ power, Halts (g.extendStep power)
  branches : Halts (Setting.Agree.branchStep g)
  statements : ∀ closing, Halts (statementsStep g closing)

theorem steps_statements (n : Nat) (closing : Kind) (stmts : List Stmt) {r : Reader}
    (sound : r.Sound) : StepsFrom r (statementsStep (within n) closing stmts) :=
  (((Setting.any r.unit).agree_self n _).statementsStep (k := 0) (Nat.lt_succ_self r.tokens.length)
    stmts).steps sound.any fun _ _ => id

theorem loopsHalt_within (n : Nat) : (within n).LoopsHalt where
  words := .of_steps fun words r sound =>
    (Setting.runs_dottedStep (w := "") words).steps sound.any fun _ _ => And.left
  types := fun bound => .of_steps fun items r sound =>
    ((Setting.readsType_within (.inl rfl)).imp (fun _ _ q => q.1.1) fun _ _ _ => id).commaSteps
      sound.any (by decide) items
  params := .of_steps fun items r sound =>
    (Setting.runs_param.imp (fun _ _ => And.left) fun _ _ _ => id).commaSteps sound.any (by decide)
      items
  recordFields := .of_steps fun fields r sound =>
    (Setting.runs_recordStep fields).steps sound.any fun _ _ => And.left
  typeArgs := .of_steps fun types r sound =>
    (Setting.runs_typeArgStep types).steps sound.any fun _ _ => And.left
  arguments := fun closing proper => .of_steps fun items r sound =>
    (((Setting.any r.unit).agree_self n _).argument (Nat.lt_succ_self r.tokens.length)
      closing).commaSteps sound.any proper items
  structFields := .of_steps fun fields r sound =>
    (((Setting.any r.unit).agree_self n _).fieldStep (k := 0) (Nat.lt_succ_self r.tokens.length)
      fields).steps sound.any fun _ _ => id
  items := .of_steps fun items r sound =>
    (((Setting.any r.unit).agree_self n _).itemStep_runs (k := 0) (Nat.le_refl r.tokens.length)
      items).steps sound.any fun _ _ => And.left
  operators := fun power => .of_steps fun left r sound =>
    (((Setting.any r.unit).agree_self n _).extendStep (k := 0) (Nat.le_refl r.tokens.length) power
      left).steps sound.any fun _ _ => id
  branches := .of_steps fun more r sound =>
    (((Setting.any r.unit).agree_self n _).branchStep_runs (k := 0) (Nat.le_refl r.tokens.length)
      more).steps sound.any fun _ _ => id
  statements := fun closing => .of_steps fun stmts _ => steps_statements n closing stmts

/-- Readers that read as those without a bound do, where fewer than `n` tokens are left. -/
def MatchesBelow (g : Nested) (n : Nat) : Prop :=
  ∀ r : Reader, r.Sound → r.tokens.length < n →
    (∀ power, (g.expr power).run r = (Parse.expression power).run r) ∧
      g.stmt.run r = Parse.statement.run r

variable {g : Nested} {r : Reader} {n : Nat} {unit : String}

theorem run_nested (r : Reader) : nested.run r = (.ok (within (2 * r.tokens.length + 2)), r) :=
  rfl

theorem run_expression (power : Power) (r : Reader) :
    (Parse.expression power).run r = ((within (2 * r.tokens.length + 2)).expr power).run r := by
  rw [Parse.expression, run_bind, run_nested]

theorem run_statement (r : Reader) :
    Parse.statement.run r = (within (2 * r.tokens.length + 2)).stmt.run r := by
  rw [Parse.statement, run_bind, run_nested]

theorem run_statements (closing : Kind) (r : Reader) :
    (Parse.statements closing).run r =
      ((within (2 * r.tokens.length + 2)).statements closing).run r := by
  rw [Parse.statements, run_bind, run_nested]

theorem MatchesBelow.agree {m : Nat} (h : g.MatchesBelow n) (deep : 2 * n ≤ m) (unit : String) :
    (Setting.any unit).Agree (within m) g n := by
  have enough (r : Reader) (short : r.tokens.length < n) : (Setting.any unit).Agree (within m)
      (within (2 * r.tokens.length + 2)) (r.tokens.length + 1) :=
    Setting.agree_within _ (by omega) (by omega)
  refine ⟨fun power r short sound => ?_, fun r short sound => ?_⟩
  · refine ((enough r short).expr power r (Nat.lt_succ_self _)).of_run rfl ?_ sound
    rw [Setting.reader_any, (h r sound.toSound short).1 power, run_expression]
  · refine ((enough r short).stmt r (Nat.lt_succ_self _)).of_run rfl ?_ sound
    rw [Setting.reader_any, (h r sound.toSound short).2, run_statement]

theorem expr_within_succ (n : Nat) (power : Power) (r : Reader) :
    ((within (n + 1)).expr power).run r = ((within n).expression power).run r :=
  rfl

theorem stmt_within_succ (n : Nat) (r : Reader) :
    (within (n + 1)).stmt.run r = (within n).statement.run r :=
  rfl

end Nested

/-- What is read here is determined by what is read where fewer tokens are left: types, expressions
and statements are what their readers say, with no bound on what nests. -/
structure Reader.ReadsByDescent (r : Reader) : Prop where
  type : ∀ inner : Parse Ty,
    (∀ r' : Reader, r'.Sound → r'.tokens.length < r.tokens.length →
      inner.run r' = Parse.type.run r') →
      (Setting.typeStep inner).run r = Parse.type.run r
  expression : ∀ (g : Nested) (power : Power), g.MatchesBelow r.tokens.length →
    (g.expression power).run r = (Parse.expression power).run r
  statement : ∀ g : Nested, g.MatchesBelow r.tokens.length →
    (g.expr .default).run r = (Parse.expression .default).run r →
      g.statement.run r = Parse.statement.run r
  statements : ∀ (g : Nested) (closing : Kind), g.MatchesBelow (r.tokens.length + 1) →
    (g.statements closing).run r = (Parse.statements closing).run r

namespace Reader

variable {r : Reader}

theorem Sound.run_type (sound : r.Sound) {inner : Parse Ty}
    (h : ∀ r' : Reader, r'.Sound → r'.tokens.length < r.tokens.length →
      inner.run r' = Parse.type.run r') :
    (Setting.typeStep inner).run r = Parse.type.run r := by
  have start : Parse.type.run r = (typeWithin (r.eof :: r.tokens)).run r := by
    have longer : (Setting.any r.unit).ReadsType r (typeWithin r.tokens)
        (typeWithin (r.eof :: r.tokens)) :=
      Setting.readsType_within (.inr ⟨Nat.le_refl _, Nat.le_succ _⟩)
    exact (longer.same (Setting.readsType_within (.inl rfl)) sound.any).symm
  rw [start, Setting.typeWithin_cons]
  have inside (r₁ : Reader) (less : r₁.tokens.length < r.tokens.length) :
      (Setting.any r.unit).ReadsType r₁ (typeWithin r.tokens) inner := by
    intro sound₁
    have enough : (Setting.any r.unit).ReadsType r₁ (typeWithin r.tokens) (typeWithin r₁.tokens) :=
      Setting.readsType_within (.inr ⟨Nat.le_of_lt less, Nat.le_refl _⟩)
    refine enough.of_run rfl ?_ sound₁
    rw [Setting.reader_any, h r₁ sound₁.toSound less]
    rfl
  refine Setting.Runs.same (Setting.runs_typeStep fun r₁ less => (inside r₁ less).imp
    (fun _ _ => And.left) fun _ _ _ => id) (Setting.runs_typeStep fun r₁ less => ?_) sound.any
  exact (Setting.readsType_within (.inl rfl)).imp (fun _ _ => And.left) fun _ _ _ => id

theorem Sound.readsByDescent (sound : r.Sound) : r.ReadsByDescent where
  type := fun _ h => sound.run_type h
  expression := by
    intro g power h
    have deeper : (Setting.any r.unit).Agree (within (2 * r.tokens.length + 1)) g r.tokens.length :=
      h.agree (by omega) _
    have self := (Setting.any r.unit).agree_self (2 * r.tokens.length + 1) r.tokens.length
    rw [run_expression, expr_within_succ]
    exact (deeper.expression (Nat.le_refl _) power).same (self.expression (Nat.le_refl _) power)
      sound.any
  statement := by
    intro g h here
    have deeper : (Setting.any r.unit).Agree (within (2 * r.tokens.length + 1)) g r.tokens.length :=
      h.agree (by omega) _
    have self := (Setting.any r.unit).agree_self (2 * r.tokens.length + 1) (r.tokens.length + 1)
    have levels : (Setting.any r.unit).Agree (within (2 * r.tokens.length))
        (within (2 * r.tokens.length + 1)) r.tokens.length :=
      Setting.agree_within _ (by omega) (by omega)
    -- the expression that the statement begins with is read two levels below it
    have first : (Setting.any r.unit).ReadsExpr r
        ((within (2 * r.tokens.length + 1)).expr .default) (g.expr .default) := by
      refine (levels.expression (Nat.le_refl _) .default).of_run rfl ?_
      rw [Setting.reader_any, here, run_expression, expr_within_succ]
    rw [run_statement, stmt_within_succ]
    exact (deeper.statement (Nat.le_refl _) first).same
      (self.statement (Nat.le_succ _) (self.expr .default r (Nat.lt_succ_self _))) sound.any
  statements := by
    intro g closing h
    have deeper : (Setting.any r.unit).Agree (within (2 * r.tokens.length + 2)) g
        (r.tokens.length + 1) := h.agree (by omega) _
    have self := (Setting.any r.unit).agree_self (2 * r.tokens.length + 2) (r.tokens.length + 1)
    rw [run_statements]
    exact (deeper.statements (Nat.lt_succ_self _)).same (self.statements (Nat.lt_succ_self _))
      sound.any

end Reader

/-! ### Where readers stand -/

/-- A reader somewhere in a text: its tokens are the last ones of the text. -/
structure Reader.StandsIn (source file : String) (r : Reader) : Prop where
  tokens : r.tokens ++ [r.eof] <:+ (Cursor.ofSource source file).tokens
  limit : 1 ≤ r.maxErrors

namespace Reader.StandsIn

variable {source file : String} {r r' : Reader}

theorem ofCursor (source file : String) (o : ReadOptions) :
    (Reader.ofCursor (.ofSource source file) o).StandsIn source file where
  tokens := by
    obtain ⟨ts, eof, tokens, _⟩ := (Cursor.ofSource source file).exists_tokens_eq
    simp [Reader.ofCursor, tokens]
  limit := Nat.le_max_left _ _

theorem of_moves (h : r.StandsIn source file) (moves : r.Moves r') : r'.StandsIn source file where
  tokens := by
    refine List.IsSuffix.trans ?_ h.tokens
    rw [moves.eof]
    obtain ⟨front, split⟩ := moves.suffix
    exact ⟨front, by rw [← List.append_assoc, split]⟩
  limit := moves.limit ▸ h.limit

/-- What the tokens of a text are: the last is the end of the file and no other is, and each begins
after the ones before it. -/
theorem tokens_ordered (h : r.StandsIn source file) :
    r.eof.kind = .eof ∧ (∀ t ∈ r.tokens, t.kind ≠ .eof) ∧
      (r.tokens ++ [r.eof]).Pairwise fun t u => t.start.byte < u.start.byte := by
  have start : (Cursor.ofSource source file).position = .after file ([] ++ []) := rfl
  have tiles := Cursor.tiles_tokens (.ofSource source file) .nil start
  obtain ⟨us, eof, all, last, inner⟩ := tiles.ends
  have ordered := tiles.ordered
  obtain ⟨front, split⟩ := h.tokens
  rw [all, ← List.append_assoc] at split
  obtain ⟨tokens, same⟩ := List.append_inj' split rfl
  obtain rfl := (List.singleton_inj.mp same).symm
  have mem : ∀ t ∈ r.tokens, t ∈ us := fun t ht => tokens ▸ List.mem_append_right _ ht
  refine ⟨by rw [last], fun t ht => (inner t (mem t ht)).1, ?_⟩
  rw [all, ← tokens, List.append_assoc] at ordered
  have ordered := (List.pairwise_append.mp ordered).2.1
  rw [List.pairwise_append] at ordered ⊢
  refine ⟨?_, List.pairwise_singleton _ _, ?_⟩
  · refine ordered.1.imp_of_mem fun ht _ le => ?_
    exact Nat.lt_of_lt_of_le (inner _ (mem _ ht)).2 le
  · intro t ht u hu
    exact Nat.lt_of_lt_of_le (inner _ (mem _ ht)).2 (ordered.2.2 t ht u hu)

theorem sound (h : r.StandsIn source file) : r.Sound where
  eof := h.tokens_ordered.1
  tokens t ht := by
    have notEof := h.tokens_ordered.2.1 t ht
    refine ⟨notEof, fun name => ?_⟩
    obtain ⟨cs, cut⟩ := Cursor.cut_of_mem (h.tokens.mem (List.mem_append_left _ ht)) notEof
    exact Pattern.cut_identifier (name ▸ cut)
  limit := h.limit

theorem byte_lt (h : r.StandsIn source file) (moves : r.Moves r')
    (less : r'.tokens.length < r.tokens.length) :
    r.current.start.byte < r'.current.start.byte := by
  obtain ⟨front, split⟩ := moves.suffix
  have ordered := h.tokens_ordered.2.2
  rw [← split, ← moves.eof] at ordered
  cases front with
  | nil =>
    rw [List.nil_append] at split
    rw [split] at less
    exact absurd less (Nat.lt_irrefl _)
  | cons t front =>
    have first : r.current = t := by rw [Reader.current, ← split]; rfl
    have later : r'.current ∈ r'.tokens ++ [r'.eof] := by
      rw [Reader.current]
      cases r'.tokens <;> simp
    rw [first]
    rw [List.append_assoc, List.cons_append] at ordered
    exact (List.pairwise_cons.mp ordered).1 _ (List.mem_append_right _ later)

theorem byte_le (h : r.StandsIn source file) : r.current.start.byte ≤ source.utf8ByteSize := by
  have ordered := h.tokens_ordered.2.2
  obtain ⟨ts, eof, tokens, place⟩ := Cursor.tokens_end source file
  obtain ⟨front, split⟩ := h.tokens
  rw [tokens, ← List.append_assoc] at split
  obtain ⟨-, same⟩ := List.append_inj' split rfl
  have last : r.eof.start.byte = source.utf8ByteSize := by
    rw [List.singleton_inj.mp same, place]
    exact Text.bytes_toList source
  rw [Reader.current]
  cases left : r.tokens with
  | nil => exact last.le
  | cons t ts =>
    rw [left] at ordered
    have before := (List.pairwise_cons.mp ordered).1 r.eof (by simp)
    exact before.le.trans last.le

theorem offset_lt (h : r.StandsIn source file) (moves : r.Moves r')
    (less : r'.tokens.length < r.tokens.length) (small : source.utf8ByteSize < 2 ^ 32) :
    r.current.start.offset < r'.current.start.offset := by
  have before := h.byte_lt moves less
  have inside := (h.of_moves moves).byte_le
  have limit : Position.limit = 2 ^ 32 := rfl
  rw [Position.offset_eq (by omega), Position.offset_eq (by omega)]
  exact before

end Reader.StandsIn

/-! ### Statements and errors -/

/-- A step of reading statements never fails: it stops, or goes on with fewer tokens. -/
theorem Nested.run_statementsStep_ok (n : Nat) (closing : Kind) (stmts : List Stmt) {r : Reader}
    (sound : r.Sound) :
    ((statementsStep (within n) closing stmts).run r = (.ok (.inr stmts.reverse), r) ∧
        (r.kind = .eof ∨ r.kind = closing ∨ r.isSaturated = true)) ∨
      ∃ stmts' r₁, (statementsStep (within n) closing stmts).run r = (.ok (.inl stmts'), r₁) ∧
        r.Moves r₁ ∧ r₁.Sound ∧ r₁.tokens.length < r.tokens.length := by
  obtain ⟨x, r₁, run, moves, sound₁, less⟩ := steps_statements n closing stmts sound
  have cases := Setting.run_statementsStep (within n) closing stmts r
  by_cases stops : r.kind = .eof ∨ r.kind = closing ∨ r.isSaturated = true
  · exact .inl ⟨cases.trans (if_pos stops), stops⟩
  · rw [if_neg stops] at cases
    obtain ⟨stmts', r₂, again⟩ : ∃ stmts' r₂,
        (statementsStep (within n) closing stmts).run r = (.ok (.inl stmts'), r₂) := by
      rw [cases]
      rcases (within n).stmt.run r with ⟨d | stmt, r₂⟩
      · exact ⟨_, _, rfl⟩
      · exact ⟨_, _, rfl⟩
    obtain ⟨rfl, rfl⟩ := Prod.mk.inj (run.symm.trans again)
    exact .inr ⟨stmts', r₁, run, moves, sound₁, less _ rfl⟩

/-- Reading statements always gives some, and stops at the closing token, at the end of the file or
when there are too many errors. -/
theorem Nested.run_loop_statements (n : Nat) (closing : Kind) (stmts : List Stmt) {r : Reader}
    (sound : r.Sound) :
    ∃ xs r', (loop (statementsStep (within n) closing) stmts).run r = (.ok xs, r') ∧ r.Moves r' ∧
      (r'.kind = .eof ∨ r'.kind = closing ∨ r'.isSaturated = true) := by
  have unfolds := ((loopsHalt_within n).statements closing).unfolds stmts r sound
  rw [run_bind] at unfolds
  obtain ⟨step, stops⟩ | ⟨stmts', r₁, step, moves, sound₁, less⟩ :=
    run_statementsStep_ok n closing stmts sound
  · rw [step] at unfolds
    exact ⟨_, _, unfolds, .refl r, stops⟩
  · rw [step] at unfolds
    obtain ⟨xs, r', read, moves', stops⟩ := run_loop_statements n closing stmts' sound₁
    exact ⟨xs, r', unfolds.trans read, moves.trans moves', stops⟩
termination_by r.tokens.length

theorem Program.run_statements (source file : String) (o : ReadOptions) :
    ∃ xs r, (Parse.statements .eof).run (.ofCursor (.ofSource source file) o) = (.ok xs, r) ∧
      r.StandsIn source file ∧ r.errors.length ≤ max 1 o.maxErrors ∧ (∀ d ∈ r.errors, d.Ordinary) ∧
      (r.tokens ≠ [] → r.errors.length = max 1 o.maxErrors) ∧
      (r.isSaturated = true ∧ r.hasTokens = true ↔ r.tokens ≠ []) := by
  have start := Reader.StandsIn.ofCursor source file o
  have skip := (Reader.ofCursor (.ofSource source file) o).moves_past [.semicolon]
  obtain ⟨xs, r, read, moves, stops⟩ := run_loop_statements
    (2 * (Reader.ofCursor (.ofSource source file) o).tokens.length + 2) .eof []
    (start.of_moves skip).sound
  have moves := skip.trans moves
  have stands := start.of_moves moves
  have limit : r.maxErrors = max 1 o.maxErrors := moves.limit
  have bounded : r.errors.length ≤ max 1 o.maxErrors := by
    have := moves.bounded
    simpa [Reader.ofCursor] using this
  have ordinary : ∀ d ∈ r.errors, d.Ordinary := by
    obtain ⟨ds, errors, ordinary⟩ := moves.errors
    rw [errors]
    simpa [Reader.ofCursor] using ordinary
  have eof : r.kind = .eof ↔ r.tokens = [] := by
    constructor
    · intro eof
      refine Classical.byContradiction fun more => ?_
      obtain ⟨t, ts, tokens⟩ := List.exists_cons_of_ne_nil more
      refine (stands.sound.tokens t (by simp [tokens])).1 ?_
      simpa [Reader.kind, Reader.current, tokens] using eof
    · exact fun empty => stands.sound.kind_eq_eof (by rw [empty]; rfl)
  have saturated (more : r.tokens ≠ []) : r.isSaturated = true := by
    obtain atEnd | atEnd | saturated := stops
    · exact absurd (eof.mp atEnd) more
    · exact absurd (eof.mp atEnd) more
    · exact saturated
  refine ⟨xs, r, (Nested.run_statements .eof _).trans read, stands, bounded, ordinary,
    fun more => ?_, fun h => ?_, fun more => ?_⟩
  · have := saturated more
    rw [Reader.isSaturated, decide_eq_true_eq, limit] at this
    omega
  · intro empty
    have := h.2
    rw [Reader.hasTokens, eof.mpr empty] at this
    cases this
  · refine ⟨saturated more, ?_⟩
    rw [Reader.hasTokens, bne_iff_ne]
    exact fun h => more (eof.mp h)

/-- Reading a unit halts. Every loop that goes on, and all that is nested, is left with fewer
tokens, and so the loop over the statements of a unit or of a block with a token further on in the
text. The errors are no more than the limit, unless reading is given up before the end of the file:
then there is one more, the only one of its kind, which counts the others and says where. -/
theorem Program.read_halts (source file : String) (o : ReadOptions) :
    (∀ n, (within n).LoopsHalt) ∧
    (∀ r : Reader, r.StandsIn source file → r.ReadsByDescent ∧
      ∀ n closing stmts stmts' r',
        (statementsStep (within n) closing stmts).run r = (.ok (.inl stmts'), r') →
          r.current.start.byte < r'.current.start.byte ∧ (source.utf8ByteSize < 2 ^ 32 →
            r.current.start.offset < r'.current.start.offset)) ∧
    ∃ xs r errors, (Parse.statements .eof).run (.ofCursor (.ofSource source file) o) = (.ok xs, r) ∧
      r.StandsIn source file ∧
      (Program.read (.ofSource source file) o).program.statements = xs ∧
      (Program.read (.ofSource source file) o).errors = errors ∧
      errors.length ≤ max 1 o.maxErrors + 1 ∧
      ((∃ d ∈ errors, ¬ d.Ordinary) ↔ r.tokens ≠ []) ∧
      (r.tokens ≠ [] → ∃ es,
        errors = es ++ [⟨.parse (.tooManyErrors (max 1 o.maxErrors)), r.current.start⟩] ∧
          es.length = max 1 o.maxErrors ∧ ∀ d ∈ es, d.Ordinary) := by
  refine ⟨loopsHalt_within, fun r stands => ⟨stands.sound.readsByDescent, ?_⟩, ?_⟩
  · intro n closing stmts stmts' r' read
    obtain ⟨step, _⟩ | ⟨_, r₁, step, moves, _, less⟩ :=
      run_statementsStep_ok n closing stmts stands.sound
    · rw [step] at read
      cases read
    · rw [step] at read
      cases read
      exact ⟨stands.byte_lt moves less, stands.offset_lt moves less⟩
  · obtain ⟨xs, r, read, stands, bounded, ordinary, full, stopped⟩ := run_statements source file o
    rw [Program.read_eq, read]
    have tooMany : ¬ Diagnostic.Ordinary
        ⟨.parse (.tooManyErrors (max 1 o.maxErrors)), r.current.start⟩ := fun h => h _ rfl
    by_cases more : r.tokens = []
    · have closed : r.closed = r := if_neg fun h => stopped.mp h more
      refine ⟨xs, r, r.errors, rfl, stands, rfl, congrArg Reader.errors closed, by omega, ?_, ?_⟩
      · exact ⟨fun ⟨d, mem, h⟩ => absurd (ordinary d mem) h, fun h => absurd more h⟩
      · exact fun h => absurd more h
    · have closed : r.closed.errors = r.errors ++
          [⟨.parse (.tooManyErrors (max 1 o.maxErrors)), r.current.start⟩] := by
        rw [Reader.closed, if_pos (stopped.mpr more), full more]
      refine ⟨xs, r, _, rfl, stands, rfl, closed, ?_, ?_, fun _ => ?_⟩
      · rw [List.length_append, List.length_singleton]
        omega
      · exact ⟨fun _ => more, fun _ => ⟨_, by simp, tooMany⟩⟩
      · exact ⟨r.errors, rfl, full more, ordinary⟩

end FrontEnd
