import FrontEnd.Reading.Stmts
import Mathlib.Data.List.TakeWhile

namespace FrontEnd

namespace Parse

variable {α β : Type} {r : Reader}

theorem run_bind (p : Parse α) (f : α → Parse β) (r : Reader) : (p >>= f).run r = match p.run r with
      | (.ok a, r) => (f a).run r
      | (.error d, r) => (.error d, r) := by
  simp only [bind, ExceptT.bind, ExceptT.mk, ExceptT.run, StateT.bind]
  rcases (p r) with ⟨a | d, r'⟩ <;> rfl

theorem statementOf_binary {op : InfixOp} (notAssign : op ≠ .assign) (token : Token)
    (left right : Expr) (ty : Ty) (token' : Token) :
    statementOf token ⟨.binary op left right, ty, token'⟩ =
      pure (.expression token ⟨.binary op left right, ty, token'⟩) := by
  cases op with
  | assign => exact absurd rfl notAssign
  | _ => rfl

def noted (r : Reader) (d : Diagnostic) : Reader :=
  if r.isSaturated then r else { r with errors := r.errors ++ [d] }

theorem noted_maxErrors (r : Reader) (d : Diagnostic) : (noted r d).maxErrors = r.maxErrors := by
  unfold noted
  split <;> rfl

theorem noted_tokens (r : Reader) (d : Diagnostic) : (noted r d).tokens = r.tokens := by
  unfold noted
  split <;> rfl

theorem noted_nextId (r : Reader) (d : Diagnostic) : (noted r d).nextId = r.nextId := by
  unfold noted
  split <;> rfl

theorem noted_errors {d : Diagnostic} (h : 1 ≤ r.maxErrors) : (noted r d).errors ≠ [] := by
  unfold noted
  split
  case isTrue saturated =>
    intro none
    simp [Reader.isSaturated, none] at saturated
    omega
  case isFalse => simp

theorem errors_of_noted {d : Diagnostic} (h : (noted r d).errors = []) : r.errors = [] := by
  unfold noted at h
  split at h
  · exact h
  · exact absurd h (by simp)

end Parse

/-- Any error but the one that says that there are too many. -/
def Diagnostic.Ordinary (d : Diagnostic) : Prop :=
  ∀ count, d.cause ≠ .parse (.tooManyErrors count)

def Kind.Proper (k : Kind) : Prop :=
  k ≠ .eof ∧ k ≠ .illegal

instance (k : Kind) : Decidable k.Proper :=
  inferInstanceAs (Decidable (_ ∧ _))

namespace Reader

variable {r r₁ r₂ : Reader}

/-- What reading does to a reader even if it fails: tokens are taken from the front, ids are handed
out upwards, and errors are added as long as there are fewer than the limit. -/
structure Moves (r r' : Reader) : Prop where
  suffix : r'.tokens <:+ r.tokens
  eof : r'.eof = r.eof
  unit : r'.unit = r.unit
  nextId : r.nextId ≤ r'.nextId
  limit : r'.maxErrors = r.maxErrors
  errors : ∃ ds, r'.errors = r.errors ++ ds ∧ ∀ d ∈ ds, d.Ordinary
  bounded : r'.errors.length ≤ max r.errors.length r.maxErrors

theorem moves_of_suffix {ts : List Token} (h : ts <:+ r.tokens) :
    r.Moves { r with tokens := ts } where
  suffix := h
  eof := rfl
  unit := rfl
  nextId := Nat.le_refl _
  limit := rfl
  errors := ⟨[], (List.append_nil _).symm, nofun⟩
  bounded := Nat.le_max_left _ _

theorem Moves.refl (r : Reader) : r.Moves r :=
  moves_of_suffix List.suffix_rfl

theorem Moves.trans (h : r.Moves r₁) (h' : r₁.Moves r₂) : r.Moves r₂ where
  suffix := h'.suffix.trans h.suffix
  eof := h'.eof.trans h.eof
  unit := h'.unit.trans h.unit
  nextId := Nat.le_trans h.nextId h'.nextId
  limit := h'.limit.trans h.limit
  errors := by
    obtain ⟨ds, first, ordinary⟩ := h.errors
    obtain ⟨ds', second, ordinary'⟩ := h'.errors
    refine ⟨ds ++ ds', by rw [second, first, List.append_assoc], ?_⟩
    exact List.forall_mem_append.mpr ⟨ordinary, ordinary'⟩
  bounded := by
    have first := h.bounded
    have second := h'.bounded
    rw [h.limit] at second
    omega

theorem Moves.errors_nil (h : r.Moves r₁) (none : r₁.errors = []) : r.errors = [] := by
  obtain ⟨ds, errors, _⟩ := h.errors
  exact (List.append_eq_nil_iff.mp (errors.symm.trans none)).1

theorem Moves.length_le (h : r.Moves r₁) : r₁.tokens.length ≤ r.tokens.length :=
  h.suffix.length_le

/-- No token that was taken on the way from `r` to `r'` is illegal, unless there is an error. -/
def Clear (r r' : Reader) : Prop :=
  r'.errors = [] → ∀ ts, r.tokens = ts ++ r'.tokens → ∀ t ∈ ts, t.kind ≠ .illegal

theorem clear_of_eq (h : r₁.tokens = r.tokens) : r.Clear r₁ := by
  intro _ ts split
  rw [h] at split
  have none : ts = [] := List.append_left_eq_self.mp split.symm
  simp [none]

theorem Clear.trans (h : r.Clear r₁) (h' : r₁.Clear r₂) (moves : r.Moves r₁)
    (moves' : r₁.Moves r₂) : r.Clear r₂ := by
  intro none ts split
  obtain ⟨front, hf⟩ := moves.suffix
  obtain ⟨back, hb⟩ := moves'.suffix
  have parts : ts = front ++ back := by
    rw [← hf, ← hb, ← List.append_assoc] at split
    exact (List.append_cancel_right split).symm
  rw [parts, List.forall_mem_append]
  exact ⟨h (moves'.errors_nil none) front hf.symm, h' none back hb.symm⟩

def next (r : Reader) : Reader :=
  { r with tokens := r.tokens.tail }

theorem moves_next (r : Reader) : r.Moves r.next :=
  moves_of_suffix (List.tail_suffix _)

theorem length_next (r : Reader) : r.next.tokens.length = r.tokens.length - 1 :=
  List.length_tail

theorem clear_next (h : r.kind ≠ .illegal) : r.Clear r.next := by
  intro _ ts split t mem
  cases tokens : r.tokens with
  | nil =>
    rw [next, tokens] at split
    rw [List.append_eq_nil_iff.mp split.symm |>.1] at mem
    cases mem
  | cons u us =>
    have one : [u] = ts := by
      rw [next, tokens] at split
      exact List.append_cancel_right (show [u] ++ us = ts ++ us from split)
    rw [← one, List.mem_singleton] at mem
    rw [Reader.kind, current, tokens] at h
    exact mem ▸ h

def past (r : Reader) (ks : List Kind) : Reader :=
  { r with tokens := r.tokens.dropWhile fun t => ks.contains t.kind }

theorem moves_past (r : Reader) (ks : List Kind) : r.Moves (r.past ks) :=
  moves_of_suffix (List.dropWhile_suffix _)

theorem clear_past (r : Reader) {ks : List Kind} (legal : .illegal ∉ ks) : r.Clear (r.past ks) := by
  intro _ ts split t mem illegal
  have front : ts = r.tokens.takeWhile fun t => ks.contains t.kind :=
    List.append_cancel_right (split.symm.trans List.takeWhile_append_dropWhile.symm)
  rw [front] at mem
  have skipped := List.mem_takeWhile_imp mem
  rw [illegal] at skipped
  exact legal (by simpa using skipped)

/-- The reader after a statement that has failed: its first token is passed over, if no other has
been. -/
def pastFailure (r : Reader) (first : Token) : Reader :=
  if r.current.start.offset = first.start.offset then r.next else r

theorem moves_pastFailure (r : Reader) (first : Token) : r.Moves (r.pastFailure first) := by
  unfold pastFailure
  split
  · exact r.moves_next
  · exact .refl r

theorem moves_noted {d : Diagnostic} (h : d.Ordinary) (r : Reader) : r.Moves (Parse.noted r d) := by
  unfold Parse.noted
  split
  case isTrue => exact .refl r
  case isFalse room =>
    refine ⟨List.suffix_rfl, rfl, rfl, Nat.le_refl _, rfl, ⟨[d], rfl, by simpa using h⟩, ?_⟩
    simp only [isSaturated, decide_eq_true_eq] at room
    simp only [List.length_append, List.length_singleton]
    omega

end Reader

end FrontEnd
