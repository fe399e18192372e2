import FrontEnd.Proofs.Mistakes.Edit
import FrontEnd.Proofs.Reading.Moves
import Mathlib.Algebra.Ring.Nat

/-!
Reading tokens of which one is another name. The readers go the same way over both lists of tokens,
and give the same tree with the identifier replaced, unless the name was taken for something that
is not looked up. That is settled by counting: an identifier that is used up leaves fewer uses of
its token, in what has been read and in the tokens that are left.
-/

namespace FrontEnd

structure Replacement where
  old : Token
  unit : String
  /-- The token that stands in the place of a token. -/
  move : Token → Token
  isIdentifier : old.kind = .identifier
  kind : ∀ t, (move t).kind = t.kind
  line : ∀ t, (move t).line = t.line
  value : ∀ t, t ≠ old → (move t).value = t.value

namespace Replacement

def name (c : Replacement) : String :=
  Name.qualify (c.move c.old).value c.unit

def edit (c : Replacement) : Edit :=
  ⟨c.move, fun t => if t = c.old then some c.name else none⟩

def reader (c : Replacement) (r : Reader) : Reader :=
  { r with tokens := r.tokens.map c.move, eof := c.move r.eof }

variable (c : Replacement)

@[simp]
theorem edit_token (t : Token) : c.edit.token t = c.move t :=
  rfl

theorem edit_name? (t : Token) : c.edit.name? t = if t = c.old then some c.name else none :=
  rfl

theorem reader_current (r : Reader) : (c.reader r).current = c.move r.current := by
  obtain ⟨tokens, _⟩ := r
  cases tokens <;> rfl

theorem reader_peek (r : Reader) : (c.reader r).peek = c.move r.peek := by
  obtain ⟨tokens, _⟩ := r
  cases tokens with
  | nil => rfl
  | cons _ tokens => cases tokens <;> rfl

@[simp]
theorem reader_kind (r : Reader) : (c.reader r).kind = r.kind := by
  rw [Reader.kind, reader_current, c.kind]
  rfl

@[simp]
theorem reader_peek_kind (r : Reader) : (c.reader r).peek.kind = r.peek.kind := by
  rw [reader_peek, c.kind]

@[simp]
theorem reader_qualify (r : Reader) : (c.reader r).qualify = r.qualify :=
  rfl

end Replacement

/-- What is read: how an edit changes it, and how often the identifier with a token is looked up in
it. A token may still become an identifier. -/
class Editable (α : Type) where
  edit : Edit → α → α
  uses : Token → α → Nat

namespace Editable

variable {α β : Type}

@[reducible]
def plain (α : Type) : Editable α :=
  ⟨fun _ a => a, fun _ _ => 0⟩

instance : Editable Unit := plain _
instance : Editable String := plain _
instance : Editable Nat := plain _
instance : Editable Kind := plain _
instance : Editable Ty := plain _
instance : Editable Field := plain _

instance : Editable Token :=
  ⟨fun d t => d.token t, fun old t => if t = old then 1 else 0⟩

instance : Editable Expr :=
  ⟨fun d e => d.expr e, fun old e => e.lookups.count old⟩

instance : Editable FieldInit :=
  ⟨fun d f => ⟨f.name, d.expr f.value⟩, fun old f => f.value.lookups.count old⟩

instance : Editable Stmt :=
  ⟨fun d x => d.stmt x, fun old x => x.lookups.count old⟩

instance : Editable Branch :=
  ⟨fun d b => ⟨d.expr b.condition, d.stmts b.body⟩,
    fun old b => b.condition.lookups.count old + (Stmt.blockLookups b.body).count old⟩

instance [Editable α] : Editable (List α) :=
  ⟨fun d xs => xs.map (edit d), fun old xs => (xs.map (uses old)).sum⟩

instance [Editable α] : Editable (Option α) :=
  ⟨fun d x => x.map (edit d), fun old x => x.elim 0 (uses old)⟩

instance [Editable α] [Editable β] : Editable (α × β) :=
  ⟨fun d x => (edit d x.1, edit d x.2), fun old x => uses old x.1 + uses old x.2⟩

instance [Editable α] [Editable β] : Editable (α ⊕ β) :=
  ⟨fun d => Sum.map (edit d) (edit d), fun old => Sum.elim (uses old) (uses old)⟩

class Plain (α : Type) [Editable α] : Prop where
  edit_eq : ∀ (d : Edit) (a : α), edit d a = a
  uses_eq : ∀ (old : Token) (a : α), uses old a = 0

attribute [simp] Plain.edit_eq Plain.uses_eq

instance : Plain Unit := ⟨fun _ _ => rfl, fun _ _ => rfl⟩
instance : Plain String := ⟨fun _ _ => rfl, fun _ _ => rfl⟩
instance : Plain Nat := ⟨fun _ _ => rfl, fun _ _ => rfl⟩
instance : Plain Kind := ⟨fun _ _ => rfl, fun _ _ => rfl⟩
instance : Plain Ty := ⟨fun _ _ => rfl, fun _ _ => rfl⟩
instance : Plain Field := ⟨fun _ _ => rfl, fun _ _ => rfl⟩

variable [Editable α] [Editable β] (d : Edit) (old : Token)

@[simp]
theorem edit_nil : edit d ([] : List α) = [] :=
  rfl

@[simp]
theorem edit_cons (a : α) (as : List α) : edit d (a :: as) = edit d a :: edit d as :=
  rfl

@[simp]
theorem edit_reverse (as : List α) : edit d as.reverse = (edit d as).reverse :=
  List.map_reverse

@[simp]
theorem uses_nil : uses old ([] : List α) = 0 :=
  rfl

@[simp]
theorem uses_cons (a : α) (as : List α) : uses old (a :: as) = uses old a + uses old as := by
  simp [uses]

@[simp]
theorem uses_reverse (as : List α) : uses old as.reverse = uses old as := by
  simp [uses]

@[simp]
theorem edit_pair (a : α) (b : β) : edit d (a, b) = (edit d a, edit d b) :=
  rfl

@[simp]
theorem uses_pair (a : α) (b : β) : uses old (a, b) = uses old a + uses old b :=
  rfl

@[simp]
theorem edit_inl (a : α) : edit d (.inl a : α ⊕ β) = .inl (edit d a) :=
  rfl

@[simp]
theorem edit_inr (b : β) : edit d (.inr b : α ⊕ β) = .inr (edit d b) :=
  rfl

@[simp]
theorem uses_inl (a : α) : uses old (.inl a : α ⊕ β) = uses old a :=
  rfl

@[simp]
theorem uses_inr (b : β) : uses old (.inr b : α ⊕ β) = uses old b :=
  rfl

@[simp]
theorem edit_none : edit d (none : Option α) = none :=
  rfl

@[simp]
theorem edit_some (a : α) : edit d (some a) = some (edit d a) :=
  rfl

@[simp]
theorem uses_none : uses old (none : Option α) = 0 :=
  rfl

@[simp]
theorem uses_some (a : α) : uses old (some a) = uses old a :=
  rfl

instance [Plain α] : Plain (List α) where
  edit_eq := fun d as => by
    induction as with
    | nil => rfl
    | cons a as ih => simp [ih]
  uses_eq := fun old as => by
    induction as with
    | nil => rfl
    | cons a as ih => simp [ih]

instance [Plain α] : Plain (Option α) where
  edit_eq := fun d a => by cases a <;> simp
  uses_eq := fun old a => by cases a <;> simp

instance [Plain α] [Plain β] : Plain (α × β) where
  edit_eq := fun d x => by simp [edit_pair d x.1 x.2]
  uses_eq := fun old x => by simp [uses_pair old x.1 x.2]

end Editable

/-- A reader of the unit, which is not at the limit from the start. -/
structure Reader.Fits (r : Reader) (unit : String) : Prop where
  unit : r.unit = unit
  eof : r.eof.kind = .eof
  limit : 1 ≤ r.maxErrors

namespace Parse

open Editable

variable {α β : Type} [Editable α] [Editable β] {c : Replacement} {k l : Nat} {r : Reader}

/-- Reading from `r` with `p`, where up to `k` uses of the old token may be found in what `p` is
given, and with `p'` from the new tokens. If there are no errors, no use comes about, and `p'` gives
the edited result unless one has got lost. -/
structure Tracks (c : Replacement) (k : Nat) (r : Reader) (p p' : Parse α) : Prop where
  fits : r.Fits c.unit → (p.run r).2.Fits c.unit
  errors : r.Fits c.unit → (p.run r).2.errors = [] → r.errors = []
  result : ∀ a r', r.Fits c.unit → p.run r = (.ok a, r') → r'.errors = [] →
    uses c.old a + r'.tokens.count c.old ≤ k + r.tokens.count c.old ∧
      (uses c.old a + r'.tokens.count c.old < k + r.tokens.count c.old ∨
        p'.run (c.reader r) = (.ok (edit c.edit a), c.reader r'))

structure Reports {α : Type} (c : Replacement) (r : Reader) (p : Parse α) : Prop where
  fits : r.Fits c.unit → (p.run r).2.Fits c.unit
  errors : r.Fits c.unit → (p.run r).2.errors = [] → r.errors = []
  reported : r.Fits c.unit → (p.run r).2.errors ≠ []

variable {p p' p'' : Parse α} {f f' : α → Parse β}

theorem Reports.tracks (h : Reports c r p) : Tracks c k r p p' where
  fits := h.fits
  errors := h.errors
  result := by
    intro a r' fits run none
    have reported := h.reported fits
    rw [run] at reported
    exact absurd none reported

theorem tracks_pure_of {a a' : α} (le : uses c.old a ≤ k)
    (same : uses c.old a < k ∨ a' = edit c.edit a) : Tracks c k r (pure a) (pure a') where
  fits := id
  errors := fun _ => id
  result := by
    rintro _ _ _ ⟨rfl, rfl⟩ _
    refine ⟨by omega, ?_⟩
    obtain less | rfl := same
    · exact .inl (by omega)
    · exact .inr rfl

theorem tracks_pure {a a' : α} (h : uses c.old a ≤ k ∧ a' = edit c.edit a) :
    Tracks c k r (pure a) (pure a') :=
  tracks_pure_of h.1 (.inr h.2)

theorem tracks_throw {d : Diagnostic} : Tracks c k r (throw d) p' where
  fits := id
  errors := fun _ => id
  result := fun _ _ _ run => nomatch run

theorem Tracks.mono (h : Tracks c k r p p') (le : k ≤ l) : Tracks c l r p p' where
  fits := h.fits
  errors := h.errors
  result := by
    intro a r' fits run none
    obtain ⟨bound, less | same⟩ := h.result a r' fits run none
    · exact ⟨by omega, .inl (by omega)⟩
    · exact ⟨by omega, .inr same⟩

theorem Tracks.of_uses {n : Nat} (any : Tracks c k r p p'') (same : n = 0 → Tracks c k r p p') :
    Tracks c (n + k) r p p' := by
  by_cases none : n = 0
  · exact (same none).mono (by omega)
  · refine ⟨any.fits, any.errors, fun a r' fits run noErrors => ?_⟩
    obtain ⟨bound, _⟩ := any.result a r' fits run noErrors
    exact ⟨by omega, .inl (by omega)⟩

theorem tracks_of_fits (h : r.Fits c.unit → Tracks c k r p p') : Tracks c k r p p' :=
  ⟨fun fit => (h fit).fits fit, fun fit => (h fit).errors fit,
    fun a r' fit => (h fit).result a r' fit⟩

theorem Tracks.of_run {q q' : Parse α} (h : Tracks c k r q q') (same : p.run r = q.run r)
    (same' : p'.run (c.reader r) = q'.run (c.reader r)) : Tracks c k r p p' := by
  refine ⟨?_, ?_, ?_⟩ <;> rw [same]
  · exact h.fits
  · exact h.errors
  · rw [same']
    exact h.result

theorem Tracks.then {a : α} {r₁ : Reader} {q q' s s' : Parse β} (hp : Tracks c k r p p')
    (first : p.run r = (.ok a, r₁)) (hs : Tracks c (uses c.old a + l) r₁ s s')
    (split : q.run r = s.run r₁)
    (split' : p'.run (c.reader r) = (.ok (edit c.edit a), c.reader r₁) →
      q'.run (c.reader r) = s'.run (c.reader r₁)) : Tracks c (k + l) r q q' := by
  have fits := hp.fits
  have errors := hp.errors
  rw [first] at fits errors
  refine ⟨?_, ?_, ?_⟩ <;> rw [split]
  · exact fun fit => hs.fits (fits fit)
  · exact fun fit none => errors fit (hs.errors (fits fit) none)
  · intro b r' fit run none
    have none₁ : r₁.errors = [] := by
      apply hs.errors (fits fit)
      rw [run]
      exact none
    obtain ⟨bound₁, less₁ | same₁⟩ := hp.result a r₁ fit first none₁ <;>
      obtain ⟨bound₂, less₂ | same₂⟩ := hs.result b r' (fits fit) run none
    · exact ⟨by omega, .inl (by omega)⟩
    · exact ⟨by omega, .inl (by omega)⟩
    · exact ⟨by omega, .inl (by omega)⟩
    · exact ⟨by omega, .inr ((split' same₁).trans same₂)⟩

theorem Tracks.bind_of (hp : Tracks c k r p p')
    (hf : ∀ a r, Tracks c (uses c.old a + l) r (f a) (f' (edit c.edit a))) :
    Tracks c (k + l) r (p >>= f) (p' >>= f') := by
  have split := run_bind p f r
  cases first : p.run r with
  | mk read r₁ =>
    rw [first] at split
    cases read with
    | error d =>
      have fits := hp.fits
      have errors := hp.errors
      rw [first] at fits errors
      refine ⟨?_, ?_, ?_⟩ <;> rw [split]
      · exact fits
      · exact errors
      · exact fun _ _ _ run => nomatch run
    | ok a =>
      refine hp.then first (hf a r₁) split fun first' => ?_
      rw [run_bind, first']

theorem Tracks.bind (hp : Tracks c 0 r p p')
    (hf : ∀ a r, Tracks c (uses c.old a + k) r (f a) (f' (edit c.edit a))) :
    Tracks c k r (p >>= f) (p' >>= f') :=
  (hp.bind_of hf).mono (by omega)

theorem Tracks.pass (hp : Tracks c k r p p')
    (hf : ∀ a r, Tracks c (uses c.old a) r (f a) (f' (edit c.edit a))) :
    Tracks c k r (p >>= f) (p' >>= f') :=
  hp.bind_of (l := 0) hf

theorem Tracks.ite {q : Prop} [Decidable q] {p₁ p₂ p₁' p₂' : Parse α}
    (h₁ : q → Tracks c k r p₁ p₁') (h₂ : ¬ q → Tracks c k r p₂ p₂') :
    Tracks c k r (if q then p₁ else p₂) (if q then p₁' else p₂') := by
  split
  · exact h₁ ‹q›
  · exact h₂ ‹¬ q›

theorem tracks_get {f f' : Reader → Parse β} (h : Tracks c k r (f r) (f' (c.reader r))) :
    Tracks c k r (get >>= f) (get >>= f') :=
  h.of_run rfl rfl

theorem tracks_kind {f f' : Kind → Parse β} (h : Tracks c k r (f r.kind) (f' r.kind)) :
    Tracks c k r (kind >>= f) (kind >>= f') := by
  rw [← c.reader_kind r] at h
  exact h.of_run (by rw [c.reader_kind]; rfl) rfl

theorem tracks_peekKind {f f' : Kind → Parse β}
    (h : Tracks c k r (f r.peek.kind) (f' r.peek.kind)) :
    Tracks c k r (peekKind >>= f) (peekKind >>= f') := by
  rw [← c.reader_peek_kind r] at h
  exact h.of_run (by rw [c.reader_peek_kind]; rfl) rfl

theorem tracks_current {f f' : Token → Parse β}
    (h : Tracks c k r (f r.current) (f' (c.move r.current))) :
    Tracks c k r (current >>= f) (current >>= f') := by
  rw [← c.reader_current r] at h
  exact h.of_run rfl rfl

/-- The other reader need not look at its token. -/
theorem Tracks.current_first {f : Token → Parse α} (h : Tracks c k r (f r.current) p') :
    Tracks c k r (current >>= f) p' :=
  h.of_run rfl rfl

theorem tracks_hasTokens {f f' : Bool → Parse β}
    (h : Tracks c k r (f r.hasTokens) (f' r.hasTokens)) :
    Tracks c k r (hasTokens >>= f) (hasTokens >>= f') := by
  refine h.of_run rfl ?_
  have same : (c.reader r).hasTokens = r.hasTokens := by
    rw [Reader.hasTokens, c.reader_kind, Reader.hasTokens]
  rw [← same]
  rfl

theorem tracks_qualify {name name' : String} {f f' : String → Parse β}
    (h : Tracks c k r (f (r.qualify name)) (f' (r.qualify name'))) :
    Tracks c k r (qualify name >>= f) (qualify name' >>= f') :=
  h.of_run rfl rfl

theorem tracks_unexpected {expected : String} : Tracks c k r (unexpected expected) p' :=
  tracks_throw.of_run rfl rfl

theorem tracks_unexpected_bind {γ : Type} {expected : String} {g : γ → Parse α} :
    Tracks c k r (unexpected expected >>= g) p' :=
  (tracks_throw (d := r.unexpected expected)).of_run rfl rfl

theorem tracks_failAt_bind {γ : Type} {e : ParseError} {position : Position} {g : γ → Parse α} :
    Tracks c k r (failAt e position >>= g) p' :=
  (tracks_throw (d := ⟨.parse e, position⟩)).of_run rfl rfl

theorem tracks_failAt {e : ParseError} {position : Position} :
    Tracks c k r (failAt e position) p' :=
  tracks_throw

theorem tracks_modify {g : Reader → Reader} (fits : r.Fits c.unit → (g r).Fits c.unit)
    (errors : (g r).errors = [] → r.errors = [])
    (left : (g r).tokens.count c.old ≤ r.tokens.count c.old)
    (same : g (c.reader r) = c.reader (g r)) : Tracks c k r (modify g) (modify g) where
  fits := fits
  errors := fun _ => errors
  result := by
    rintro _ _ _ ⟨rfl, rfl⟩ _
    refine ⟨by simp only [uses]; omega, .inr ?_⟩
    exact congrArg (Prod.mk (Except.ok ())) same

theorem tracks_skip {ks : List Kind} : Tracks c k r (skip ks) (skip ks) := by
  refine tracks_modify (fun fit => ⟨fit.unit, fit.eof, fit.limit⟩) id ?_ ?_
  · exact (List.dropWhile_sublist _).count_le c.old
  · have kinds : ((fun t => ks.contains t.kind) ∘ c.move) = fun t => ks.contains t.kind := by
      funext t
      simp [c.kind]
    simp only [Replacement.reader, List.dropWhile_map, kinds]

theorem tracks_advance : Tracks c 0 r advance advance where
  fits := fun fit => ⟨fit.unit, fit.eof, fit.limit⟩
  errors := fun _ => id
  result := by
    rintro _ _ fit ⟨rfl, rfl⟩ _
    obtain ⟨tokens, eof⟩ := r
    cases tokens with
    | nil =>
      refine ⟨?_, .inr rfl⟩
      have other : eof ≠ c.old := fun same => by
        have kinds := fit.eof.symm.trans ((congrArg Token.kind same).trans c.isIdentifier)
        cases kinds
      simp [uses, Reader.current, other]
    | cons t tokens =>
      refine ⟨?_, .inr rfl⟩
      simp only [uses, Reader.current, List.headD_cons, List.tail_cons, List.count_cons]
      by_cases same : t = c.old
      · simp [same]
        omega
      · simp [same]

theorem Tracks.skip_first {skips : Prop} [Decidable skips] (h : ∀ r, Tracks c k r p p') :
    Tracks c k r (if skips then advance >>= fun _ => p else p)
      (if skips then advance >>= fun _ => p' else p') :=
  .ite (fun _ => tracks_advance.bind fun _ r => (h r).mono (by omega)) fun _ => h r

theorem tracks_expect {kind : Kind} : Tracks c 0 r (expect kind) (expect kind) :=
  tracks_kind (.ite (fun _ => tracks_advance) fun _ => tracks_unexpected)

theorem tracks_freshId : Tracks c k r freshId freshId where
  fits := fun fit => ⟨fit.unit, fit.eof, fit.limit⟩
  errors := fun _ => id
  result := by
    rintro _ _ _ ⟨rfl, rfl⟩ _
    exact ⟨by simp [uses], .inr rfl⟩

theorem tracks_nextTypeArg : Tracks c k r nextTypeArg nextTypeArg where
  fits := fun fit => ⟨fit.unit, fit.eof, fit.limit⟩
  errors := fun _ => id
  result := by
    rintro _ _ _ ⟨rfl, rfl⟩ _
    obtain ⟨_, _, _, _, typeArgs⟩ := r
    cases typeArgs <;> exact ⟨by simp [uses], .inr rfl⟩

theorem tracks_token {t : Token} (any : Tracks c k r p p'')
    (same : t ≠ c.old → Tracks c k r p p') : Tracks c (uses c.old t + k) r p p' := by
  refine any.of_uses fun none => same ?_
  rintro rfl
  simp [uses] at none

theorem tracks_value {t : Token} {v : String} {q : String → Parse α}
    (hv : (edit c.edit t).value = v) (h : Tracks c k r p (q t.value)) :
    Tracks c (uses c.old t + k) r p (q v) := by
  refine tracks_token h fun other => ?_
  have same : (edit c.edit t).value = t.value := c.value t other
  rw [← hv, same]
  exact h

theorem noted_fits {d : Diagnostic} (fit : r.Fits c.unit) : (noted r d).Fits c.unit := by
  refine ⟨?_, ?_, (noted_maxErrors r d).symm ▸ fit.limit⟩ <;> unfold noted <;> split
  · exact fit.unit
  · exact fit.unit
  · exact fit.eof
  · exact fit.eof

theorem Tracks.reports {d : Diagnostic} {g : Unit → Parse α}
    (h : Tracks c k (noted r d) (g ()) p') :
    Reports c r (record d >>= g) where
  fits := fun fit => h.fits (noted_fits fit)
  errors := fun fit none => errors_of_noted (h.errors (noted_fits fit) none)
  reported := fun fit none => noted_errors fit.limit (h.errors (noted_fits fit) none)

theorem Tracks.attempt_bind {g g' : Except Diagnostic α → Parse β} (hp : Tracks c 0 r p p')
    (ok : ∀ a r, Tracks c (uses c.old a + k) r (g (.ok a)) (g' (.ok (edit c.edit a))))
    (fails : ∀ d r, Reports c r (g (.error d))) :
    Tracks c k r (attempt p >>= g) (attempt p' >>= g') := by
  have split : (attempt p >>= g).run r = (g (p.run r).1).run (p.run r).2 := rfl
  cases first : p.run r with
  | mk read r₁ =>
    rw [first] at split
    cases read with
    | error d =>
      have fits := hp.fits
      have errors := hp.errors
      rw [first] at fits errors
      have rest := fails d r₁
      refine ⟨?_, ?_, ?_⟩ <;> rw [split]
      · exact fun fit => rest.fits (fits fit)
      · exact fun fit none => errors fit (rest.errors (fits fit) none)
      · intro b r' fit run none
        have reported := rest.reported (fits fit)
        rw [run] at reported
        exact absurd none reported
    | ok a =>
      refine (hp.then first (ok a r₁) split fun first' => ?_).mono (by omega)
      have split' : (attempt p' >>= g').run (c.reader r) =
          (g' (p'.run (c.reader r)).1).run (p'.run (c.reader r)).2 := rfl
      rw [split', first']

theorem tracks_loopWithin {step step' : β → Parse (β ⊕ α)}
    (h : ∀ b r, Tracks c (uses c.old b) r (step b) (step' (edit c.edit b)))
    (bound : List Token) (b : β) (r : Reader) :
    Tracks c (uses c.old b) r (loopWithin step bound b)
      (loopWithin step' (bound.map c.move) (edit c.edit b)) := by
  induction bound generalizing b r with
  | nil =>
    unfold loopWithin
    refine (h b r).pass fun x r => ?_
    cases x with
    | inl b' => exact tracks_unexpected
    | inr a => exact tracks_pure ⟨Nat.le_refl _, rfl⟩
  | cons token bound ih =>
    unfold loopWithin
    refine (h b r).pass fun x r => ?_
    cases x with
    | inl b' => exact ih b' r
    | inr a => exact tracks_pure ⟨Nat.le_refl _, rfl⟩

theorem tracks_loop {step step' : β → Parse (β ⊕ α)}
    (h : ∀ b r, Tracks c (uses c.old b) r (step b) (step' (edit c.edit b))) (b : β) :
    Tracks c (uses c.old b) r (loop step b) (loop step' (edit c.edit b)) :=
  tracks_get (tracks_loopWithin h r.tokens b r)

theorem tracks_commaList {closing : Kind} {item item' : Parse α}
    (h : ∀ r, Tracks c 0 r item item') :
    Tracks c 0 r (commaList closing item) (commaList closing item') := by
  unfold commaList
  refine tracks_loop (fun items r => ?_) ([] : List α)
  refine tracks_kind (.ite (fun _ => ?_) fun _ => ?_)
  · exact tracks_expect.bind fun _ _ => tracks_pure ⟨by simp; omega, by simp⟩
  · refine (h r).bind fun a r => tracks_kind (.ite (fun _ => ?_) fun _ => ?_)
    · exact tracks_advance.bind fun _ _ => tracks_pure (by simp)
    · exact tracks_kind (.ite (fun _ => tracks_unexpected_bind) fun _ =>
        tracks_pure (by simp))

end Parse

end FrontEnd
