import FrontEnd.Proofs.RoundTrip
import FrontEnd.Proofs.Syntax.Translation
import Mathlib.Data.List.TakeWhile

/-!
Reading goes forward. Whatever is read takes tokens from the front, a loop that goes on has taken a
token, and what is nested is read with fewer tokens than what is around it. So the bounds on loops
and on nesting are never met: what is read is what the readers say without them.

Along the way it is said once what reading gives: which trees there are, and what becomes of them
when the same tokens are read in other places, with other types or under another id.
-/

namespace FrontEnd

/-- The end of the file stands after the tokens and nowhere among them, identifiers are words, and
one error at least can be recorded. -/
structure Reader.Sound (r : Reader) : Prop where
  eof : r.eof.kind = .eof
  tokens : ∀ t ∈ r.tokens, t.kind ≠ .eof ∧ (t.kind = .identifier → Name.IsWord t.value)
  limit : 1 ≤ r.maxErrors

namespace Reader.Sound

variable {r : Reader}

theorem kind_eq_eof (h : r.Sound) (empty : r.tokens.length = 0) : r.kind = .eof := by
  rw [Reader.kind, current, List.length_eq_zero_iff.mp empty]
  exact h.eof

theorem length_pos (h : r.Sound) (more : r.kind ≠ .eof) : 0 < r.tokens.length :=
  Nat.pos_of_ne_zero fun empty => more (h.kind_eq_eof empty)

theorem word (h : r.Sound) (name : r.kind = .identifier) : Name.IsWord r.current.value := by
  obtain ⟨tokens, eof⟩ := r
  cases tokens with
  | nil => exact absurd (h.eof.symm.trans name) (by decide)
  | cons t tokens => exact (h.tokens t List.mem_cons_self).2 name

end Reader.Sound

theorem Translation.reader_noted (τ : Translation) (r : Reader) (d : Diagnostic) :
    Parse.noted (τ.reader r) (τ.diagnostic d) = τ.reader (Parse.noted r d) := by
  rw [Parse.noted, Parse.noted, τ.reader_isSaturated]
  split
  · rfl
  · simp [Translation.reader]

structure Setting where
  /-- The unit is read again with all of this translated. -/
  τ : Translation
  unit : String
  covers : τ.Covers unit
  /-- What the types are like that the importer gives. -/
  Given : Ty → Prop
  /-- Whether anything is said after an error. -/
  lossy : Prop
  todo : lossy → Given .todo

/-- What a tree is the tree of. -/
inductive Phrase where
  | expr (e : Expr)
  | field (f : FieldInit)
  | stmt (x : Stmt)
  | branch (b : Branch)
  | many (ps : List Phrase)

namespace Setting

variable (A : Setting)

def Own (name : String) : Prop :=
  ∃ w, Name.IsWord w ∧ name = Name.qualify w A.unit

inductive Typed : Ty → Prop where
  | given {t : Ty} : A.Given t → Typed t
  | primitive {w : String} {t : Ty} : Ty.primitive? w = some t → Typed t
  | pointer {t : Ty} : Typed t → Typed (.pointer t)
  | array {t : Ty} {n : Nat} : Typed t → n < Word.limit → Typed (.array t n)
  | func {params : List Ty} {result : Ty} : (∀ t ∈ params, Typed t) → Typed result →
      Typed (.func ⟨"", params, params.map fun _ => "", result⟩)
  | named {modules : List String} {name : String} : (∀ w ∈ modules, Name.IsWord w) →
      Name.IsWord name → Ty.primitive? ((modules ++ [name]).headD "") = none →
      Typed (.named ⟨Name.qualify name A.unit, modules.map (Name.qualify · A.unit)⟩)

def Signs (name : String) (sig : Signature) : Prop :=
  ∃ ps result, sig = Parse.signatureOf name ps result ∧ (∀ p ∈ ps, A.Own p.1 ∧ A.Typed p.2) ∧
    A.Typed result

/-- The trees that can be read while the ids from the first number on and below the second are
handed out. -/
inductive Tree : Nat → Nat → Phrase → Prop where
  | ident {n : Nat} {name : String} {token : Token} : A.Own name →
      Tree n n (.expr ⟨.ident name, .todo, token⟩)
  | integer {n value : Nat} {ty : Ty} {token : Token} : ty = .int 32 ∨ ty = .bool →
      value < Word.signedLimit → Tree n n (.expr ⟨.integer value, ty, token⟩)
  | float {n : Nat} {value : Double} {token : Token} :
      Tree n n (.expr ⟨.float value, .float 64, token⟩)
  | string {n : Nat} {value : String} {token : Token} :
      Tree n n (.expr ⟨.string value, .pointer (.int 8), token⟩)
  | binary {a b c : Nat} {op : InfixOp} {left right : Expr} {token : Token} :
      Tree a b (.expr left) → Tree b c (.expr right) →
      Tree a c (.expr ⟨.binary op left right, .todo, token⟩)
  | unary {a b : Nat} {op : PrefixOp} {operand : Expr} {token : Token} :
      Tree a b (.expr operand) → Tree a b (.expr ⟨.unary op operand, .todo, token⟩)
  | index {a b c : Nat} {base index : Expr} {token : Token} :
      Tree a b (.expr base) → Tree b c (.expr index) →
      Tree a c (.expr ⟨.index base index, .todo, token⟩)
  | call {a b c : Nat} {callee : Expr} {args : List Expr} {token : Token} :
      Tree a b (.expr callee) → Tree b c (.many (args.map .expr)) →
      Tree a c (.expr ⟨.call callee args, .todo, token⟩)
  | builtin {a b : Nat} {name : String} {known : Builtin} {types : List Ty} {args : List Expr}
      {token : Token} : Builtin.ofName? name = some known → types.length = known.typeArgs →
      (∀ t ∈ types, A.Typed t) → Tree a b (.many (args.map .expr)) →
      Tree a b (.expr ⟨.builtin name types args, .todo, token⟩)
  | structLit {a b : Nat} {name : String} {module? : Option String} {fields : List FieldInit}
      {token : Token} : A.Own name → (∀ m ∈ module?, A.Own m) →
      Tree a b (.many (fields.map .field)) →
      Tree a b (.expr ⟨.structLit name module? fields, .todo, token⟩)
  | arrayLit {a b : Nat} {ty : Ty} {elements : List Expr} {token : Token} : A.Typed ty →
      ty.isArray = true → Tree a b (.many (elements.map .expr)) →
      Tree a b (.expr ⟨.arrayLit ty elements, ty, token⟩)
  | comma {a b : Nat} {items : List Expr} {token : Token} : 2 ≤ items.length →
      Tree a b (.many (items.map .expr)) → Tree a b (.expr ⟨.comma items, .todo, token⟩)
  | function {a b : Nat} {sig : Signature} {body : List Stmt} {token : Token} : A.Signs "" sig →
      Tree a b (.many (body.map .stmt)) → Tree a b (.expr ⟨.function sig body, .todo, token⟩)
  | field {a b : Nat} {name : String} {value : Expr} : Name.IsWord name → Tree a b (.expr value) →
      Tree a b (.field ⟨name, value⟩)
  | expression {a b : Nat} {token : Token} {e : Expr} : Tree a b (.expr e) →
      Tree a b (.stmt (.expression token e))
  | declare {a b : Nat} {token : Token} {name : String} {ty : Ty} {value : Expr} : A.Own name →
      ty = .todo ∨ A.Typed ty → Tree a b (.expr value) →
      Tree a b (.stmt (.declare token name ty value))
  | declareAll {a b c : Nat} {token : Token} {names : List String} {ty : Ty} {value : Expr} :
      2 ≤ names.length → (∀ name ∈ names, A.Own name) → ty = .todo ∨ A.Typed ty →
      a ≤ b → A.lossy ∨ a = b → Tree b c (.expr value) →
      Tree a c (.stmt (.declareAll token names ty (names.map fun _ => ty) value))
  | assign {a b c : Nat} {token : Token} {target value : Expr} : Tree a b (.expr target) →
      Tree b c (.expr value) → Tree a c (.stmt (.assign token target value))
  | record {n : Nat} {token : Token} {kind : RecordKind} {name : String} {fields : List Field} :
      A.Own name → (∀ f ∈ fields, Name.IsWord f.name ∧ A.Typed f.ty) →
      Tree n (n + 1) (.stmt (.record token ⟨kind, name, fields, n⟩))
  | functionDecl {a b : Nat} {token : Token} {name : String} {sig : Signature} {body : List Stmt} :
      A.Own name → A.Signs name sig → Tree a b (.many (body.map .stmt)) →
      Tree a b (.stmt (.function token sig body))
  | branch {a b c : Nat} {condition : Expr} {body : List Stmt} : Tree a b (.expr condition) →
      Tree b c (.many (body.map .stmt)) → Tree a c (.branch ⟨condition, body⟩)
  | choose {a b c d : Nat} {token : Token} {first : Branch} {more : List Branch}
      {otherwise : Option (List Stmt)} : Tree a b (.branch first) →
      Tree b c (.many (more.map .branch)) → Tree c d (.many ((otherwise.getD []).map .stmt)) →
      Tree a d (.stmt (.choose token first more otherwise))
  | loop {a b c d e : Nat} {token : Token} {init : Option Stmt} {condition : Option Expr}
      {post : Option Stmt} {body : List Stmt} : (init = none → post = none) →
      Tree a b (.many (init.toList.map .stmt)) → Tree b c (.many (condition.toList.map .expr)) →
      Tree c d (.many (post.toList.map .stmt)) → Tree d e (.many (body.map .stmt)) →
      Tree a e (.stmt (.loop token init condition post body))
  | return {a b : Nat} {token : Token} {value : Option Expr} :
      Tree a b (.many (value.toList.map .expr)) → Tree a b (.stmt (.return token value))
  | break {n : Nat} {token : Token} : Tree n n (.stmt (.break token))
  | continue {n : Nat} {token : Token} : Tree n n (.stmt (.continue token))
  | external {n : Nat} {token : Token} {w : String} {sig : Signature} : Name.IsWord w →
      A.Signs w sig → Tree n n (.stmt (.external token sig))
  | importUnit {n : Nat} {token : Token} {name : String} {types : List Ty} {path : String} :
      A.Own name → (∀ t ∈ types, A.Typed t) →
      Tree n n (.stmt (.importUnit token name types path))
  | generic {n : Nat} {token : Token} {w : String} {ty : Ty} : Name.IsWord w → A.Given ty →
      Tree n n (.stmt (.generic token w ty))
  | nil {n : Nat} : Tree n n (.many [])
  | cons {a b c : Nat} {p : Phrase} {ps : List Phrase} : Tree a b p → Tree b c (.many ps) →
      Tree a c (.many (p :: ps))
  /-- A statement that fails may leave ids behind. -/
  | lost {a b c : Nat} {ps : List Phrase} : A.lossy → a ≤ b → Tree b c (.many ps) →
      Tree a c (.many ps)

variable {A}
variable {a b c : Nat}

theorem Tree.at {d : Nat} {p : Phrase} (h : A.Tree a b p) (same : a = c ∧ b = d) : A.Tree c d p :=
  same.1 ▸ same.2 ▸ h

theorem Tree.snoc {p : Phrase} {ps : List Phrase} (h : A.Tree a b (.many ps))
    (last : A.Tree b c p) :
    A.Tree a c (.many (ps ++ [p])) := by
  generalize whole : Phrase.many ps = q at h
  induction h generalizing ps with
  | nil =>
    cases whole
    exact .cons last .nil
  | cons first _ _ ih =>
    cases whole
    exact .cons first (ih last rfl)
  | lost lossy le _ ih => exact .lost lossy le (ih last whole)
  | _ => cases whole

theorem Tree.lose {ps : List Phrase} (h : A.Tree a b (.many ps)) (lossy : A.lossy) (le : b ≤ c) :
    A.Tree a c (.many ps) := by
  generalize whole : Phrase.many ps = q at h
  induction h generalizing ps with
  | nil =>
    cases whole
    exact .lost lossy le .nil
  | cons first _ _ ih =>
    cases whole
    exact .cons first (ih le rfl)
  | lost _ front _ ih => exact .lost lossy front (ih le whole)
  | _ => cases whole

theorem Tree.idents {items : List Expr} {names : List String}
    (h : A.Tree a b (.many (items.map .expr))) (named : items.map Expr.node = names.map .ident) :
    a ≤ b ∧ (A.lossy ∨ a = b) ∧ ∀ name ∈ names, A.Own name := by
  generalize whole : Phrase.many (items.map .expr) = q at h
  induction h generalizing items names with
  | nil =>
    obtain rfl : items = [] := by simpa using whole
    obtain rfl : names = [] := by simpa using named.symm
    exact ⟨Nat.le_refl _, .inr rfl, nofun⟩
  | cons first _ _ ih =>
    cases items with
    | nil => cases whole
    | cons e items =>
      cases whole
      cases names with
      | nil => cases named
      | cons name names =>
        obtain ⟨node, rest⟩ := List.cons.inj named
        obtain ⟨_, ty, token⟩ := e
        obtain rfl := node
        cases first with
        | ident own =>
          obtain ⟨le, same, all⟩ := ih rest rfl
          exact ⟨le, same, List.forall_mem_cons.mpr ⟨own, all⟩⟩
  | lost lossy le _ ih =>
    obtain ⟨le', _, all⟩ := ih named whole
    exact ⟨Nat.le_trans le le', .inl lossy, all⟩
  | _ => cases whole

theorem Tree.memberOf {left member : Expr} {operator : Token} (hl : A.Tree a b (.expr left))
    (hm : A.Tree b c (.expr member)) :
    A.Tree a c (.expr (Nested.memberOf left operator member)) := by
  unfold Nested.memberOf
  split
  case h_1 module name _ fields isIdent isStruct =>
    obtain ⟨_, ty, token⟩ := left
    obtain ⟨_, ty', token'⟩ := member
    obtain rfl := isIdent
    obtain rfl := isStruct
    cases hl with
    | ident own =>
      cases hm with
      | structLit named _ inits =>
        exact .structLit named (fun m hm => Option.mem_some.mp hm ▸ own) inits
  case h_2 => exact .binary hl hm

/-- Whether something is said about what has been read up to here. -/
def Speaks (A : Setting) (r : Reader) : Prop :=
  A.lossy ∨ r.errors = []

structure Sound (A : Setting) (r : Reader) : Prop extends r.Sound where
  unit : r.unit = A.unit
  typeArgs : A.Speaks r → ∀ t ∈ r.typeArgs, A.Given t
  generics : A.Speaks r → ∀ p ∈ r.generics, A.Given p.2
  inside : ∀ t ∈ r.tokens, A.τ.Inside t.start

section Runs

open Parse

variable {α β γ δ : Type} {r r₁ : Reader} {f : α → β} {g : γ → δ} {p : Parse α} {p' : Parse β}
  {Q Q' S S' : α → Reader → Prop} {R T : γ → Reader → Prop}
variable {e : ParseError} {t : Token}

theorem Speaks.of_moves (h : A.Speaks r₁) (moves : r.Moves r₁) : A.Speaks r :=
  h.imp_right moves.errors_nil

theorem Sound.of_suffix (h : A.Sound r) {ts : List Token} (suffix : ts <:+ r.tokens) :
    A.Sound { r with tokens := ts } :=
  ⟨⟨h.eof, fun t ht => h.tokens t (suffix.mem ht), h.limit⟩, h.unit, h.typeArgs, h.generics,
    fun t ht => h.inside t (suffix.mem ht)⟩

theorem Sound.inside_current (h : A.Sound r) (more : r.kind ≠ .eof) :
    A.τ.Inside r.current.start := by
  obtain ⟨t, ts, tokens⟩ := List.exists_cons_of_length_pos (h.length_pos more)
  have current : r.current = t := by rw [Reader.current, tokens, List.headD_cons]
  exact h.inside _ (by simp [tokens, current])

theorem Sound.noted (h : A.Sound r) (d : Diagnostic) : A.Sound (noted r d) := by
  unfold Parse.noted
  split
  · exact h
  · exact ⟨⟨h.eof, h.tokens, h.limit⟩, h.unit,
      fun speaks => h.typeArgs (speaks.imp_right (by simp)),
      fun speaks => h.generics (speaks.imp_right (by simp)), h.inside⟩

theorem Sound.pastFailure (h : A.Sound r) (first : Token) : A.Sound (r.pastFailure first) := by
  unfold Reader.pastFailure
  split
  · exact h.of_suffix (List.tail_suffix _)
  · exact h

/-- What can come of reading from `r`: it goes forward, and gives a result as `Q` says, and as `S`
says if something is said, or an ordinary error. -/
structure Outcome (A : Setting) (r : Reader) (x : Except Diagnostic α) (r₁ : Reader)
    (Q S : α → Reader → Prop) : Prop where
  moves : r.Moves r₁
  sound : A.Sound r₁
  result : ∀ a, x = .ok a → Q a r₁ ∧ r.Clear r₁ ∧ (A.Speaks r₁ → S a r₁)
  failure : ∀ d, x = .error d → d.Ordinary

/-- Reading from `r` with `p` has an outcome, and reading with `p'` from the translated reader has
the translated outcome. -/
def Runs (A : Setting) (r : Reader) (f : α → β) (p : Parse α) (p' : Parse β)
    (Q S : α → Reader → Prop) : Prop :=
  A.Sound r → ∃ x r₁, p.run r = (x, r₁) ∧
    p'.run (A.τ.reader r) = (A.τ.outcome f x, A.τ.reader r₁) ∧ A.Outcome r x r₁ Q S

theorem runs_pure {a : α} {b : β} (same : f a = b) (q : Q a r) (s : S a r) :
    A.Runs r f (pure a) (pure b) Q S := fun sound =>
  ⟨.ok a, r, rfl, same ▸ rfl, .refl r, sound,
    fun _ ok => Except.ok.inj ok ▸ ⟨q, Reader.clear_of_eq rfl, fun _ => s⟩, nofun⟩

theorem runs_throw {d : Diagnostic} (h : d.Ordinary) :
    A.Runs r f (throw d) (throw (A.τ.diagnostic d)) Q S := fun sound =>
  ⟨.error d, r, rfl, rfl, .refl r, sound, nofun, fun _ same => Except.error.inj same ▸ h⟩

theorem Runs.imp (h : A.Runs r f p p' Q S) (hq : ∀ a r₁, Q a r₁ → Q' a r₁)
    (hs : ∀ a r₁, Q a r₁ → S a r₁ → S' a r₁) : A.Runs r f p p' Q' S' := by
  intro sound
  obtain ⟨x, r₁, run, run', out⟩ := h sound
  refine ⟨x, r₁, run, run', out.moves, out.sound, fun a ok => ?_, out.failure⟩
  obtain ⟨q, clear, s⟩ := out.result a ok
  exact ⟨hq a r₁ q, clear, fun speaks => hs a r₁ q (s speaks)⟩

/-- The second part begins where the first has ended. What is said about the first may be used to
say something about the second. -/
theorem Runs.bind {k : α → Parse γ} {k' : β → Parse δ} (hp : A.Runs r f p p' Q S)
    (hk : ∀ a r₁, Q a r₁ → A.Runs r₁ g (k a) (k' (f a)) R fun c r₂ => S a r₁ → T c r₂) :
    A.Runs r g (p >>= k) (p' >>= k') R T := by
  intro sound
  obtain ⟨x, r₁, run, run', out⟩ := hp sound
  rw [run_bind, run_bind, run, run']
  cases x with
  | error d =>
    exact ⟨.error d, r₁, rfl, rfl, out.moves, out.sound, nofun,
      fun _ same => Except.error.inj same ▸ out.failure d rfl⟩
  | ok a =>
    obtain ⟨q, clear, s⟩ := out.result a rfl
    obtain ⟨y, r₂, run₂, run₂', out₂⟩ := hk a r₁ q out.sound
    refine ⟨y, r₂, run₂, run₂', out.moves.trans out₂.moves, out₂.sound,
      fun c ok => ?_, out₂.failure⟩
    obtain ⟨q₂, clear₂, s₂⟩ := out₂.result c ok
    exact ⟨q₂, clear.trans clear₂ out.moves out₂.moves,
      fun speaks => s₂ speaks (s (speaks.of_moves out₂.moves))⟩

theorem Runs.then {k : α → Parse γ} {k' : β → Parse δ} (hp : A.Runs r f p p' Q fun _ _ => True)
    (hk : ∀ a r₁, Q a r₁ → A.Runs r₁ g (k a) (k' (f a)) R T) :
    A.Runs r g (p >>= k) (p' >>= k') R T :=
  hp.bind fun a r₁ q => (hk a r₁ q).imp (fun _ _ => id) fun _ _ _ t _ => t

theorem Runs.ite {c c' : Prop} [Decidable c] [Decidable c'] {q : Parse α} {q' : Parse β}
    (same : c' ↔ c) (hp : c → A.Runs r f p p' Q S) (hq : ¬ c → A.Runs r f q q' Q S) :
    A.Runs r f (if c then p else q) (if c' then p' else q') Q S := by
  rw [if_congr same rfl rfl]
  split
  · exact hp ‹c›
  · exact hq ‹¬ c›

theorem Runs.of_run {q : Parse α} {q' : Parse β} (h : A.Runs r f q q' Q S) (run : p.run r = q.run r)
    (run' : p'.run (A.τ.reader r) = q'.run (A.τ.reader r)) : A.Runs r f p p' Q S := by
  intro sound
  rw [run, run']
  exact h sound

theorem Runs.of_more (more : r.kind ≠ .eof) (h : 0 < r.tokens.length → A.Runs r f p p' Q S) :
    A.Runs r f p p' Q S :=
  fun sound => h (sound.length_pos more) sound

theorem runs_get {k : Reader → Parse α} {k' : Reader → Parse β}
    (h : A.Runs r f (k r) (k' (A.τ.reader r)) Q S) : A.Runs r f (get >>= k) (get >>= k') Q S :=
  h.of_run rfl rfl

theorem runs_kind {k : Kind → Parse α} {k' : Kind → Parse β}
    (h : A.Runs r f (k r.kind) (k' r.kind) Q S) : A.Runs r f (kind >>= k) (kind >>= k') Q S :=
  runs_get (by rw [A.τ.reader_kind]; exact h)

theorem runs_peekKind {k : Kind → Parse α} {k' : Kind → Parse β}
    (h : A.Runs r f (k r.peek.kind) (k' r.peek.kind) Q S) :
    A.Runs r f (peekKind >>= k) (peekKind >>= k') Q S :=
  runs_get (by rw [A.τ.reader_peek]; exact h)

theorem runs_current {k : Token → Parse α} {k' : Token → Parse β}
    (h : A.Runs r f (k r.current) (k' (A.τ.token r.current)) Q S) :
    A.Runs r f (current >>= k) (current >>= k') Q S :=
  runs_get (by rw [A.τ.reader_current]; exact h)

theorem runs_qualify {w : String} (word : Name.IsWord w) {k : String → Parse α}
    {k' : String → Parse β}
    (h : ∀ name, A.Own name → A.Runs r f (k name) (k' (A.τ.name name)) Q S) :
    A.Runs r f (qualify w >>= k) (qualify w >>= k') Q S := by
  intro sound
  refine ((h (r.qualify w) ⟨w, word, congrArg _ sound.unit⟩).of_run rfl ?_) sound
  have same : A.τ.name (r.qualify w) = (A.τ.reader r).qualify w := by
    rw [Reader.qualify, A.τ.qualify (sound.unit ▸ A.covers), A.τ.plain word.plain]
    rfl
  rw [same]
  rfl

theorem runs_unexpected {expected : String} :
    A.Runs r f (unexpected expected) (unexpected expected) Q S := by
  refine runs_get ?_
  rw [A.τ.reader_unexpected]
  exact runs_throw nofun

theorem runs_unexpected_bind {expected : String} {k : γ → Parse α} {k' : γ → Parse β} :
    A.Runs r f (unexpected expected >>= k) (unexpected expected >>= k') Q S :=
  runs_unexpected.of_run rfl rfl

theorem runs_failAt (h : ∀ n, e ≠ .tooManyErrors n) :
    A.Runs r f (failAt e t.start) (failAt e (A.τ.token t).start) Q S := by
  rw [A.τ.start_token]
  exact runs_throw (d := ⟨.parse e, t.start⟩) fun n same => h n (Cause.parse.inj same)

theorem runs_failAt_bind (h : ∀ n, e ≠ .tooManyErrors n) {k : γ → Parse α} {k' : γ → Parse β} :
    A.Runs r f (failAt e t.start >>= k) (failAt e (A.τ.token t).start >>= k') Q S :=
  (runs_failAt h).of_run rfl rfl

abbrev Kept (r : Reader) (_ : α) (r₁ : Reader) : Prop :=
  r₁.tokens.length ≤ r.tokens.length

/-- A token has been taken if there was one. -/
abbrev Onward (r : Reader) (_ : α) (r₁ : Reader) : Prop :=
  r₁.tokens.length ≤ r.tokens.length - 1

abbrev Advanced (r : Reader) (_ : α) (r₁ : Reader) : Prop :=
  r₁.tokens.length < r.tokens.length

abbrev Stayed (r : Reader) (_ : α) (r₁ : Reader) : Prop :=
  r₁.tokens.length ≤ r.tokens.length ∧ r₁.nextId = r.nextId

abbrev Took (r : Reader) (_ : α) (r₁ : Reader) : Prop :=
  r₁.tokens.length < r.tokens.length ∧ r₁.nextId = r.nextId

theorem reader_next (A : Setting) (r : Reader) : (A.τ.reader r).next = A.τ.reader r.next := by
  obtain ⟨tokens, _⟩ := r
  cases tokens <;> rfl

theorem runs_advance_bind {k : Token → Parse α} {k' : Token → Parse β} (proper : r.kind.Proper)
    (h : r.next.tokens.length < r.tokens.length →
      A.Runs r.next f (k r.current) (k' (A.τ.token r.current)) Q S) :
    A.Runs r f (advance >>= k) (advance >>= k') Q S := by
  refine .of_more proper.1 fun more sound => ?_
  have shorter : r.next.tokens.length < r.tokens.length := by
    rw [r.length_next]
    omega
  obtain ⟨x, r₁, run, run', out⟩ := h shorter (sound.of_suffix (List.tail_suffix _))
  refine ⟨x, r₁, run, ?_, r.moves_next.trans out.moves, out.sound, fun a ok => ?_, out.failure⟩
  · rw [← run', ← A.reader_next, ← A.τ.reader_current]
    rfl
  · obtain ⟨q, clear, s⟩ := out.result a ok
    exact ⟨q, (Reader.clear_next proper.2).trans clear r.moves_next out.moves, s⟩

theorem runs_advance (proper : r.kind.Proper) :
    A.Runs r A.τ.token advance advance (fun t r₁ => Took r t r₁ ∧ t = r.current) fun _ _ => True :=
  (runs_advance_bind proper fun shorter => runs_pure rfl ⟨⟨shorter, rfl⟩, rfl⟩ trivial).of_run
    rfl rfl

theorem runs_expect {k : Kind} (proper : k.Proper) :
    A.Runs r A.τ.token (expect k) (expect k) (Took r) fun _ _ => True :=
  runs_kind (.ite .rfl (fun here => (runs_advance (here ▸ proper)).imp (fun _ _ => And.left)
    fun _ _ _ => id) fun _ => runs_unexpected)

theorem runs_expect_inside {k : Kind} (proper : k.Proper) :
    A.Runs r A.τ.token (expect k) (expect k)
      (fun t r₁ => Took r t r₁ ∧ A.τ.Inside t.start) fun _ _ => True := by
  refine runs_kind (.ite .rfl (fun here sound => ?_) fun _ => runs_unexpected)
  have inside := sound.inside_current (here ▸ proper.1)
  exact (runs_advance (here ▸ proper)).imp (fun _ _ q => ⟨q.1, q.2 ▸ inside⟩)
    (fun _ _ _ => id) sound

theorem runs_advance_word (name : r.kind = .identifier) : A.Runs r A.τ.token advance advance
    (fun t r₁ => Took r t r₁ ∧ Name.IsWord t.value) fun _ _ => True := fun sound =>
  (runs_advance (name ▸ by decide)).imp (fun _ _ q => ⟨q.1, q.2 ▸ sound.word name⟩)
    (fun _ _ _ => id) sound

theorem runs_word : A.Runs r A.τ.token (expect .identifier) (expect .identifier)
    (fun t r₁ => Took r t r₁ ∧ Name.IsWord t.value) fun _ _ => True :=
  runs_kind (.ite .rfl runs_advance_word fun _ => runs_unexpected)

theorem reader_past (A : Setting) (r : Reader) (ks : List Kind) :
    (A.τ.reader r).past ks = A.τ.reader (r.past ks) :=
  congrArg (fun ts => { A.τ.reader r with tokens := ts }) List.dropWhile_map

theorem reader_pastFailure (A : Setting) (r : Reader) (first : Token) :
    (A.τ.reader r).pastFailure (A.τ.token first) = A.τ.reader (r.pastFailure first) := by
  rw [Reader.pastFailure, Reader.pastFailure, A.τ.reader_current, A.reader_next]
  simp only [A.τ.offset_token]
  split <;> rfl

theorem runs_skip {ks : List Kind} (legal : .illegal ∉ ks) :
    A.Runs r id (skip ks) (skip ks) (Stayed r) fun _ _ => True := by
  intro sound
  refine ⟨.ok (), r.past ks, rfl, ?_, r.moves_past ks, sound.of_suffix (List.dropWhile_suffix _),
    fun _ _ => ⟨⟨(r.moves_past ks).length_le, rfl⟩, r.clear_past legal, fun _ => trivial⟩, nofun⟩
  exact congrArg (Prod.mk (Except.ok ())) (A.reader_past r ks)

/-- After an error has been recorded only those go on to speak who never mind. -/
theorem runs_record (h : ∀ n, e ≠ .tooManyErrors n) :
    A.Runs r id (record ⟨.parse e, t.start⟩) (record ⟨.parse e, (A.τ.token t).start⟩)
      (fun x r₁ => Stayed r x r₁ ∧ r₁.errors ≠ []) fun _ _ => A.lossy := by
  intro sound
  have ordinary : Diagnostic.Ordinary ⟨.parse e, t.start⟩ :=
    fun n same => h n (Cause.parse.inj same)
  have tokens := noted_tokens r ⟨.parse e, t.start⟩
  have errors := noted_errors (d := ⟨.parse e, t.start⟩) sound.limit
  refine ⟨.ok (), noted r _, rfl, ?_, r.moves_noted ordinary, sound.noted _, fun _ _ =>
    ⟨⟨⟨by rw [tokens], noted_nextId r _⟩, errors⟩, Reader.clear_of_eq tokens,
      fun speaks => speaks.resolve_right errors⟩, nofun⟩
  rw [A.τ.start_token]
  exact congrArg (Prod.mk (Except.ok ())) (A.τ.reader_noted r ⟨.parse e, t.start⟩)

theorem runs_freshId : A.Runs r A.τ.id freshId freshId
    (fun n r₁ => n = r.nextId ∧ r₁.nextId = r.nextId + 1 ∧ r₁.tokens.length ≤ r.tokens.length)
    fun _ _ => True := by
  intro sound
  refine ⟨.ok r.nextId, { r with nextId := r.nextId + 1 }, rfl, ?_,
    ⟨List.suffix_rfl, rfl, rfl, Nat.le_succ _, rfl, ⟨[], (List.append_nil _).symm, nofun⟩,
      Nat.le_max_left _ _⟩,
    ⟨⟨sound.eof, sound.tokens, sound.limit⟩, sound.unit, sound.typeArgs, sound.generics,
      sound.inside⟩,
    fun _ ok => Except.ok.inj ok ▸ ⟨⟨rfl, rfl, Nat.le_refl _⟩, Reader.clear_of_eq rfl,
      fun _ => trivial⟩, nofun⟩
  have run : freshId.run (A.τ.reader r) =
    (.ok (A.τ.id r.nextId), { A.τ.reader r with nextId := A.τ.id r.nextId + 1 }) := rfl
  rw [run, ← A.τ.next]
  rfl

theorem runs_pass (errors : r.errors ≠ []) : A.Runs r A.τ.token advance advance
    (fun t r₁ => Onward r t r₁ ∧ r₁.nextId = r.nextId) fun _ _ => True := by
  intro sound
  refine ⟨.ok r.current, r.next, rfl, ?_, r.moves_next, sound.of_suffix (List.tail_suffix _),
    fun _ _ => ⟨⟨by rw [Onward, r.length_next], rfl⟩, fun none => absurd none errors,
      fun _ => trivial⟩, nofun⟩
  rw [← A.reader_next, Translation.outcome, ← A.τ.reader_current]
  rfl

theorem runs_nextTypeArg : A.Runs r (Option.map A.τ.type) nextTypeArg nextTypeArg
    (fun t? r₁ => Stayed r t? r₁ ∧ (A.Speaks r₁ → ∀ t ∈ t?, A.Given t))
    fun t? _ => ∀ t ∈ t?, A.Given t := by
  intro sound
  have given : A.Speaks r → ∀ t ∈ r.typeArgs.head?, A.Given t := fun speaks t ht =>
    sound.typeArgs speaks t (List.mem_of_mem_head? ht)
  refine ⟨.ok r.typeArgs.head?, { r with typeArgs := r.typeArgs.tail }, rfl, ?_,
    ⟨List.suffix_rfl, rfl, rfl, Nat.le_refl _, rfl, ⟨[], (List.append_nil _).symm, nofun⟩,
      Nat.le_max_left _ _⟩,
    ⟨⟨sound.eof, sound.tokens, sound.limit⟩, sound.unit,
      fun speaks t ht => sound.typeArgs speaks t (List.mem_of_mem_tail ht), sound.generics,
      sound.inside⟩,
    fun _ ok => Except.ok.inj ok ▸ ⟨⟨⟨Nat.le_refl _, rfl⟩, given⟩, Reader.clear_of_eq rfl, given⟩,
    nofun⟩
  rw [Translation.outcome, ← List.head?_map]
  exact congrArg (fun ts => (Except.ok _, { A.τ.reader r with typeArgs := ts })) List.map_tail.symm

theorem runs_defineGeneric {name : String} {ty : Ty} (given : A.Speaks r → A.Given ty) :
    A.Runs r id (defineGeneric name ty) (defineGeneric name (A.τ.type ty)) (Stayed r)
      fun _ _ => True := fun sound =>
  ⟨.ok (), { r with generics := (name, ty) :: r.generics }, rfl, rfl,
    ⟨List.suffix_rfl, rfl, rfl, Nat.le_refl _, rfl, ⟨[], (List.append_nil _).symm, nofun⟩,
      Nat.le_max_left _ _⟩,
    ⟨⟨sound.eof, sound.tokens, sound.limit⟩, sound.unit, sound.typeArgs,
      fun speaks => List.forall_mem_cons.mpr ⟨given speaks, sound.generics speaks⟩, sound.inside⟩,
    fun _ _ => ⟨⟨Nat.le_refl _, rfl⟩, Reader.clear_of_eq rfl, fun _ => trivial⟩, nofun⟩

/-- What a step of a loop leaves: fewer tokens, if it goes on. -/
abbrev GoesOn (r : Reader) (x : γ ⊕ α) (r₁ : Reader) : Prop :=
  r₁.tokens.length ≤ r.tokens.length ∧ (x.isLeft = true → r₁.tokens.length < r.tokens.length)

theorem runs_goOn {J : γ ⊕ α → Reader → Prop} {c : γ} {d : δ} (same : g c = d)
    (less : r₁.tokens.length < r.tokens.length) (said : J (.inl c) r₁) :
    A.Runs r₁ (Sum.map g f) (pure (.inl c)) (pure (.inl d)) (GoesOn r) J :=
  runs_pure (congrArg Sum.inl same) ⟨Nat.le_of_lt less, fun _ => less⟩ said

theorem runs_stop {J : γ ⊕ α → Reader → Prop} {a : α} {b : β} (same : f a = b)
    (le : r₁.tokens.length ≤ r.tokens.length) (said : J (.inr a) r₁) :
    A.Runs r₁ (Sum.map g f) (pure (.inr a)) (pure (.inr b)) (GoesOn r) J :=
  runs_pure (congrArg Sum.inr same) ⟨le, nofun⟩ said

section Loop

variable {step : γ → Parse (γ ⊕ α)} {step' : δ → Parse (δ ⊕ β)} {I J : γ → Reader → Prop}

/-- What a loop gives, if every step keeps what holds of the items read so far. -/
theorem runs_loopWithin
    (h : ∀ c r, J c r → A.Runs r (Sum.map g f) (step c) (step' (g c))
      (fun x r₁ => GoesOn r x r₁ ∧ x.elim (J · r₁) (Q · r₁))
      fun x r₁ => I c r → x.elim (I · r₁) (S · r₁))
    (bound : List Token) (c : γ) (r : Reader) (j : J c r) :
    A.Runs r f (loopWithin step bound c) (loopWithin step' (bound.map A.τ.token) (g c)) Q
      fun a r₁ => I c r → S a r₁ := by
  induction bound generalizing c r with
  | nil =>
    unfold loopWithin
    refine (h c r j).bind fun x r₁ q => ?_
    cases x with
    | inl c' => exact runs_unexpected
    | inr a => exact runs_pure rfl q.2 id
  | cons token bound ih =>
    unfold loopWithin
    refine (h c r j).bind fun x r₁ q => ?_
    cases x with
    | inl c' => exact (ih c' r₁ q.2).imp (fun _ _ => id) fun _ _ _ s said i => s (said i)
    | inr a => exact runs_pure rfl q.2 id

theorem runs_loop
    (h : ∀ c r₁, r₁.tokens.length ≤ r.tokens.length →
      A.Runs r₁ (Sum.map g f) (step c) (step' (g c)) (GoesOn r₁)
        fun x r₂ => I c r₁ → x.elim (I · r₂) (S · r₂)) {c : γ} {d : δ} (same : g c = d) :
    A.Runs r f (loop step c) (loop step' d) (Kept r) fun a r₁ => I c r → S a r₁ := by
  subst same
  refine runs_get (runs_loopWithin (J := Kept r) (fun c r₁ le => ?_) r.tokens c r (Nat.le_refl _))
  refine (h c r₁ le).imp (fun x r₂ q => ⟨q, ?_⟩) fun _ _ _ => id
  cases x <;> exact Nat.le_trans q.1 le

/-- A loop in which no id is handed out, with what holds of the last step whatever was before. -/
theorem runs_tokenLoop_last {E : α → Prop}
    (h : ∀ c r₁, r₁.tokens.length ≤ r.tokens.length → A.Runs r₁ (Sum.map g f) (step c) (step' (g c))
      (fun x r₂ => GoesOn r₁ x r₂ ∧ r₂.nextId = r₁.nextId ∧ ∀ a, x = .inr a → E a)
        fun x r₂ => I c r₁ → x.elim (I · r₂) (S · r₂)) {c : γ} {d : δ} (same : g c = d) :
    A.Runs r f (loop step c) (loop step' d) (fun a r₁ => Stayed r a r₁ ∧ E a)
      fun a r₁ => I c r → S a r₁ := by
  subst same
  refine runs_get (runs_loopWithin (J := Stayed r) (fun c r₁ le => ?_) r.tokens c r
    ⟨Nat.le_refl _, rfl⟩)
  refine (h c r₁ le.1).imp (fun x r₂ q => ⟨q.1, ?_⟩) fun _ _ _ => id
  have stayed : Stayed r x r₂ := ⟨Nat.le_trans q.1.1 le.1, q.2.1.trans le.2⟩
  cases x with
  | inl c => exact stayed
  | inr a => exact ⟨stayed, q.2.2 a rfl⟩

theorem runs_tokenLoop
    (h : ∀ c r₁, r₁.tokens.length ≤ r.tokens.length → A.Runs r₁ (Sum.map g f) (step c) (step' (g c))
      (fun x r₂ => GoesOn r₁ x r₂ ∧ r₂.nextId = r₁.nextId)
        fun x r₂ => I c r₁ → x.elim (I · r₂) (S · r₂)) {c : γ} {d : δ} (same : g c = d) :
    A.Runs r f (loop step c) (loop step' d) (Stayed r) fun a r₁ => I c r → S a r₁ :=
  (runs_tokenLoop_last (E := fun _ => True) (fun c r₁ le => (h c r₁ le).imp
    (fun _ _ q => ⟨q.1, q.2, fun _ _ => trivial⟩) fun _ _ _ => id) same).imp (fun _ _ => And.left)
    fun _ _ _ => id

end Loop

/-- What holds of a list of items as long as no id is handed out. -/
def Lasting (I : List α → Reader → Prop) : Prop :=
  ∀ items (r r₁ : Reader), I items r → r₁.nextId = r.nextId → I items r₁

theorem runs_commaStep {closing : Kind} (proper : closing.Proper) {I : List α → Reader → Prop}
    (lasting : Lasting I) {items : List α} {fixed : Prop}
    (h : A.Runs r f p p' (fun a r₁ => Advanced r a r₁ ∧ (fixed → r₁.nextId = r.nextId))
      fun a r₁ => I items.reverse r → I (a :: items).reverse r₁) :
    A.Runs r (Sum.map (List.map f) (Prod.map (List.map f) A.τ.token)) (commaStep closing p items)
      (commaStep closing p' (items.map f))
      (fun x r₁ => GoesOn r x r₁ ∧ (fixed → r₁.nextId = r.nextId) ∧
        ∀ y, x = .inr y → A.τ.Inside y.2.start)
      fun x r₁ => I items.reverse r → x.elim (I ·.reverse r₁) (I ·.1 r₁) := by
  refine runs_kind (.ite .rfl (fun _ => ?_) fun _ => ?_)
  · exact (runs_expect_inside proper).then fun _ r₁ left => runs_pure (by simp)
      ⟨⟨by omega, nofun⟩, fun _ => left.1.2, fun _ same => Sum.inr.inj same ▸ left.2⟩
      fun i => lasting _ r r₁ i left.1.2
  · refine h.bind fun a r₁ left => runs_kind (.ite .rfl (fun comma => ?_) fun _ => ?_)
    · exact (runs_advance (comma ▸ by decide)).then fun _ r₂ left' => runs_pure rfl
        ⟨⟨by omega, fun _ => by omega⟩, fun fixed => left'.1.2.trans (left.2 fixed), nofun⟩
        fun said i => lasting _ r₁ r₂ (said i) left'.1.2
    · exact runs_kind (.ite .rfl (fun _ => runs_unexpected_bind) fun _ => runs_pure rfl
        ⟨⟨Nat.le_of_lt left.1, fun _ => left.1⟩, left.2, nofun⟩ fun said i => said i)

theorem runs_commaList {closing : Kind} (proper : closing.Proper) {I : List α → Reader → Prop}
    (lasting : Lasting I)
    (h : ∀ items r₁, r₁.tokens.length ≤ r.tokens.length → A.Runs r₁ f p p' (Advanced r₁)
      fun a r₂ => I items.reverse r₁ → I (a :: items).reverse r₂) :
    A.Runs r (Prod.map (List.map f) A.τ.token) (commaList closing p) (commaList closing p') (Kept r)
      fun x r₁ => I [] r → I x.1 r₁ := by
  refine runs_loop (I := fun items => I items.reverse) (g := List.map f) (fun items r₁ le => ?_) rfl
  have item : A.Runs r₁ f p p' (fun a r₂ => Advanced r₁ a r₂ ∧ (False → r₂.nextId = r₁.nextId))
      fun a r₂ => I items.reverse r₁ → I (a :: items).reverse r₂ :=
    (h items r₁ le).imp (fun _ _ q => ⟨q, False.elim⟩) fun _ _ _ => id
  exact (runs_commaStep proper lasting item).imp (fun _ _ => And.left) fun _ _ _ => id

theorem runs_tokenList {closing : Kind} (proper : closing.Proper) {P : α → Prop}
    (h : ∀ r₁, r₁.tokens.length ≤ r.tokens.length → A.Runs r₁ f p p' (Took r₁) fun a _ => P a) :
    A.Runs r (Prod.map (List.map f) A.τ.token) (commaList closing p) (commaList closing p')
      (fun x r₁ => Stayed r x r₁ ∧ A.τ.Inside x.2.start) fun x _ => ∀ a ∈ x.1, P a := by
  have lasting : Lasting fun (items : List α) (_ : Reader) => ∀ a ∈ items, P a :=
    fun _ _ _ all _ => all
  refine (runs_tokenLoop_last (I := fun items _ => ∀ a ∈ items.reverse, P a) (g := List.map f)
    (E := fun x => A.τ.Inside x.2.start) (fun items r₁ le => ?_) rfl).imp (fun _ _ => id)
    fun _ _ _ said => said nofun
  have item : A.Runs r₁ f p p' (fun a r₂ => Advanced r₁ a r₂ ∧ (True → r₂.nextId = r₁.nextId))
      fun a _ => (∀ a ∈ items.reverse, P a) → ∀ b ∈ (a :: items).reverse, P b :=
    (h r₁ le).imp (fun _ _ q => ⟨q.1, fun _ => q.2⟩) fun a _ _ said all => by
      rw [List.reverse_cons, List.forall_mem_append]
      exact ⟨all, by simpa using said⟩
  exact (runs_commaStep proper lasting item).imp (fun _ _ q => ⟨q.1, q.2.1 trivial, q.2.2⟩)
    fun _ _ _ => id

/-! ### Types -/

def Dotted (first : String) (words : List String) : Prop :=
  words.head? = some first ∧ ∀ w ∈ words, Name.IsWord w

theorem runs_dottedStep {w : String} (words : List String) :
    A.Runs r (Sum.map (List.map A.τ.name) (List.map A.τ.name)) (dottedStep words)
      (dottedStep (words.map A.τ.name)) (fun x r₁ => GoesOn r x r₁ ∧ r₁.nextId = r.nextId)
      fun x _ => Dotted w words.reverse → x.elim (Dotted w ·.reverse) (Dotted w) := by
  refine runs_kind (runs_peekKind (.ite .rfl (fun here => ?_) fun _ => ?_))
  · refine runs_advance_bind (here.1 ▸ by decide) fun left => ?_
    refine (runs_advance_word (r := r.next) here.2).then fun t r₁ left' => ?_
    have same : A.τ.name t.value = t.value := A.τ.plain left'.2.plain
    refine runs_pure (by simp [same]) ⟨⟨by omega, fun _ => by omega⟩, left'.1.2⟩ fun dotted => ?_
    simp only [Sum.elim_inl, Dotted, List.reverse_cons, List.head?_append, dotted.1,
      List.forall_mem_append]
    exact ⟨rfl, dotted.2, by simpa using left'.2⟩
  · exact runs_pure (by simp) ⟨⟨Nat.le_refl _, nofun⟩, rfl⟩ id

theorem runs_dottedName {first : String} (word : Name.IsWord first) :
    A.Runs r (List.map A.τ.name) (dottedName first) (dottedName first) (Stayed r)
      fun words _ => Dotted first words := by
  have same : [first].map A.τ.name = [first] := by simp [A.τ.plain word.plain]
  exact (runs_tokenLoop (I := fun words _ => Dotted first words.reverse)
    (fun words _ _ => runs_dottedStep words) same).imp (fun _ _ => id)
      fun _ _ _ said => said ⟨rfl, by simpa using word⟩

theorem runs_namedType : A.Runs r A.τ.type namedType namedType (Took r) fun t _ => A.Typed t := by
  refine runs_word.then fun t r₁ left => runs_get ?_
  rw [A.τ.reader_generic?, A.τ.value_token]
  cases primitive : Ty.primitive? t.value with
  | some ty => exact runs_pure (A.τ.primitive primitive) left.1 (.primitive primitive)
  | none =>
    cases generic : r₁.generic? t.value with
    | some ty =>
      intro sound
      refine ⟨.ok ty, r₁, rfl, rfl, .refl r₁, sound, fun _ ok => Except.ok.inj ok ▸
        ⟨left.1, Reader.clear_of_eq rfl, fun speaks => ?_⟩, nofun⟩
      exact .given (sound.generics speaks _ (Table.mem_of_lookup generic))
    | none =>
      refine (runs_dottedName left.2).bind fun words r₂ left₂ => runs_get fun sound => ?_
      have names : (words.map r₂.qualify).map A.τ.name =
          (words.map A.τ.name).map (A.τ.reader r₂).qualify := by
        rw [List.map_map, List.map_map]
        exact List.map_congr_left fun v _ => A.τ.qualify (sound.unit ▸ A.covers) v
      refine runs_pure ?_ (by omega) (fun dotted => ?_) sound
      · rw [A.τ.named, A.τ.name_getLastD, names, List.map_dropLast, names]
      · obtain rfl | ⟨modules, name, rfl⟩ := words.eq_nil_or_concat'
        · cases dotted.1
        · have all := List.forall_mem_append.mp dotted.2
          have head : (modules ++ [name]).headD "" = t.value := by
            rw [List.headD_eq_head?_getD, dotted.1]
            rfl
          have typed : A.Typed _ := .named all.1 (all.2 name (by simp)) (head ▸ primitive)
          have same : r₂.qualify = (Name.qualify · A.unit) := by
            funext v
            rw [Reader.qualify, sound.unit]
          simpa [same] using typed

theorem runs_arrayLength :
    A.Runs r id arrayLength arrayLength (Stayed r) fun n _ => n < Word.limit := by
  by_cases proper : r.kind.Proper
  · refine runs_advance_bind proper fun left => ?_
    have same : Literal.length? (A.τ.token r.current) = Literal.length? r.current := rfl
    rw [same]
    cases found : Literal.length? r.current with
    | some n =>
      have fits := (Option.filter_eq_some_iff.mp found).2
      exact runs_pure rfl ⟨Nat.le_of_lt left, rfl⟩ (of_decide_eq_true fits)
    | none => exact runs_failAt (by simp)
  · have none : Literal.length? r.current = none := by
      have kind : r.current.kind = .eof ∨ r.current.kind = .illegal := by
        simp only [Kind.Proper, not_and_or, not_not] at proper
        exact proper
      obtain kind | kind := kind <;> simp [Literal.length?, Literal.below?, Literal.natural?, kind]
    have run (r' : Reader) (h : Literal.length? r'.current = .none) : arrayLength.run r' =
        (.error ⟨.parse (.invalidArraySize r'.current.text), r'.current.start⟩, r'.next) := by
      have taken : advance.run r' = (.ok r'.current, r'.next) := rfl
      rw [arrayLength, run_bind, taken]
      dsimp only
      rw [h]
      rfl
    intro sound
    refine ⟨_, _, run r none, ?_, r.moves_next, sound.of_suffix (List.tail_suffix _), by simp,
      fun _ same => Except.error.inj same ▸ by simp [Diagnostic.Ordinary]⟩
    rw [run, A.reader_next, A.τ.reader_current, A.τ.start_token]
    · rfl
    · rw [A.τ.reader_current]
      exact none

theorem runs_resultAfter {type type' : Parse Ty} {close : Token} (inside : A.τ.Inside close.start)
    (h : A.Runs r A.τ.type type type' (Took r) fun t _ => A.Typed t) :
    A.Runs r A.τ.type (resultAfter type close) (resultAfter type' (A.τ.token close)) (Stayed r)
      fun t _ => A.Typed t := by
  intro sound
  refine runs_current (.ite ?_ (fun _ => h.imp (fun _ _ q => ⟨Nat.le_of_lt q.1, q.2⟩)
    fun _ _ _ => id) fun _ => runs_pure A.τ.void ⟨Nat.le_refl _, rfl⟩
      (.primitive (w := "void") rfl)) sound
  rw [A.τ.kind_token]
  refine and_congr_right fun starts => A.τ.line_token (sound.inside_current fun eof => ?_) inside
  rw [show r.current.kind = .eof from eof] at starts
  cases starts

def typeStep (inner : Parse Ty) : Parse Ty := do
  match ← kind with
  | .identifier => namedType
  | .star =>
    let _ ← advance
    return .pointer (← inner)
  | .openBracket =>
    let _ ← advance
    let length ← arrayLength
    let _ ← expect .closeBracket
    return .array (← inner) length
  | .kwFunc =>
    let _ ← advance
    let _ ← expect .openParen
    let (params, close) ← commaList .closeParen inner
    let result ← resultAfter inner close
    return .func ⟨"", params, params.map fun _ => "", result⟩
  | _ => unexpected "type"

theorem typeWithin_cons (token : Token) (bound : List Token) :
    typeWithin (token :: bound) = typeStep (typeWithin bound) :=
  rfl

theorem runs_typeStep {inner inner' : Parse Ty}
    (h : ∀ r₁, r₁.tokens.length < r.tokens.length →
      A.Runs r₁ A.τ.type inner inner' (Took r₁) fun t _ => A.Typed t) :
    A.Runs r A.τ.type (typeStep inner) (typeStep inner')
      (fun t r₁ => Took r t r₁ ∧ (r.kind = .openBracket → t.isArray = true))
      fun t _ => A.Typed t := by
  refine runs_kind ?_
  cases hk : r.kind with
  | identifier => exact runs_namedType.imp (fun _ _ q => ⟨q, nofun⟩) fun _ _ _ => id
  | star =>
    exact (runs_advance (hk ▸ by decide)).then fun _ r₁ left =>
      (h r₁ left.1.1).bind fun t _ left₂ =>
      runs_pure (A.τ.pointer t) ⟨by omega, nofun⟩ .pointer
  | openBracket =>
    refine (runs_advance (hk ▸ by decide)).then fun _ r₁ left => ?_
    exact runs_arrayLength.bind fun n r₂ left₂ => (runs_expect (by decide)).then fun _ r₃ left₃ =>
      (h r₃ (by omega)).bind fun t _ left₄ => runs_pure (A.τ.array t n) ⟨by omega, fun _ => rfl⟩
        fun typed fits => .array typed fits
  | kwFunc =>
    refine (runs_advance (hk ▸ by decide)).then fun _ r₁ left => ?_
    refine (runs_expect (by decide)).then fun _ r₂ left₂ => ?_
    refine (runs_tokenList (by decide) fun r₃ left₃ => h r₃ (by omega)).bind
      fun params r₄ left₄ => ?_
    refine (runs_resultAfter left₄.2 (h r₄ (by omega))).bind fun result _ left₅ =>
      runs_pure ?_ ⟨by omega, nofun⟩ fun typed all => .func all typed
    simp [A.τ.func, A.τ.name_empty, Function.comp_def]
  | _ => exact runs_unexpected

abbrev ReadsType (A : Setting) (r : Reader) (p p' : Parse Ty) : Prop :=
  A.Runs r A.τ.type p p'
    (fun t r₁ => Took r t r₁ ∧ (r.kind = .openBracket → t.isArray = true)) fun t _ => A.Typed t

theorem readsType_empty (bound bound' : List Token) (empty : r.tokens.length = 0) :
    A.ReadsType r (typeWithin bound) (typeWithin bound') := by
  intro sound
  have fails (bound : List Token) (r : Reader) (eof : r.kind = .eof) :
      (typeWithin bound).run r = (unexpected "type" : Parse Ty).run r := by
    cases bound with
    | nil => rfl
    | cons token bound =>
      have kind : kind.run r = (.ok r.kind, r) := rfl
      rw [typeWithin_cons, typeStep, run_bind, kind, eof]
  have eof := sound.kind_eq_eof empty
  refine runs_unexpected.of_run (fails bound r eof) (fails bound' _ ?_) sound
  rw [A.τ.reader_kind, eof]

/-- Types nest no deeper than there are tokens, so a longer bound makes no difference. -/
theorem readsType_within {bound bound' : List Token} (h : bound.length = bound'.length ∨
      r.tokens.length ≤ bound.length ∧ r.tokens.length ≤ bound'.length) :
    A.ReadsType r (typeWithin bound) (typeWithin bound') := by
  induction bound generalizing r bound' with
  | nil =>
    cases bound' with
    | nil => exact runs_unexpected
    | cons token' bound' => exact readsType_empty _ _ (by simp_all)
  | cons token bound ih =>
    cases bound' with
    | nil => exact readsType_empty _ _ (by simp_all)
    | cons token' bound' =>
      simp only [List.length_cons] at h
      exact runs_typeStep fun r₁ left => (ih (by omega)).imp (fun _ _ => And.left) fun _ _ _ => id

theorem readsType : A.ReadsType r type type :=
  runs_get (readsType_within (.inl (List.length_map A.τ.token).symm))

theorem runs_type : A.Runs r A.τ.type type type (Took r) fun t _ => A.Typed t :=
  readsType.imp (fun _ _ => And.left) fun _ _ _ => id

theorem runs_param : A.Runs r (Prod.map A.τ.name A.τ.type) param param (Took r)
    fun x _ => A.Own x.1 ∧ A.Typed x.2 :=
  runs_word.then fun _ _ left => runs_qualify left.2 fun _ own => runs_type.bind fun _ _ left₂ =>
    runs_pure rfl (by omega) fun typed => ⟨own, typed⟩

theorem runs_params :
    A.Runs r (Prod.map (List.map (Prod.map A.τ.name A.τ.type)) A.τ.token) params params
      (fun x r₁ => Stayed r x r₁ ∧ A.τ.Inside x.2.start)
      fun x _ => ∀ p ∈ x.1, A.Own p.1 ∧ A.Typed p.2 :=
  (runs_expect (by decide)).then fun _ _ left =>
    (runs_tokenList (by decide) fun _ _ => runs_param).imp (fun _ _ q => ⟨by omega, q.2⟩)
      fun _ _ _ => id

theorem runs_type_unless {k : Kind} {default : Ty} (same : A.τ.type default = default)
    {P : Ty → Prop} (left : P default) (typed : ∀ t, A.Typed t → P t) :
    A.Runs r A.τ.type (do if (← kind) = k then return default else type)
      (do if (← kind) = k then return default else type) (Stayed r) fun t _ => P t :=
  runs_kind (.ite .rfl (fun _ => runs_pure same ⟨Nat.le_refl _, rfl⟩ left) fun _ =>
    runs_type.imp (fun _ _ _ => by omega) fun t _ _ => typed t)

theorem runs_resultBeforeBody :
    A.Runs r A.τ.type resultBeforeBody resultBeforeBody (Stayed r) fun t _ => A.Typed t :=
  runs_type_unless A.τ.void (.primitive (w := "void") rfl) fun _ => id

theorem runs_declaredType : A.Runs r A.τ.type declaredType declaredType (Stayed r)
    fun t _ => t = .todo ∨ A.Typed t :=
  runs_type_unless A.τ.todo (.inl rfl) fun _ => .inr

end Runs

end Setting

end FrontEnd
