import FrontEnd.Name
import FrontEnd.Proofs.Syntax.Relabel
import FrontEnd.Reading.Stmts

namespace FrontEnd

theorem Table.lookup_map {α β : Type} {f : String → String} (hf : Function.Injective f) (g : α → β)
    (t : List (String × α)) (key : String) :
    (t.map fun p => (f p.1, g p.2)).lookup (f key) = (t.lookup key).map g := by
  induction t with
  | nil => rfl
  | cons p t ih =>
    obtain ⟨k, v⟩ := p
    rw [List.map_cons, List.lookup_cons, List.lookup_cons, ih]
    by_cases same : key = k
    · simp [same]
    · have other : f key ≠ f k := fun h => same (hf h)
      simp [beq_false_of_ne same, beq_false_of_ne other]

structure Translation where
  /-- The names that a unit qualifies. -/
  name : String → String := fun v => v
  /-- The ids of units. -/
  unit : String → String := fun u => u
  /-- The ids of records. -/
  id : Nat → Nat := fun n => n
  type : Ty → Ty
  /-- Where tokens stand. -/
  span : Span → Span := fun s => s
  /-- Where they start. -/
  place : Position → Position := fun p => p
  /-- The places whose lines are told apart as before. The end of the file need not be one. -/
  Inside : Position → Prop := fun _ => True
  /-- The units whose names are translated. -/
  Covers : String → Prop := fun u => '-' ∉ u.toList
  plain : ∀ {v : String}, '-' ∉ v.toList → name v = v := by exact fun _ => rfl
  qualify : ∀ {u : String}, Covers u → ∀ v,
    name (Name.qualify v u) = Name.qualify (name v) (unit u) := by exact fun _ _ => rfl
  next : ∀ n, id (n + 1) = id n + 1 := by exact fun _ => rfl
  void : type .void = .void := by rfl
  int : ∀ bits, type (.int bits) = .int bits := by exact fun _ => rfl
  uint : ∀ bits, type (.uint bits) = .uint bits := by exact fun _ => rfl
  float : ∀ bits, type (.float bits) = .float bits := by exact fun _ => rfl
  todo : type .todo = .todo := by rfl
  pointer : ∀ t, type (.pointer t) = .pointer (type t) := by exact fun _ => rfl
  array : ∀ t n, type (.array t n) = .array (type t) n := by exact fun _ _ => rfl
  func : ∀ sig : Signature, type (.func sig) =
    .func ⟨name sig.name, sig.params.map type, sig.names.map name, type sig.result⟩
  named : ∀ ref : TypeRef, type (.named ref) = .named ⟨name ref.name, ref.modules.map name⟩
  start_span : ∀ s : Span, (span s).start = place s.start := by exact fun _ => rfl
  line : ∀ p q : Position, Inside p → Inside q →
      ((place p).line = (place q).line ↔ p.line = q.line) := by
    exact fun _ _ _ _ => Iff.rfl
  offset : ∀ p q : Position, (place p).offset = (place q).offset ↔ p.offset = q.offset := by
    exact fun _ _ => Iff.rfl

namespace Translation

def identity : Translation where
  type := fun t => t
  Covers := fun _ => True
  func := fun ⟨_, _, _, _⟩ => by simp
  named := fun ⟨_, _⟩ => by simp

variable (τ : Translation)

def token (t : Token) : Token :=
  ⟨t.kind, t.value, τ.span t.span⟩

@[simp]
theorem kind_token (t : Token) : (τ.token t).kind = t.kind :=
  rfl

@[simp]
theorem value_token (t : Token) : (τ.token t).value = t.value :=
  rfl

theorem start_token (t : Token) : (τ.token t).start = τ.place t.start :=
  τ.start_span t.span

theorem line_token {t u : Token} (ht : τ.Inside t.start) (hu : τ.Inside u.start) :
    (τ.token t).line = (τ.token u).line ↔ t.line = u.line := by
  have same := τ.line t.start u.start ht hu
  rw [← τ.start_token, ← τ.start_token] at same
  exact same

theorem offset_token (t u : Token) :
    (τ.token t).start.offset = (τ.token u).start.offset ↔ t.start.offset = u.start.offset := by
  rw [τ.start_token, τ.start_token, τ.offset]

def signature (sig : Signature) : Signature :=
  ⟨τ.name sig.name, sig.params.map τ.type, sig.names.map τ.name, τ.type sig.result⟩

def field (f : Field) : Field :=
  ⟨f.name, τ.type f.ty⟩

def record (decl : Record) : Record :=
  ⟨decl.kind, τ.name decl.name, decl.fields.map τ.field, τ.id decl.id⟩

def tree : Relabelling where
  name := τ.name
  type := τ.type
  record := τ.record
  signature := τ.signature
  annotation := τ.type
  token := τ.token

def program (p : Program) : Program :=
  ⟨τ.unit p.id, τ.tree.stmts p.statements⟩

def diagnostic (d : Diagnostic) : Diagnostic :=
  ⟨d.cause, τ.place d.position⟩

/-- What reading comes to, with the place of an error translated. -/
def outcome {α β : Type} (f : α → β) : Except Diagnostic α → Except Diagnostic β
  | .ok a => .ok (f a)
  | .error d => .error (τ.diagnostic d)

/-- A reader with the types that it is given translated, which reads as a unit of another id from
tokens that stand elsewhere. -/
def reader (r : Reader) : Reader :=
  { r with
    tokens := r.tokens.map τ.token
    eof := τ.token r.eof
    unit := τ.unit r.unit
    nextId := τ.id r.nextId
    typeArgs := r.typeArgs.map τ.type
    generics := r.generics.map fun p => (p.1, τ.type p.2)
    errors := r.errors.map τ.diagnostic }

@[simp]
theorem reader_current (r : Reader) : (τ.reader r).current = τ.token r.current := by
  obtain ⟨tokens, eof⟩ := r
  cases tokens <;> rfl

@[simp]
theorem reader_kind (r : Reader) : (τ.reader r).kind = r.kind := by
  rw [Reader.kind, Reader.kind, τ.reader_current]
  rfl

@[simp]
theorem reader_peek (r : Reader) : (τ.reader r).peek = τ.token r.peek := by
  obtain ⟨tokens, eof⟩ := r
  match tokens with
  | [] | [_] | _ :: _ :: _ => rfl

@[simp]
theorem reader_hasTokens (r : Reader) : (τ.reader r).hasTokens = r.hasTokens := by
  rw [Reader.hasTokens, Reader.hasTokens, τ.reader_kind]

@[simp]
theorem reader_isSaturated (r : Reader) : (τ.reader r).isSaturated = r.isSaturated := by
  rw [Reader.isSaturated, Reader.isSaturated]
  simp [reader]

theorem reader_unexpected (r : Reader) (expected : String) :
    (τ.reader r).unexpected expected = τ.diagnostic (r.unexpected expected) := by
  rw [Reader.unexpected, Reader.unexpected, τ.reader_current, τ.start_token]
  rfl

theorem reader_generic? (r : Reader) (name : String) :
    (τ.reader r).generic? name = (r.generic? name).map τ.type :=
  Table.lookup_map Function.injective_id τ.type r.generics name

theorem name_empty : τ.name "" = "" :=
  τ.plain (by simp)

theorem primitive {name : String} {t : Ty} (h : Ty.primitive? name = some t) : τ.type t = t := by
  have all : ∀ p ∈ Ty.primitives, τ.type p.2 = p.2 := by
    simp only [Ty.primitives, List.forall_mem_cons, τ.void, τ.int, τ.uint, τ.float, true_and]
    exact nofun
  obtain ⟨before, after, same, _⟩ := List.lookup_eq_some_iff.mp h
  exact all (name, t) (by simp [same])

theorem name_getLastD (names : List String) :
    τ.name (names.getLastD "") = (names.map τ.name).getLastD "" := by
  rw [List.getLastD_eq_getLast?, List.getLastD_eq_getLast?, List.getLast?_map]
  cases names.getLast? with
  | none => exact τ.name_empty
  | some name => rfl

theorem signatureOf (name : String) (params : List (String × Ty)) (result : Ty) :
    τ.signature (Parse.signatureOf name params result) =
      Parse.signatureOf (τ.name name) (params.map fun p => (τ.name p.1, τ.type p.2))
        (τ.type result) := by
  simp [signature, Parse.signatureOf, Function.comp_def]

mutual

theorem isAssignable_expr : ∀ e : Expr, (τ.tree.expr e).isAssignable = e.isAssignable
  | ⟨.comma items, _, _⟩ => by
    rw [Relabelling.expr, Expr.isAssignable, Expr.isAssignable]
    exact areAssignable_exprs items
  | ⟨.binary op _ _, _, _⟩ => by cases op <;> rfl
  | ⟨.unary op _, _, _⟩ => by cases op <;> rfl
  | ⟨.ident _, _, _⟩ | ⟨.integer _, _, _⟩ | ⟨.float _, _, _⟩ | ⟨.string _, _, _⟩
  | ⟨.index _ _, _, _⟩ | ⟨.call _ _, _, _⟩ | ⟨.builtin _ _ _, _, _⟩ | ⟨.structLit _ _ _, _, _⟩
  | ⟨.arrayLit _ _, _, _⟩ | ⟨.function _ _, _, _⟩ => rfl

theorem areAssignable_exprs :
    ∀ es : List Expr, Expr.areAssignable (τ.tree.exprs es) = Expr.areAssignable es
  | [] => rfl
  | e :: es => by
    rw [Relabelling.exprs, Expr.areAssignable, Expr.areAssignable, isAssignable_expr e,
      areAssignable_exprs es]

end

end Translation

end FrontEnd
