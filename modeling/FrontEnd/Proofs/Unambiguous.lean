import FrontEnd.Proofs.Reading.Own

namespace FrontEnd

open Parse

mutual

/-- Whether the text of an expression is one that it is read from. Nothing is written after an
operator and its operand, which are printed without parentheses; no reference is taken, since its
operator could be half of another; no list stands where its items could; a member is a name; and
function literals are left out. -/
def Expr.isPlain : Expr → Bool
  | ⟨.ident _, _, _⟩ | ⟨.integer _, _, _⟩ | ⟨.string _, _, _⟩ => true
  | ⟨.float value, _, _⟩ => value.isPositional
  | ⟨.comma _, _, _⟩ | ⟨.function _ _, _, _⟩ => false
  | ⟨.binary op left right, _, _⟩ => left.isPlain &&
      if op = .dot then !left.isUnary && right.node matches .ident _ else right.isPlain
  | ⟨.unary op operand, _, _⟩ => op != .reference && operand.isPlain
  | ⟨.index base index, _, _⟩ => base.isPlain && !base.isUnary && index.isPlain
  | ⟨.call callee args, _, _⟩ => callee.isPlain && !callee.isUnary && Expr.arePlain args
  | ⟨.builtin _ _ args, _, _⟩ => Expr.arePlain args
  | ⟨.structLit _ _ fields, _, _⟩ => Expr.fieldsPlain fields
  | ⟨.arrayLit _ elements, _, _⟩ => Expr.arePlain elements

def Expr.arePlain : List Expr → Bool
  | [] => true
  | e :: es => e.isPlain && Expr.arePlain es

def Expr.fieldsPlain : List FieldInit → Bool
  | [] => true
  | ⟨_, e⟩ :: fs => e.isPlain && Expr.fieldsPlain fs

end

namespace Expr

theorem arePlain_iff {es : List Expr} : arePlain es = true ↔ ∀ e ∈ es, e.isPlain = true := by
  induction es with
  | nil => simp [arePlain]
  | cons e es ih => simp [arePlain, ih]

theorem fieldsPlain_iff {fs : List FieldInit} :
    fieldsPlain fs = true ↔ ∀ f ∈ fs, f.value.isPlain = true := by
  induction fs with
  | nil => simp [fieldsPlain]
  | cons f fs ih =>
    obtain ⟨name, value⟩ := f
    simp [fieldsPlain, ih]

end Expr

namespace Setting

/-- A unit that is given types that it could write itself, and has no errors. -/
def written (unit : String) : Setting :=
  ⟨.identity, unit, trivial, Ty.Source unit, False, False.elim⟩

variable {unit : String}

theorem Typed.source {t : Ty} (h : (written unit).Typed t) : t.Source unit := by
  induction h with
  | given source => exact source
  | primitive found => exact .primitive (Table.mem_of_lookup found)
  | pointer _ ih => exact .pointer ih
  | array _ small ih => exact .array ih small
  | func _ _ params result => exact .func params result
  | named modules name other => exact .named modules name other

/-- A plain expression that is read can be printed and read again. -/
def Shows (unit : String) : Phrase → Prop
  | .expr e => e.isPlain = true → e.Legible unit True
  | .field f => Name.IsWord f.name ∧ (f.value.isPlain = true → f.value.Legible unit True)
  | _ => True

theorem Tree.shows {a b : Nat} {p : Phrase} (h : (Setting.written unit).Tree a b p) :
    Shows unit p ∧ ∀ ps, p = .many ps → ∀ q ∈ ps, Shows unit q := by
  -- The items of a list are printed by what is said about all of them.
  have items {es : List Expr} (h : ∀ q ∈ es.map .expr, Shows unit q)
      (plain : Expr.arePlain es = true) : ∀ e ∈ es, e.Legible unit True := fun e mem =>
    h (.expr e) (List.mem_map_of_mem mem) (Expr.arePlain_iff.mp plain e mem)
  induction h with
  | ident own =>
    obtain ⟨w, word, rfl⟩ := own
    exact ⟨fun _ => .ident word, nofun⟩
  | integer _ small => exact ⟨fun _ => .integer small, nofun⟩
  | string => exact ⟨fun _ => .string, nofun⟩
  | float => exact ⟨.float trivial, nofun⟩
  | comma | function => exact ⟨nofun, nofun⟩
  | @binary _ _ _ op left _ _ _ hr first second =>
    refine ⟨fun plain => ?_, nofun⟩
    simp only [Expr.isPlain, Bool.and_eq_true] at plain
    obtain ⟨plainLeft, plainRight⟩ := plain
    by_cases dot : op = .dot
    · subst dot
      obtain ⟨notUnary, name⟩ : left.isUnary = false ∧ _ := by simpa using plainRight
      cases hr with
      | ident own =>
        obtain ⟨w, word, rfl⟩ := own
        exact .member (first.1 plainLeft) notUnary word
      | _ => cases name
    · rw [if_neg dot] at plainRight
      exact .binary (fun _ => trivial) dot (first.1 plainLeft) (second.1 plainRight)
  | unary _ ih =>
    refine ⟨fun plain => ?_, nofun⟩
    obtain ⟨other, operand⟩ : _ ∧ _ := by simpa [Expr.isPlain] using plain
    exact .unary other (ih.1 operand)
  | index _ _ first second =>
    refine ⟨fun plain => ?_, nofun⟩
    obtain ⟨⟨base, notUnary⟩, index⟩ : (_ ∧ _) ∧ _ := by simpa [Expr.isPlain] using plain
    exact .index (first.1 base) notUnary (second.1 index)
  | call _ _ first rest =>
    refine ⟨fun plain => ?_, nofun⟩
    obtain ⟨⟨callee, notUnary⟩, args⟩ : (_ ∧ _) ∧ _ := by simpa [Expr.isPlain] using plain
    exact .call (first.1 callee) notUnary (items (rest.2 _ rfl) args)
  | builtin known arity types _ ih =>
    exact ⟨fun plain => .builtin known arity (fun t mem => (types t mem).source)
      (items (ih.2 _ rfl) plain), nofun⟩
  | @structLit _ _ _ module? fields _ own owns _ ih =>
    refine ⟨fun plain => ?_, nofun⟩
    obtain ⟨w, word, rfl⟩ := own
    obtain ⟨words, rfl, modules⟩ : ∃ words : Option String,
        module? = words.map (Name.qualify · unit) ∧ ∀ m ∈ words, Name.IsWord m := by
      cases module? with
      | none => exact ⟨none, rfl, nofun⟩
      | some m =>
        obtain ⟨v, word, rfl⟩ := owns m rfl
        exact ⟨some v, rfl, by simpa using word⟩
    have field (f : FieldInit) (mem : f ∈ fields) := ih.2 _ rfl (.field f) (List.mem_map_of_mem mem)
    exact .structLit word modules (fun f mem => (field f mem).1) fun f mem =>
      (field f mem).2 (Expr.fieldsPlain_iff.mp plain f mem)
  | @arrayLit _ _ ty _ _ typed isArray _ ih =>
    refine ⟨fun plain => ?_, nofun⟩
    cases ty with
    | array => exact .arrayLit typed.source (items (ih.2 _ rfl) plain)
    | _ => cases isArray
  | field word _ ih => exact ⟨⟨word, ih.1⟩, nofun⟩
  | nil => exact ⟨trivial, by simp⟩
  | cons _ _ first rest =>
    refine ⟨trivial, fun ps same => ?_⟩
    cases same
    exact List.forall_mem_cons.mpr ⟨first.1, rest.2 _ rfl⟩
  | lost lossy => exact lossy.elim
  | _ => exact ⟨trivial, nofun⟩

end Setting

/-- The expression that a unit is read as, if it is read without errors as nothing else. -/
def ReadResult.expression? (r : ReadResult) : Option Expr :=
  match r.errors, r.program.statements with
  | [], [.expression _ e] => some e
  | _, _ => none

section

variable {c c' : Cursor} {o o' : ReadOptions} {e e' : Expr}

theorem Program.legible_read (sources : ∀ t ∈ o.typeArgs, t.Source o.unit)
    (read : (Program.read c o).expression? = some e) (plain : e.isPlain = true) :
    e.Legible o.unit True := by
  unfold ReadResult.expression? at read
  split at read
  case h_1 token _ noErrors only =>
    cases read
    have trees := ((Setting.written o.unit).tree_read c rfl sources).2 (.inr noErrors)
    obtain ⟨_, _, tree⟩ := trees.of_mem (p := .stmt (.expression token e)) (by simp [only])
    cases tree with
    | expression tree => exact tree.shows.1 plain
  case h_2 => cases read

theorem Expr.Legible.alike_of_same_text {unit : String} {more : Prop} (h : e.Legible unit more)
    (h' : e'.Legible unit more) (text : e.text = e'.text) : e.Alike e' := by
  let r : Reader := .ofCursor (.ofSource "" "") ⟨unit, [], 0, 1⟩
  -- Read as an expression and not as a statement, since an assignment alone is one of its own.
  have reads {e : Expr} (h : e.Legible unit more) : ∃ e₁, Reads r
      ((Nested.within ((Cursor.ofSource e.text "").size + 1)).expr .default)
        (.ofSource e.text "") e₁
      ⟨[], (Position.start "").pastAll e.text.toList⟩ ∧ e₁.Alike e := by
    have past := Cursor.past_ofSource e.text ""
    have stops : Nested.Stops r .default ⟨[], (Position.start "").pastAll e.text.toList⟩ :=
      Nested.stops_of_none (by rw [r.kind_before_nil rfl]; rfl)
    exact ((h.readsBack (r := r) rfl).expr (Nat.le_refl _) past ⟨nofun, nofun⟩ (by decide) stops).2
  obtain ⟨e₁, read, alike⟩ := reads h
  obtain ⟨e₂, read', alike'⟩ := reads h'
  rw [text] at read
  obtain rfl := Except.ok.inj (congrArg Prod.fst (read.symm.trans read'))
  exact alike.symm.trans alike'

/-- Two units that are read as one plain expression each, with the same text, are read as the same
tree up to tokens and annotated types. -/
theorem Program.alike_of_text (unit : o'.unit = o.unit)
    (sources : ∀ t ∈ o.typeArgs ++ o'.typeArgs, t.Source o.unit)
    (read : (Program.read c o).expression? = some e)
    (read' : (Program.read c' o').expression? = some e') (plain : e.isPlain = true)
    (plain' : e'.isPlain = true) (text : e.text = e'.text) : e.Alike e' := by
  obtain ⟨here, there⟩ := List.forall_mem_append.mp sources
  have h := legible_read here read plain
  have h' := legible_read (unit ▸ there) read' plain'
  rw [unit] at h'
  exact h.alike_of_same_text h' text

end

theorem Program.alike_of_text_sum :
    ∃ e e', (Program.read (.ofSource "-x(1.50) * (y = 2)" "f") ⟨"0", [], 0, 1⟩).expression? =
        some e ∧
      (Program.read (.ofSource "(-(x(01.5)))*(y=(2))" "g") ⟨"0", [], 3, 9⟩).expression? =
        some e' ∧
      e.text = "(-x(1.5)*(y=2))" ∧ e.Alike e' := by
  have first : (Program.read (.ofSource "-x(1.50) * (y = 2)" "f") ⟨"0", [], 0, 1⟩).expression?.any
      (fun e => e.isPlain && e.text == "(-x(1.5)*(y=2))") = true := by decide +kernel
  have second :
      (Program.read (.ofSource "(-(x(01.5)))*(y=(2))" "g") ⟨"0", [], 3, 9⟩).expression?.any
      (fun e => e.isPlain && e.text == "(-x(1.5)*(y=2))") = true := by decide +kernel
  obtain ⟨e, read, h⟩ := (Option.any_eq_true _ _).mp first
  obtain ⟨e', read', h'⟩ := (Option.any_eq_true _ _).mp second
  simp only [Bool.and_eq_true, beq_iff_eq] at h h'
  exact ⟨e, e', read, read', h.2, Program.alike_of_text (by rfl) (by simp) read read' h.1 h'.1
    (h.2.trans h'.2.symm)⟩

/-- What is called after a negation is printed as the negation of what is called. -/
theorem Program.text_of_call_of_negation :
    ∃ e e', (Program.read (.ofSource "(-x)(1)" "f") ⟨"0", [], 0, 1⟩).expression? = some e ∧
      (Program.read (.ofSource "-x(1)" "f") ⟨"0", [], 0, 1⟩).expression? = some e' ∧
      e.text = e'.text ∧ ¬ e.Alike e' := by
  have first : (Program.read (.ofSource "(-x)(1)" "f") ⟨"0", [], 0, 1⟩).expression?.any (fun e =>
    !e.isUnary && e.text == "-x(1)") = true := by decide +kernel
  have second : (Program.read (.ofSource "-x(1)" "f") ⟨"0", [], 0, 1⟩).expression?.any (fun e =>
    e.isUnary && e.text == "-x(1)") = true := by decide +kernel
  obtain ⟨e, read, h⟩ := (Option.any_eq_true _ _).mp first
  obtain ⟨e', read', h'⟩ := (Option.any_eq_true _ _).mp second
  simp only [Bool.and_eq_true, beq_iff_eq, Bool.not_eq_true'] at h h'
  refine ⟨e, e', read, read', h.2.trans h'.2.symm, fun alike => ?_⟩
  have kept (e : Expr) : (Relabelling.erasure.expr e).isUnary = e.isUnary := by
    obtain ⟨node, _, _⟩ := e
    cases node <;> rfl
  rw [← kept, alike, kept, h'.1] at h
  cases h.1

end FrontEnd
