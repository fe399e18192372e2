import FrontEnd.Proofs.Grammar
import FrontEnd.Proofs.Reading.Exprs

namespace FrontEnd

open Parse Nested

namespace Grammar

namespace Tier

/-- The power with which the operands of the tier are asked for. -/
def power : Tier → Power
  | .logical => .logical
  | .relational => .relational
  | .additive => .additive
  | .bitwise => .bitwise
  | .multiplicative => .multiplicative
  | .unary => .unary
  | .primary => .member

/-- The weakest power that goes on inside an expression of the tier. -/
def loosest : Tier → Power
  | .unary | .primary => .call
  | t => t.power

variable {t u : Tier} {op : InfixOp} {p : Power}

theorem not_power_lt (h : p < t.loosest) : ¬ t.power < p := by
  cases t <;> exact Nat.not_lt.mpr (Nat.le_of_lt_succ (Nat.lt_of_lt_of_le h (by decide)))

theorem power_of_ofOp? (h : ofOp? op = some t) : op.power = t.power ∧ t.loosest = t.power := by
  cases op <;> cases h <;> exact ⟨rfl, rfl⟩

theorem power_lt_loosest_next? (h : ofOp? op = some t) (next : t.next? = some u) :
    op.power < u.loosest := by
  cases op <;> cases h <;> cases next <;> decide

theorem loosest_next? (next : t.next? = some u) (h : p < t.loosest) : p < u.loosest := by
  cases t <;> cases next <;> exact Nat.lt_of_lt_of_le h (by decide)

theorem power_next? (next : t.next? = some u) : ¬ u.power < t.power := by
  cases t <;> cases next <;> decide

end Tier

theorem Derives.begins {unit : String} {p : Phrase} {xs : List Lexeme} (h : Derives unit p xs) :
    ∃ x ys, xs = x :: ys ∧ x.kind.prefixForm?.isSome = true := by
  induction h with
  | next _ _ ih | argument _ ih => exact ih
  | unary op => exact ⟨op.lexeme, _, rfl, by cases op <;> rfl⟩
  | ident => exact ⟨_, _, rfl, rfl⟩
  | integer numeral => exact ⟨_, _, rfl, by cases numeral <;> rfl⟩
  | group => exact ⟨_, _, rfl, rfl⟩
  | binary _ _ _ _ ih | callNone _ ih | call _ _ ih | index _ _ ih | member _ _ ih
  | arguments _ _ ih =>
    obtain ⟨x, ys, rfl, begins⟩ := ih
    exact ⟨x, _, rfl, begins⟩

def Phrase.IsBare : Phrase → Prop
  | .expr _ e => Relabelling.erasure.expr e = e
  | .arguments es => Relabelling.erasure.exprs es = es

theorem Derives.isBare {unit : String} {p : Phrase} {xs : List Lexeme} (h : Derives unit p xs) :
    p.IsBare := by
  induction h with
  | next _ _ ih | group _ ih => exact ih
  | ident | integer => rfl
  | unary op _ ih => exact congrArg (fun e => bare (.unary op e)) ih
  | @binary op _ _ _ _ _ _ _ _ _ _ ih ih' =>
    exact congrArg₂ (fun left right => bare (.binary op left right)) ih ih'
  | index _ _ ih ih' => exact congrArg₂ (fun base index => bare (.index base index)) ih ih'
  | call _ _ ih ih' => exact congrArg₂ (fun callee args => bare (.call callee args)) ih ih'
  | callNone _ ih => exact congrArg (fun callee => bare (.call callee [])) ih
  | member _ _ ih => exact congrArg (fun base => bare (.binary .dot base (bare _))) ih
  | argument _ ih => exact congrArg (fun e => [e]) ih
  | arguments _ _ ih ih' => exact congrArg₂ List.cons ih ih'

/-- The phrase is read wherever its lexemes stand, before a token that does not go on with it. An
expression is the front of one that may go on at a weaker power; arguments are read up to the
parenthesis that closes them. -/
def Phrase.ReadBy (r : Reader) : Phrase → List Lexeme → Prop
  | .expr t e, xs => ∀ n power c c', c.size ≤ n → c.Spells xs c' → power < t.loosest →
      Stops r t.power c' → Begins r (within n) power c e c'
  | .arguments es, xs => ∀ n c c' c'' text span before, c.size ≤ n → c.Spells xs c' →
      c'.Takes ⟨.closeParen, text, span⟩ c'' →
      ∃ es', Steps r (commaStep .closeParen ((within (n + 1)).argument .closeParen)) before c
          (es'.reverse ++ before) c' ∧ List.Forall₂ Expr.Alike es' es

namespace Phrase.ReadBy

variable {r : Reader} {t u : Tier} {e left right : Expr} {es : List Expr} {xs ys : List Lexeme}
  {c c' c'' : Cursor} {n : Nat} {p : Power}

theorem reads (h : (Phrase.expr t e).ReadBy r xs) (enough : c.size ≤ n) (spells : c.Spells xs c')
    (tighter : p < t.loosest) (stops : Stops r p c') :
    c'.size < c.size ∧ ∃ e', Reads r ((within (n + 1)).expr p) c e' c' ∧ e'.Alike e := by
  have begins := h n p c c' enough spells tighter (stops.mono (Tier.not_power_lt tighter))
  exact ⟨begins.size_lt, begins.expression stops⟩

theorem next (further : t.next? = some u) (h : (Phrase.expr u e).ReadBy r xs) :
    (Phrase.expr t e).ReadBy r xs :=
  fun n p c c' enough spells tighter stops =>
    h n p c c' enough spells (Tier.loosest_next? further tighter)
      (stops.mono (Tier.power_next? further))

theorem binary {op : InfixOp} (tier : Tier.ofOp? op = some t) (further : t.next? = some u)
    (hl : (Phrase.expr t left).ReadBy r xs) (hr : (Phrase.expr u right).ReadBy r ys) :
    (Phrase.expr t (bare (.binary op left right))).ReadBy r (xs ++ op.lexeme :: ys) := by
  intro n p c c' enough spells tighter stops
  obtain ⟨c₁, spellsLeft, spells⟩ := spells.split
  obtain ⟨span, c₂, operator, spellsRight⟩ := spells.uncons
  have notDot : op ≠ .dot := by
    rintro rfl
    cases tier
  obtain ⟨same, weakest⟩ := Tier.power_of_ofOp? tier
  -- An operator of the same tier does not go on with the left operand's last operand.
  have here : Stops r t.power c₁ := by
    intro form found
    rw [r.kind_before operator] at found
    obtain rfl := Option.some.inj ((infixForm?_kind notDot).symm.trans found)
    rw [InfixForm.power, same]
    exact Nat.lt_irrefl _
  have begins := hl n p c c₁ enough spellsLeft tighter here
  obtain ⟨m, rfl, enough₂⟩ := exists_depth operator
    (Nat.le_trans (Nat.le_of_lt begins.size_lt) enough)
  obtain ⟨shorter, right', read, alike⟩ := hr.reads enough₂ spellsRight
    (Tier.power_lt_loosest_next? tier further) (same ▸ stops)
  rw [weakest, ← same] at tighter
  exact begins.operator operator notDot tighter read shorter alike

theorem unary (op : PrefixOp) (h : (Phrase.expr .unary e).ReadBy r xs) :
    (Phrase.expr .unary (bare (.unary op e))).ReadBy r (op.lexeme :: xs) := by
  intro n p c c' enough spells _ stops
  obtain ⟨span, c₁, operator, spells⟩ := spells.uncons
  obtain ⟨m, rfl, enough₁⟩ := exists_depth operator enough
  obtain ⟨shorter, e', read, alike⟩ := h.reads enough₁ spells (by decide) stops
  exact .of_first (reads_first_unary operator read) (Nat.lt_trans shorter operator.size_lt)
    (.unary op alike)

theorem ident (w : String) :
    (Phrase.expr .primary (bare (.ident (Name.qualify w r.unit)))).ReadBy r [⟨.identifier, w⟩] := by
  intro n p c c' _ spells _ _
  obtain ⟨span, takes⟩ := spells.single
  exact .of_first (reads_first_word takes) takes.size_lt rfl

theorem integer {x : Lexeme} {m : Nat} (numeral : Numeral x m) (fits : m < Word.signedLimit) :
    (Phrase.expr .primary (bare (.integer m))).ReadBy r [x] := by
  intro n p c c' _ spells _ _
  obtain ⟨span, takes⟩ := spells.single
  have value : Literal.integer? ⟨x.kind, x.text, span⟩ = some m := by
    rw [Literal.integer?, Literal.below?, numeral.natural?, Option.filter_some,
      if_pos (by simpa using fits)]
  exact .of_first (reads_first_integer value takes) takes.size_lt rfl

theorem group (h : (Phrase.expr .logical e).ReadBy r xs) :
    (Phrase.expr .primary e).ReadBy r (⟨.openParen, "("⟩ :: (xs ++ [⟨.closeParen, ")"⟩])) := by
  intro n p c c' enough spells _ _
  obtain ⟨_, c₁, opens, spells⟩ := spells.uncons
  obtain ⟨c₂, inside, spells⟩ := spells.split
  obtain ⟨_, closes⟩ := spells.single
  obtain ⟨m, rfl, enough₁⟩ := exists_depth opens enough
  have begins := h m .default c₁ c₂ enough₁ inside (by decide) (stops_closeParen closes)
  obtain ⟨e', read, shorter, alike⟩ := reads_group opens begins closes
  exact .of_first read shorter alike

theorem index (hb : (Phrase.expr .primary left).ReadBy r xs)
    (hi : (Phrase.expr .logical right).ReadBy r ys) :
    (Phrase.expr .primary (bare (.index left right))).ReadBy r
      (xs ++ ⟨.openBracket, "["⟩ :: (ys ++ [⟨.closeBracket, "]"⟩])) := by
  intro n p c c' enough spells tighter _
  obtain ⟨c₁, spellsBase, spells⟩ := spells.split
  obtain ⟨_, c₂, opens, spells⟩ := spells.uncons
  obtain ⟨c₃, inside, spells⟩ := spells.split
  obtain ⟨_, closes⟩ := spells.single
  have begins := hb n p c c₁ enough spellsBase tighter stops_member
  obtain ⟨m, rfl, enough₂⟩ := exists_depth opens (Nat.le_trans (Nat.le_of_lt begins.size_lt) enough)
  have stops : Stops r .default c₃ := stops_of_none (by rw [r.kind_before closes]; rfl)
  obtain ⟨shorter, index', read, alike⟩ := hi.reads enough₂ inside (by decide) stops
  exact begins.index opens read shorter closes alike (Nat.lt_trans tighter (by decide))

theorem member (w : String) (hb : (Phrase.expr .primary left).ReadBy r xs) :
    (Phrase.expr .primary
      (bare (.binary .dot left (bare (.ident (Name.qualify w r.unit)))))).ReadBy r
        (xs ++ [⟨.dot, "."⟩, ⟨.identifier, w⟩]) := by
  intro n p c c' enough spells tighter _
  obtain ⟨c₁, spellsBase, spells⟩ := spells.split
  obtain ⟨_, c₂, dot, spells⟩ := spells.uncons
  obtain ⟨_, word⟩ := spells.single
  have begins := hb n p c c₁ enough spellsBase tighter stops_member
  obtain ⟨m, rfl, _⟩ := exists_depth dot (Nat.le_trans (Nat.le_of_lt begins.size_lt) enough)
  exact begins.member dot word (Nat.lt_trans tighter (by decide))

section Calls

variable {text : String} {span : Span}

theorem reads_arguments {read : List Expr}
    (steps : Steps r (commaStep .closeParen ((within (n + 1)).argument .closeParen)) [] c read c')
    (closes : c'.Takes ⟨.closeParen, text, span⟩ c'') :
    Reads r ((within (n + 1)).arguments .closeParen) c read.reverse c'' ∧ c''.size < c.size := by
  have last := reads_commaStep_end (r := r) ((within (n + 1)).argument .closeParen) closes read
  have := steps.size_le
  have := closes.size_lt
  exact ⟨(steps.loop last).bind (reads_pure _), by omega⟩

theorem callNone (h : (Phrase.expr .primary left).ReadBy r xs) :
    (Phrase.expr .primary (bare (.call left []))).ReadBy r
      (xs ++ [⟨.openParen, "("⟩, ⟨.closeParen, ")"⟩]) := by
  intro n p c c' enough spells tighter _
  obtain ⟨c₁, spellsCallee, spells⟩ := spells.split
  obtain ⟨_, c₂, opens, spells⟩ := spells.uncons
  obtain ⟨_, closes⟩ := spells.single
  have begins := h n p c c₁ enough spellsCallee tighter stops_member
  obtain ⟨m, rfl, _⟩ := exists_depth opens (Nat.le_trans (Nat.le_of_lt begins.size_lt) enough)
  obtain ⟨read, shorter⟩ := reads_arguments (r := r) (n := m) (.refl [] c₂) closes
  exact begins.call opens read shorter .nil tighter

theorem call (h : (Phrase.expr .primary left).ReadBy r xs)
    (hs : (Phrase.arguments es).ReadBy r ys) :
    (Phrase.expr .primary (bare (.call left es))).ReadBy r
      (xs ++ ⟨.openParen, "("⟩ :: (ys ++ [⟨.closeParen, ")"⟩])) := by
  intro n p c c' enough spells tighter _
  obtain ⟨c₁, spellsCallee, spells⟩ := spells.split
  obtain ⟨_, c₂, opens, spells⟩ := spells.uncons
  obtain ⟨c₃, inside, spells⟩ := spells.split
  obtain ⟨_, closes⟩ := spells.single
  have begins := h n p c c₁ enough spellsCallee tighter stops_member
  obtain ⟨m, rfl, enough₂⟩ := exists_depth opens (Nat.le_trans (Nat.le_of_lt begins.size_lt) enough)
  obtain ⟨es', steps, alike⟩ := hs m c₂ c₃ c' _ _ [] enough₂ inside closes
  obtain ⟨read, shorter⟩ := reads_arguments steps closes
  rw [List.append_nil, List.reverse_reverse] at read
  exact begins.call opens read shorter alike tighter

theorem reads_argument {unit : String} (derives : Derives unit (.expr .logical e) xs)
    (h : (Phrase.expr .logical e).ReadBy r xs) (enough : c.size ≤ n) (spells : c.Spells xs c')
    (stops : Stops r .comma c') :
    (r.before c).kind ≠ .closeParen ∧ c'.size < c.size ∧
      ∃ e', Reads r ((within (n + 1)).argument .closeParen) c e' c' ∧ e'.Alike e := by
  obtain ⟨shorter, e', read, alike⟩ := h.reads enough spells (by decide) stops
  obtain ⟨x, ys, rfl, begins⟩ := derives.begins
  obtain ⟨_, c₁, takes, _⟩ := spells.uncons
  exact ⟨kind_ne_of_begins takes begins rfl, shorter, e', Nested.reads_argument takes begins read,
    alike⟩

theorem argument {unit : String} (derives : Derives unit (.expr .logical e) xs)
    (h : (Phrase.expr .logical e).ReadBy r xs) : (Phrase.arguments [e]).ReadBy r xs := by
  intro n c c' c'' text span before enough spells closes
  obtain ⟨more, shorter, e', read, alike⟩ :=
    reads_argument derives h enough spells (stops_closeParen closes)
  have step := reads_commaStep_last (by decide) closes more read before
  exact ⟨[e'], .head step shorter (.refl _ _), .cons alike .nil⟩

theorem arguments {unit : String} (derives : Derives unit (.expr .logical e) xs)
    (h : (Phrase.expr .logical e).ReadBy r xs) (hs : (Phrase.arguments es).ReadBy r ys) :
    (Phrase.arguments (e :: es)).ReadBy r (xs ++ ⟨.comma, ","⟩ :: ys) := by
  intro n c c' c'' text span before enough spells closes
  obtain ⟨c₁, spellsFirst, spells⟩ := spells.split
  obtain ⟨_, c₂, comma, spellsRest⟩ := spells.uncons
  have stops : Stops r .comma c₁ := by
    intro form found
    rw [r.kind_before comma] at found
    cases found
    decide
  obtain ⟨more, shorter, e', read, alike⟩ := reads_argument derives h enough spellsFirst stops
  have step := reads_commaStep_comma comma more read before
  have less := Nat.lt_trans comma.size_lt shorter
  obtain ⟨es', steps, alikes⟩ := hs n c₂ c' c'' text span (e' :: before)
    (Nat.le_trans (Nat.le_of_lt less) enough) spellsRest closes
  refine ⟨e' :: es', .head step less ?_, .cons alike alikes⟩
  simpa using steps

end Calls

end Phrase.ReadBy

theorem Derives.readBy {r : Reader} {p : Phrase} {xs : List Lexeme} (h : Derives r.unit p xs) :
    p.ReadBy r xs := by
  induction h with
  | next further _ ih => exact .next further ih
  | binary tier further _ _ ihl ihr => exact .binary tier further ihl ihr
  | unary op _ ih => exact .unary op ih
  | ident _ => exact .ident _
  | integer numeral fits => exact .integer numeral fits
  | group _ ih => exact .group ih
  | callNone _ ih => exact .callNone ih
  | call _ _ ih ihs => exact .call ih ihs
  | index _ _ ihb ihi => exact .index ihb ihi
  | member _ _ ih => exact .member _ ih
  | argument derives ih => exact .argument derives ih
  | arguments derives _ ih ihs => exact .arguments derives ih ihs

def mixedSample : List Lexeme :=
  [⟨.dash, "-"⟩, ⟨.identifier, "a"⟩, ⟨.dot, "."⟩, ⟨.identifier, "b"⟩, ⟨.dash, "-"⟩,
   ⟨.identifier, "c"⟩, ⟨.openBracket, "["⟩, ⟨.integer, "1"⟩, ⟨.closeBracket, "]"⟩, ⟨.dash, "-"⟩,
   ⟨.identifier, "d"⟩, ⟨.star, "*"⟩, ⟨.hex, "0x2"⟩, ⟨.equals, "=="⟩, ⟨.identifier, "f"⟩,
   ⟨.openParen, "("⟩, ⟨.identifier, "g"⟩, ⟨.closeParen, ")"⟩]

def mixedTree : Expr :=
  bare (.binary .equals
    (bare (.binary .subtract
      (bare (.binary .subtract
        (bare (.unary .negate (bare (.binary .dot (bare (.ident "a-0")) (bare (.ident "b-0"))))))
        (bare (.index (bare (.ident "c-0")) (bare (.integer 1))))))
      (bare (.binary .multiply (bare (.ident "d-0")) (bare (.integer 2))))))
    (bare (.call (bare (.ident "f-0")) [bare (.ident "g-0")])))

theorem numeral_one : Numeral ⟨.integer, "1"⟩ 1 :=
  @Numeral.decimal ['1'] nofun (List.all_eq_true.mp rfl)

theorem numeral_two : Numeral ⟨.hex, "0x2"⟩ 2 :=
  @Numeral.hex ['2'] nofun (List.all_eq_true.mp rfl)

theorem flat_mixedSample : Flat .sequence mixedSample := by
  have word (w : String) (h : Name.IsWord w) : Flat .primary [⟨.identifier, w⟩] := .ident h
  have a := Flat.member (word "a" (by decide +kernel)) (w := "b") (by decide +kernel)
  have c := Flat.index (word "c" (by decide +kernel))
    (.operand (.primary (.integer numeral_one (by decide))))
  have d := word "d" (by decide +kernel)
  have f := Flat.call (word "f" (by decide +kernel))
    (.argument (.operand (.primary (word "g" (by decide +kernel)))))
  have first := Flat.operand (.unary .negate (.primary a))
  have second := @Flat.operator _ _ .subtract nofun nofun first (.primary c)
  have third := @Flat.operator _ _ .subtract nofun nofun second (.primary d)
  have fourth := @Flat.operator _ _ .multiply nofun nofun third
    (.primary (.integer numeral_two (by decide)))
  exact @Flat.operator _ _ .equals nofun nofun fourth (.primary f)

theorem derives_mixedTree : Derives "0" (.expr .logical mixedTree) mixedSample := by
  have word (w : String) (h : Name.IsWord w) :
      Derives "0" (.expr .primary (bare (.ident (Name.qualify w "0")))) [⟨.identifier, w⟩] :=
    .ident h
  have a := Derives.unary .negate
    (.next rfl (.member (word "a" (by decide +kernel)) (w := "b") (by decide +kernel)))
  have c := Derives.index (word "c" (by decide +kernel))
    ((Derives.integer numeral_one (by decide)).weaken (by decide))
  have d := word "d" (by decide +kernel)
  have two : Derives "0" _ _ := .integer numeral_two (by decide)
  have f := Derives.call (word "f" (by decide +kernel))
    (.argument ((word "g" (by decide +kernel)).weaken (by decide)))
  have product := @Derives.binary _ .multiply .multiplicative .unary _ _ _ _ rfl rfl
    (d.weaken (by decide)) (two.weaken (by decide))
  have inner := @Derives.binary _ .subtract .additive .bitwise _ _ _ _ rfl rfl
    (a.weaken (by decide)) (c.weaken (by decide))
  have outer := @Derives.binary _ .subtract .additive .bitwise _ _ _ _ rfl rfl
    inner (product.weaken (by decide))
  have comparison := @Derives.binary _ .equals .relational .additive _ _ _ _ rfl rfl
    (outer.weaken (by decide)) (f.weaken (by decide))
  exact comparison.weaken (by decide)

end Grammar

namespace Parse

open Grammar

variable {r : Reader} {c c' : Cursor} {xs : List Lexeme}

theorem reads_expression {e : Expr} (derives : Derives r.unit (.expr .logical e) xs)
    (spells : c.Spells xs c') (ended : (r.before c').kind.infixForm? = none) :
    ∃ e', Reads r (expression .default) c e' c' ∧ e'.Alike e := by
  have enough : c.size ≤ 2 * (r.before c).tokens.length + 1 := by
    have := r.length_before c
    omega
  have whole := derives.readBy.reads (p := .default) enough spells (by decide) (stops_of_none ended)
  obtain ⟨_, e', read, alike⟩ := whole
  exact ⟨e', Reads.bind (reads_get (reads_pure _)) read, alike⟩

/-- Operands with operators between them, in a text that keeps the lexemes apart, are read as an
expression up to a token that cannot go on with it. No error is recorded, and the tree is the only
one that the stratified grammar derives. -/
theorem expression_stratified {text : List Char} (flat : Flat .sequence xs)
    (spaced : Lexeme.Spaced xs text) (past : c.Past text c') (apart : Pattern.Apart c'.rest)
    (ended : (r.before c').kind.infixForm? = none) :
    ∃ e, Reads r (expression .default) c e c' ∧
      ∀ tree, Derives r.unit (.expr .logical tree) xs ↔ tree = Relabelling.erasure.expr e := by
  have spells := past.spells spaced flat.alone apart
  obtain ⟨first, derives⟩ := flat.exists_derives r.unit
  obtain ⟨e, read, alike⟩ := reads_expression derives spells ended
  refine ⟨e, read, fun tree => ⟨fun other => ?_, ?_⟩⟩
  · obtain ⟨e', read', alike'⟩ := reads_expression other spells ended
    obtain rfl : e = e' := by
      rw [Reads, read] at read'
      exact Except.ok.inj (congrArg Prod.fst read')
    exact (alike'.trans other.isBare).symm
  · rintro rfl
    have same : Relabelling.erasure.expr e = first := alike.trans derives.isBare
    rwa [same]

theorem expression_stratified_mixed :
    ∃ e c', c'.rest = [] ∧
      Reads (.ofCursor (.ofSource "" "f") ⟨"0", [], 7, 1⟩) (expression .default)
        (.ofSource "- a . b - c [ 1 ] - d * 0x2 == f ( g )" "f") e c' ∧
      Relabelling.erasure.expr e = mixedTree := by
  have text : [' '].intercalate (mixedSample.map Lexeme.chars) =
      "- a . b - c [ 1 ] - d * 0x2 == f ( g )".toList := by
    decide +kernel
  have spaced := text ▸ Lexeme.spaced_intercalate mixedSample
  have unit : (Reader.ofCursor (.ofSource "" "f") ⟨"0", [], 7, 1⟩).unit = "0" := rfl
  generalize Reader.ofCursor (.ofSource "" "f") ⟨"0", [], 7, 1⟩ = r at unit ⊢
  obtain ⟨e, read, unique⟩ := expression_stratified flat_mixedSample spaced
    (Cursor.past_ofSource _ "f") nofun (by rw [r.kind_before_nil rfl]; rfl)
  rw [unit] at unique
  exact ⟨e, _, rfl, read, ((unique mixedTree).mp derives_mixedTree).symm⟩

/-- A number that fits no signed word is written like the others, and is an error. -/
theorem expression_unfit_numeral :
    Numeral ⟨.integer, "9223372036854775808"⟩ Word.signedLimit ∧
      ((expression .default).run
          (.ofCursor (.ofSource "9223372036854775808" "f") ⟨"0", [], 7, 1⟩)).1 =
        .error ⟨.parse (.numberParseError "9223372036854775808"), .start "f"⟩ :=
  ⟨@Numeral.decimal "9223372036854775808".toList nofun (List.all_eq_true.mp rfl), rfl⟩

end Parse

end FrontEnd
