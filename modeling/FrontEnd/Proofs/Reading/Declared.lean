import FrontEnd.Proofs.Reading.Own
import FrontEnd.Proofs.Syntax.Labels

namespace FrontEnd

namespace Label

def record? : Label → Option Record
  | .record decl => some decl
  | _ => none

def declared (ls : List Label) : List Record :=
  ls.filterMap record?

variable {ls ms : List Label}

@[simp]
theorem declared_nil : declared [] = [] :=
  rfl

@[simp]
theorem declared_append : declared (ls ++ ms) = declared ls ++ declared ms :=
  List.filterMap_append

@[simp]
theorem declared_token {t : Token} : declared (.token t :: ls) = declared ls :=
  rfl

@[simp]
theorem declared_type {t : Ty} : declared (.type t :: ls) = declared ls :=
  rfl

@[simp]
theorem declared_inferred {t : Ty} : declared (.inferred t :: ls) = declared ls :=
  rfl

@[simp]
theorem declared_signature {sig : Signature} : declared (.signature sig :: ls) = declared ls :=
  rfl

@[simp]
theorem declared_record {decl : Record} : declared (.record decl :: ls) = decl :: declared ls :=
  rfl

@[simp]
theorem declared_types {ts : List Ty} : declared (ts.map .type) = [] := by
  induction ts with
  | nil => rfl
  | cons t ts ih => rw [List.map_cons, declared_type, ih]

end Label

open Label

def Expr.declared (e : Expr) : List Record :=
  Label.declared e.labels

def Stmt.declared (x : Stmt) : List Record :=
  Label.declared x.labels

def Branch.declared (b : Branch) : List Record :=
  b.condition.declared ++ b.body.flatMap Stmt.declared

@[simp]
theorem Label.declared_labelsOf (es : List Expr) :
    Label.declared (Expr.labelsOf es) = es.flatMap Expr.declared := by
  induction es with
  | nil => rfl
  | cons e es ih => rw [Expr.labelsOf, declared_append, ih, List.flatMap_cons, Expr.declared]

@[simp]
theorem Label.declared_labelsOfFields (fs : List FieldInit) :
    Label.declared (Expr.labelsOfFields fs) = fs.flatMap fun f => f.value.declared := by
  induction fs with
  | nil => rfl
  | cons f fs ih =>
    obtain ⟨name, value⟩ := f
    rw [Expr.labelsOfFields, declared_append, ih, List.flatMap_cons, Expr.declared]

@[simp]
theorem Label.declared_stmts (xs : List Stmt) :
    Label.declared (Stmt.labelsOf xs) = xs.flatMap Stmt.declared := by
  induction xs with
  | nil => rfl
  | cons x xs ih => rw [Stmt.labelsOf, declared_append, ih, List.flatMap_cons, Stmt.declared]

@[simp]
theorem Label.declared_branches (bs : List Branch) :
    Label.declared (Stmt.labelsOfBranches bs) = bs.flatMap Branch.declared := by
  induction bs with
  | nil => rfl
  | cons b bs ih =>
    obtain ⟨condition, body⟩ := b
    simp [Stmt.labelsOfBranches, ih, Branch.declared, Expr.declared]

/-- Records of a unit with larger and larger ids, from `lo` on and below `hi`. -/
structure Handed (unit : String) (lo hi : Nat) (decls : List Record) : Prop where
  increasing : decls.Pairwise fun a b => a.id < b.id
  inside : ∀ decl ∈ decls, lo ≤ decl.id ∧ decl.id < hi
  own : ∀ decl ∈ decls, Name.Own unit decl.name

namespace Handed

variable {unit : String} {lo mid hi : Nat} {decls more : List Record}

theorem nil : Handed unit lo hi [] :=
  ⟨.nil, nofun, nofun⟩

theorem append (h : Handed unit lo mid decls) (h' : Handed unit mid hi more) (le : lo ≤ mid)
    (le' : mid ≤ hi) : Handed unit lo hi (decls ++ more) where
  increasing := List.pairwise_append.mpr ⟨h.increasing, h'.increasing, fun d hd e he =>
    (h.inside d hd).2.trans_le (h'.inside e he).1⟩
  inside := List.forall_mem_append.mpr
    ⟨fun d hd => ⟨(h.inside d hd).1, (h.inside d hd).2.trans_le le'⟩,
      fun d hd => ⟨le.trans (h'.inside d hd).1, (h'.inside d hd).2⟩⟩
  own := List.forall_mem_append.mpr ⟨h.own, h'.own⟩

end Handed

mutual

def Phrase.declared : Phrase → List Record
  | .expr e => e.declared
  | .field f => f.value.declared
  | .stmt x => x.declared
  | .branch b => b.declared
  | .many ps => Phrase.declaredAll ps

def Phrase.declaredAll : List Phrase → List Record
  | [] => []
  | p :: ps => p.declared ++ Phrase.declaredAll ps

end

namespace Phrase

variable {α : Type}

theorem declaredAll_map (part : α → Phrase) (xs : List α) :
    declaredAll (xs.map part) = xs.flatMap fun x => (part x).declared := by
  induction xs with
  | nil => rfl
  | cons x xs ih => rw [List.map_cons, declaredAll, ih, List.flatMap_cons]

@[simp]
theorem declaredAll_exprs (es : List Expr) :
    declaredAll (es.map .expr) = es.flatMap Expr.declared :=
  declaredAll_map .expr es

@[simp]
theorem declaredAll_fields (fs : List FieldInit) :
    declaredAll (fs.map .field) = fs.flatMap fun f => f.value.declared :=
  declaredAll_map .field fs

@[simp]
theorem declaredAll_stmts (xs : List Stmt) :
    declaredAll (xs.map .stmt) = xs.flatMap Stmt.declared :=
  declaredAll_map .stmt xs

@[simp]
theorem declaredAll_branches (bs : List Branch) :
    declaredAll (bs.map .branch) = bs.flatMap Branch.declared :=
  declaredAll_map .branch bs

end Phrase

theorem Stmt.declared_declareAll {token : Token} {names : List String} {ty : Ty} {types : List Ty}
    {value : Expr} : (Stmt.declareAll token names ty types value).declared = value.declared := by
  simp [declared, Stmt.labels, Expr.declared]

theorem Stmt.declared_choose {token : Token} {first : Branch} {more : List Branch}
    {otherwise : Option (List Stmt)} :
    (Stmt.choose token first more otherwise).declared =
      first.declared ++ (more.flatMap Branch.declared ++ (otherwise.getD []).flatMap declared) := by
  obtain ⟨condition, body⟩ := first
  cases otherwise <;> simp [declared, Stmt.labels_choose, Branch.declared, Expr.declared]

theorem Stmt.declared_loop {token : Token} {init : Option Stmt} {condition : Option Expr}
    {post : Option Stmt} {body : List Stmt} :
    (Stmt.loop token init condition post body).declared =
      init.toList.flatMap declared ++ (condition.toList.flatMap Expr.declared ++
        (post.toList.flatMap declared ++ body.flatMap declared)) := by
  cases init <;> cases condition <;> cases post <;>
    simp [declared, Stmt.labels_loop, Expr.declared]

theorem Setting.Tree.handed {A : Setting} {a b : Nat} {p : Phrase} (h : A.Tree a b p) :
    Handed A.unit a b p.declared := by
  induction h with
  | ident | integer | float | string =>
    simpa [Phrase.declared, Expr.declared, Expr.labels, Node.labels] using Handed.nil
  | «break» | «continue» | external | importUnit | generic =>
    simpa [Phrase.declared, Stmt.declared, Stmt.labels] using Handed.nil
  | binary hl hr left right | index hl hr left right | call hl hr left right =>
    simpa [Phrase.declared, Expr.declared, Expr.labels, Node.labels] using
      left.append right hl.le hr.le
  | unary _ ih | structLit _ _ _ ih | arrayLit _ _ _ ih | comma _ _ ih | function _ _ ih
  | builtin _ _ _ _ ih =>
    simpa [Phrase.declared, Expr.declared, Expr.labels, Node.labels] using ih
  | field _ _ ih => exact ih
  | expression _ ih | declare _ _ _ ih | functionDecl _ _ _ ih =>
    simpa [Phrase.declared, Expr.declared, Stmt.declared, Stmt.labels] using ih
  | declareAll _ _ _ le _ hv ih =>
    rw [Phrase.declared, Stmt.declared_declareAll]
    exact Handed.append .nil ih le hv.le
  | assign hl hr left right =>
    simpa [Phrase.declared, Expr.declared, Stmt.declared, Stmt.labels] using
      left.append right hl.le hr.le
  | record own =>
    obtain ⟨w, _, name⟩ := own
    refine ⟨List.pairwise_singleton _ _, List.forall_mem_singleton.mpr ?_,
      List.forall_mem_singleton.mpr ⟨w, name⟩⟩
    exact ⟨Nat.le_refl _, Nat.lt_succ_self _⟩
  | branch hc hb condition body =>
    exact condition.append (by simpa [Phrase.declared] using body) hc.le hb.le
  | choose hf hm ho first more otherwise =>
    have rest := more.append otherwise hm.le ho.le
    simpa [Phrase.declared, Stmt.declared_choose] using
      first.append rest hf.le (hm.le.trans ho.le)
  | loop _ hi hc hp hb init condition post body =>
    have rest := post.append body hp.le hb.le
    have rest := condition.append rest hc.le (hp.le.trans hb.le)
    simpa [Phrase.declared, Stmt.declared_loop] using
      init.append rest hi.le (hc.le.trans (hp.le.trans hb.le))
  | @«return» _ _ _ value _ ih =>
    cases value <;>
      simpa [Phrase.declared, Phrase.declaredAll, Stmt.declared, Stmt.labels,
        Expr.declared] using ih
  | nil => exact .nil
  | cons hf hr first rest => exact first.append rest hf.le hr.le
  | lost _ le hr ih => exact Handed.append .nil ih le hr.le

def Program.declared (p : Program) : List Record :=
  Label.declared (Stmt.labelsOf p.statements)

theorem Program.handed_read (c : Cursor) (o : ReadOptions) :
    Handed o.unit o.nextId (Program.read c o).nextId (Program.read c o).program.declared := by
  have handed := (Program.tree_read c o).handed
  rw [Phrase.declared, Phrase.declaredAll_map] at handed
  rw [Program.declared, Label.declared_stmts]
  exact handed

end FrontEnd
