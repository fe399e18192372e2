import Mathlib.Data.List.Perm.Subperm
import FrontEnd.Proofs.Checking.Invariant
import FrontEnd.Proofs.Checking.Parts
import FrontEnd.Proofs.Syntax.Labels

namespace FrontEnd

open Check CheckState

def Item.labels : Item → List Label
  | .expr e | .node e | .list e | .condition _ e => e.labels
  | .exprs es | .args _ es | .elements _ es | .builtin _ _ _ es => Expr.labelsOf es
  | .values fs | .fields _ _ fs => Expr.labelsOfFields fs
  | .guard _ e? | .result e? => e?.elim [] Expr.labels
  | .body xs | .function _ _ _ xs | .stmts xs | .top xs => Stmt.labelsOf xs
  | .stmt x => x.labels
  | .clause x? => x?.elim [] Stmt.labels
  | .branches _ bs => Stmt.labelsOfBranches bs

namespace CheckState

/-- From one state to the other no type and no module is declared and no scope is opened or
left. -/
structure Slight (s t : CheckState) : Prop where
  tables : t.tables = s.tables
  vars : s.env.vars.Extends t.env.vars
  barrier : t.barrier = s.barrier
  errors : s.errors <+: t.errors

theorem Slight.refl (s : CheckState) : Slight s s :=
  ⟨rfl, .refl _, rfl, List.prefix_refl _⟩

theorem slight_notes (s : CheckState) (ds : List Diagnostic) : Slight s (s.notes ds) :=
  ⟨rfl, .refl _, rfl, List.prefix_append _ _⟩

theorem slight_declare (s : CheckState) (name : String) (ty : Ty) : Slight s (s.declare name ty) :=
  ⟨rfl, Scopes.extends_add _ _ _, rfl, List.prefix_refl _⟩

theorem slight_declareEach (s : CheckState) (names : List String) (types : List Ty) :
    Slight s (s.declareEach names types) :=
  have grown := grows_declareEach s names types
  ⟨tables_declareEach s names types, grown.vars, grown.barrier, grown.errors⟩

end CheckState

namespace Check

variable {α : Type} {imp : Importer} {s s' : CheckState}

theorem Notes.slight {m : Check α} (hm : Notes m) {a : α} (h : Runs imp m s a s') :
    Slight s s' := by
  obtain ⟨ds, rfl⟩ := hm.state h
  exact slight_notes s ds

theorem slight_checkReturn {token : Token} {got : Ty} {u : Unit}
    (h : Runs imp (checkReturn token got) s u s') : Slight s s' :=
  have kept := keeps_checkReturn h
  ⟨tables_checkReturn h, kept.vars ▸ .refl _, kept.barrier, kept.errors⟩

end Check

def Item.isFunction : Item → Bool
  | .function _ _ _ _ => true
  | _ => false

def Item.makesFunction : Item → Bool
  | .stmt (.function _ _ _) | .expr ⟨.function _ _, _, _⟩ | .node ⟨.function _ _, _, _⟩ => true
  | _ => false

/-- From one state to the other certain items are checked, one after the other. -/
inductive Leads (imp : Importer) : CheckState → List Item → CheckState → Prop
  | refl {s} : Leads imp s [] s
  | slight {s t ks u} (first : Slight s t) (rest : Leads imp t ks u) : Leads imp s ks u
  | part {i : Item} {s r t ks u} (sure : i.isSure = true) (ran : Runs imp i.check s r t)
      (rest : Leads imp t ks u) : Leads imp s (i :: ks) u

namespace CheckState

variable {s t u : CheckState}

structure Advances (s t : CheckState) : Prop where
  vars : s.env.vars.Extends t.env.vars
  types : s.env.types.Extends t.env.types
  barrier : t.barrier = s.barrier
  session : s.session.Keeps t.session
  errors : s.errors <+: t.errors

theorem Advances.refl (s : CheckState) : Advances s s :=
  ⟨.refl _, .refl _, rfl, .refl _, List.prefix_refl _⟩

theorem Advances.trans (h : Advances s t) (h' : Advances t u) : Advances s u :=
  ⟨h.vars.trans h'.vars, h.types.trans h'.types, h'.barrier.trans h.barrier,
    h.session.trans h'.session, h.errors.trans h'.errors⟩

theorem Slight.advances (h : Slight s t) : Advances s t := by
  have types : t.env.types = s.env.types := congrArg Tables.types h.tables
  have session : t.session = s.session := congrArg Tables.session h.tables
  exact ⟨h.vars, types ▸ .refl _, h.barrier, session ▸ .refl _, h.errors⟩

theorem Grows.advances (h : Grows s t) : Advances s t :=
  ⟨h.vars, h.types, h.barrier, h.toStays.session, h.errors⟩

end CheckState

theorem Item.Change.grows {i : Item} {s t : CheckState} (h : i.Change s t) : Grows s t := by
  cases i with
  | stmt | clause | stmts | top => exact h
  | _ => exact Keeps.grows h

theorem Leads.advances {imp : Importer} {P : Law} {s t : CheckState} {ks : List Item}
    (ok : Lawful imp P) (h : Leads imp s ks t) : Advances s t := by
  induction h with
  | refl => exact .refl _
  | slight first _ ih => exact first.advances.trans ih
  | part sure ran _ ih =>
    exact ((Checks.of_check ok sure ran).change ok.steady).grows.advances.trans ih

namespace Plan

variable {α β : Type} {imp : Importer} {s s' t : CheckState} {labels more : List Label}
  {token : Token} {n : Nat} {made : Bool}
variable {p : Plan α} {f : α → Plan β}

/-- Item `j` is checked from state `t` while the plan is carried out from state `s`. -/
inductive Asks (imp : Importer) : {α : Type} → Plan α → CheckState → Item → CheckState → Prop
  | here {α : Type} {i : Item} {sure} {next : i.Result → Plan α} {s} :
      Asks imp (.part i sure next) s i s
  | step {α β : Type} {m : Step β} {next : β → Plan α} {s b s' j t} (ran : Runs imp m.check s b s')
      (later : Asks imp (next b) s' j t) : Asks imp (.step m next) s j t
  | part {α : Type} {i : Item} {sure} {next : i.Result → Plan α} {s r s' j t}
      (ran : Runs imp i.check s r s') (later : Asks imp (next r) s' j t) :
      Asks imp (.part i sure next) s j t
  | ask {α : Type} {file typeArgs} {next : _ → Plan α} {s r s' j t}
      (ran : Runs imp (importFrom file typeArgs) s r s') (later : Asks imp (next r) s' j t) :
      Asks imp (.ask file typeArgs next) s j t

/-- The steps of a plan are slight, and go into no loop and no function and leave none. Its parts
are smaller than `n`, they are functions if it makes one, and their labels, each taken once, are
among these. -/
def Plain (n : Nat) (made : Bool) : List Label → Plan α → Prop
  | _, done _ => True
  | labels, step m next => (∀ {imp s b s'}, Runs imp m.check s b s' → Slight s s' ∧ Stays s s') ∧
    ∀ b, (next b).Plain n made labels
  | labels, part i _ next => (i.size < n ∧ i.isFunction = made) ∧
    ∃ rest, (i.labels ++ rest).Subperm labels ∧ ∀ r, (next r).Plain n made rest
  | _, ask _ _ _ => False

theorem Plain.mono (h : p.Plain n made labels) (sub : labels.Subperm more) :
    p.Plain n made more := by
  induction p generalizing labels more with
  | done a => trivial
  | step m next ih => exact ⟨h.1, fun b => ih b (h.2 b) sub⟩
  | part i sure next ih =>
    obtain ⟨part, rest, inside, later⟩ := h
    exact ⟨part, rest, inside.trans sub, later⟩
  | ask file typeArgs next ih => exact h

theorem Plain.cons (h : p.Plain n made labels) (l : Label) : p.Plain n made (l :: labels) :=
  h.mono (List.sublist_cons_self l labels).subperm

theorem plain_pure {a : α} : (pure a : Plan α).Plain n made labels :=
  trivial

theorem Plain.bind (hp : p.Plain n made labels) (hf : ∀ a, (f a).Plain n made []) :
    (p >>= f).Plain n made labels := by
  change (p.bind f).Plain _ _ _
  induction p generalizing labels with
  | done a => exact (hf a).mono List.nil_subperm
  | step m next ih => exact ⟨hp.1, fun b => ih b (hp.2 b)⟩
  | part i sure next ih =>
    obtain ⟨part, rest, inside, later⟩ := hp
    exact ⟨part, rest, inside, fun r => ih r (later r)⟩
  | ask file typeArgs next ih => exact hp.elim

theorem Plain.ite {c : Prop} [Decidable c] {q : Plan α} (hp : p.Plain n made labels)
    (hq : q.Plain n made labels) : (if c then p else q).Plain n made labels := by
  split
  · exact hp
  · exact hq

theorem Plain.after {m : Check α} {h : Tame m}
    (slight : ∀ {imp s b s'}, Runs imp m s b s' → Slight s s' ∧ Stays s s')
    (hf : ∀ a, (f a).Plain n made labels) : (change m h >>= f).Plain n made labels :=
  ⟨slight, hf⟩

theorem Plain.noted {m : Check α} {h : Notes m} (hf : ∀ a, (f a).Plain n made labels) :
    (note m h >>= f).Plain n made labels :=
  ⟨fun ran => ⟨h.slight ran, (h.keeps ran).toStays⟩, hf⟩

theorem Plain.first {i : Item} {sure : i.isSure = true} {f : i.Result → Plan β}
    (hf : ∀ r, (f r).Plain n made labels)
    (smaller : i.size < n := by simp [Item.size] <;> omega)
    (inner : i.isFunction = made := by rfl) :
    (check i sure >>= f).Plain n made (i.labels ++ labels) :=
  ⟨⟨smaller, inner⟩, labels, .refl _, hf⟩

theorem Plain.only {i : Item} {sure : i.isSure = true} {f : i.Result → Plan β}
    (hf : ∀ r, (f r).Plain n made []) (smaller : i.size < n := by simp [Item.size] <;> omega)
    (inner : i.isFunction = made := by rfl) : (check i sure >>= f).Plain n made i.labels :=
  ⟨⟨smaller, inner⟩, [], by rw [List.append_nil], hf⟩

theorem plain_fail {fault : Fault} : (fail fault : Plan α).Plain n made labels :=
  ⟨fun ran => absurd ran not_runs_throw, fun _ => trivial⟩

theorem plain_setReturns {b : Bool} {f : Unit → Plan β} (hf : ∀ u, (f u).Plain n made labels) :
    (change (setReturns b) tame_setReturns >>= f).Plain n made labels := by
  refine .after (fun ran => ?_) hf
  rw [runs_setReturns.mp ran]
  exact ⟨⟨rfl, .refl _, rfl, List.prefix_refl _⟩, (keeps_returns _ b).toStays⟩

theorem plain_declare {name : String} {ty : Ty} {f : Unit → Plan β}
    (hf : ∀ u, (f u).Plain n made labels) :
    (change (declare name ty) tame_modifyEnv >>= f).Plain n made labels := by
  refine .after (fun ran => ?_) hf
  rw [runs_declare.mp ran]
  exact ⟨slight_declare _ _ _, (grows_declare _ name ty).toStays⟩

theorem plain_builtinCall {b : Builtin} {ty : Ty} {es : List Expr} (small : 3 * sizeOf es < n) :
    (builtinCall b ty token es).Plain n false (Expr.labelsOf es) := by
  obtain _ | ⟨e, _ | ⟨e', es⟩⟩ := es
  case nil =>
    cases b with
    | sizeof | print | println => exact plain_pure
    | unreachable => exact plain_setReturns fun _ => .noted fun _ => plain_pure
    | asm => exact .noted fun _ => plain_pure
    | _ => exact plain_fail
  case cons.nil =>
    simp only [List.cons.sizeOf_spec] at small
    cases b with
    | cast | alloc | free => exact .first fun _ => .noted fun _ => plain_pure
    | print | println => exact .first fun _ => plain_pure
    | asm => exact .noted fun _ => .first fun _ => plain_pure
    | _ => exact plain_fail
  case cons.cons =>
    simp only [List.cons.sizeOf_spec] at small
    cases b with
    | realloc =>
      exact .first fun _ => .noted fun _ => .noted fun _ => .first fun _ => .noted fun _ =>
        plain_pure
    | print | println => exact .only fun _ => plain_pure
    | asm => exact .noted fun _ => .only fun _ => plain_pure
    | _ => exact plain_fail

theorem plain_expr {node : Node} (t : Ty) (token : Token)
    (notLiteral : ∀ sig xs, node ≠ .function sig xs) :
    (expr ⟨node, t, token⟩).Plain (3 * sizeOf (Expr.mk node t token)) false node.labels := by
  cases node with
  | ident name => exact .noted fun _ => plain_pure
  | integer value | float value | string value => exact plain_pure
  | binary op left right =>
    cases op
    case dot =>
      refine .noted fun m? => ?_
      cases m? with
      | some m => exact .noted fun _ => plain_pure
      | none => exact .first fun _ => .noted fun _ => plain_pure
    case assign =>
      -- The value is checked before the target.
      refine Plain.mono ?_ List.perm_append_comm.subperm
      exact .first fun _ => .only fun _ => .noted fun _ => plain_pure
    all_goals exact .first fun _ => .only fun _ => .noted fun _ => plain_pure
  | unary op operand => exact .only fun _ => .noted fun _ => plain_pure
  | index base index => exact .first fun _ => .only fun _ => .noted fun _ => plain_pure
  | call callee args =>
    refine .first fun _ => .noted fun sig? => ?_
    cases sig? with
    | none => exact .only fun _ => plain_pure
    | some sig =>
      refine .ite (.noted fun _ => ?_) ?_
      · exact .only fun _ => .noted fun _ => plain_pure
      · exact .only fun _ => .noted fun _ => plain_pure
  | builtin name typeArgs args =>
    have inside := List.sublist_append_right (typeArgs.map Label.type) (Expr.labelsOf args)
    refine Plain.mono ?_ inside.subperm
    refine .noted fun b? => ?_
    cases b? with
    | none => exact .only fun _ => plain_pure
    | some b =>
      refine .noted fun _ => (plain_builtinCall ?_).bind fun _ => plain_pure
      simp
      omega
  | structLit name module? fields =>
    refine .noted fun r => ?_
    obtain ⟨name, _ | decl⟩ := r
    · exact .only fun _ => plain_pure
    · exact .only fun _ => plain_pure
  | arrayLit ty elements =>
    refine .cons (.noted fun ty => ?_) _
    cases ty
    case array element length =>
      refine .ite (.noted fun _ => ?_) ?_
      · exact .only fun _ => plain_pure
      · exact .only fun _ => plain_pure
    all_goals exact .only fun _ => plain_pure
  | comma items => exact .only fun _ => .noted fun _ => plain_pure
  | function sig body => exact absurd rfl (notLiteral sig body)

theorem plain_stmt {x : Stmt} (noLoop : ∀ token init e post xs, x ≠ .loop token init e post xs)
    (noRecord : ∀ token decl, x ≠ .record token decl)
    (noImport : ∀ token name typeArgs path, x ≠ .importUnit token name typeArgs path) :
    (stmt x).Plain (3 * sizeOf x) (Item.stmt x).makesFunction x.labels := by
  cases x with
  | expression token e => exact .cons (.only fun _ => plain_pure) _
  | declare token name ty value =>
    exact ((Plain.only fun _ => .noted fun _ => plain_declare fun _ => plain_pure).cons _).cons _
  | declareAll token names ty types value =>
    have inside := List.sublist_append_right (types.map Label.type) value.labels
    refine ((Plain.mono ?_ inside.subperm).cons _).cons _
    refine .only fun _ => .noted fun _ => .after (fun ran => ?_) fun _ => plain_pure
    rw [runs_declareEach.mp ran]
    exact ⟨slight_declareEach _ _ _, (grows_declareEach _ _ _).toStays⟩
  | assign token target value =>
    refine .cons (Plain.mono ?_ List.perm_append_comm.subperm) _
    exact .first fun _ => .only fun _ => .noted fun _ => plain_pure
  | record token decl => exact absurd rfl (noRecord _ _)
  | function token sig body =>
    change Plain _ _ (_ :: _ :: Stmt.labelsOf body) _
    refine .cons (.cons (.noted fun s => plain_declare fun _ => ?_) _) _
    refine Plain.only (i := .function _ _ _ body) fun _ =>
      .after (fun ran => ?_) fun _ => plain_pure
    rw [runs_modify.mp ran]
    exact ⟨⟨rfl, .refl _, rfl, List.prefix_refl _⟩,
      ⟨rfl, rfl, rfl, rfl, rfl, rfl, rfl, rfl, List.prefix_refl _⟩⟩
  | choose token first more otherwise =>
    obtain ⟨condition, body⟩ := first
    rw [Stmt.labels_choose]
    refine .cons ?_ _
    rw [List.append_assoc, List.append_assoc]
    cases otherwise with
    | none =>
      exact .first fun _ => .first fun _ => .first fun _ => plain_setReturns fun _ => plain_pure
    | some block =>
      exact .first fun _ => .first fun _ => .first fun _ => .only fun _ =>
        plain_setReturns fun _ => plain_pure
  | loop token init condition post body => exact absurd rfl (noLoop _ _ _ _ _)
  | «return» token value =>
    rw [Stmt.labels_return]
    exact .cons (.only fun _ => .after (fun ran =>
      ⟨slight_checkReturn ran, (keeps_checkReturn ran).toStays⟩) fun _ => plain_pure) _
  | «break» token | «continue» token => exact .noted fun _ => plain_pure
  | external token sig => exact .noted fun _ => plain_declare fun _ => plain_pure
  | importUnit token name typeArgs path => exact absurd rfl (noImport _ _ _ _)
  | generic token name ty => exact plain_pure

end Plan

/-- The items that do nothing but to have their parts checked. The others open a scope, declare a
type, ask for a unit or keep names of variables out of reach. -/
def Item.isPlain : Item → Bool
  | .expr ⟨.function _ _, _, _⟩ | .node ⟨.function _ _, _, _⟩ | .body _ | .function _ _ _ _ => false
  | .stmt (.loop _ _ _ _ _) | .stmt (.record _ _) | .stmt (.importUnit _ _ _ _) => false
  | _ => true

namespace Plan

variable {α : Type} {imp : Importer} {s s' t : CheckState} {labels : List Label} {token : Token}
  {n : Nat} {made : Bool}
variable {p : Plan α} {j : Item} {xs : List Stmt}

theorem plain_of {i : Item} (plain : i.isPlain = true) :
    (of i).Plain i.size i.makesFunction i.labels := by
  match i with
  | .expr ⟨node, t, token⟩ | .node ⟨node, t, token⟩ =>
    have notLiteral : ∀ sig xs, node ≠ .function sig xs := by
      rintro sig xs rfl
      simp [Item.isPlain] at plain
    have whole := (plain_expr t token notLiteral).cons (.inferred t)
    cases node with
    | function sig xs => exact absurd rfl (notLiteral sig xs)
    | _ => exact whole.cons _
  | .exprs [] | .args _ [] | .elements _ [] | .values [] | .fields _ _ [] => exact plain_pure
  | .exprs (e :: es) | .values (⟨_, e⟩ :: es) => exact .first fun _ => .only fun _ => plain_pure
  | .args params (e :: es) =>
    refine .first fun _ => ?_
    cases params with
    | nil => exact .only fun _ => plain_pure
    | cons param params => exact .noted fun _ => .only fun _ => plain_pure
  | .elements element (e :: es) => exact .first fun _ => .noted fun _ => .only fun _ => plain_pure
  | .fields decl seen (⟨name, value⟩ :: fields) =>
    refine .ite (.noted fun _ => ?_) ?_
    · exact .first fun _ => .noted fun _ => .only fun _ => plain_pure
    · exact .first fun _ => .noted fun _ => .only fun _ => plain_pure
  | .builtin b ty token es => exact plain_builtinCall (Nat.lt_succ_self _)
  | .list ⟨node, t, token⟩ =>
    cases node
    case comma items => exact ((Plain.only fun _ => plain_pure).cons _).cons _
    all_goals exact ⟨⟨Nat.lt_succ_self _, rfl⟩, [], by rw [List.append_nil]; rfl, fun _ => trivial⟩
  | .condition token e => exact .only fun _ => .noted fun _ => plain_pure
  | .guard token (some e) => exact .only fun _ => plain_pure
  | .guard _ none | .result none | .clause none => exact plain_pure
  | .result (some e) => exact .only fun _ => plain_pure
  | .stmt x =>
    refine plain_stmt ?_ ?_ ?_
    · rintro _ _ _ _ _ rfl
      simp [Item.isPlain] at plain
    · rintro _ _ rfl
      simp [Item.isPlain] at plain
    · rintro _ _ _ _ rfl
      simp [Item.isPlain] at plain
  | .clause (some x) => exact .only fun _ => plain_pure
  | .stmts [] | .top [] => exact plain_pure
  | .stmts (x :: xs) =>
    exact .noted fun _ => .ite plain_pure (.first fun _ => .only fun _ => plain_pure)
  | .branches _ [] => exact plain_pure
  | .branches token (⟨condition, body⟩ :: more) =>
    change Plain _ _ ((_ ++ _) ++ _) _
    rw [List.append_assoc]
    exact .first fun _ => .first fun _ => .only fun _ => plain_pure
  | .top (x :: xs) => exact .first fun _ => .only fun _ => plain_pure

theorem Plain.leads (plain : p.Plain n made labels) (h : p.Asks imp s j t) :
    ∃ ks, Leads imp s ks t ∧ (ks.flatMap Item.labels ++ j.labels).Subperm labels := by
  induction h generalizing labels with
  | here =>
    obtain ⟨-, rest, inside, _⟩ := plain
    refine ⟨[], .refl, ?_⟩
    rw [List.flatMap_nil, List.nil_append]
    exact (List.sublist_append_left _ rest).subperm.trans inside
  | step ran _ ih =>
    obtain ⟨ks, leads, inside⟩ := ih (plain.2 _)
    exact ⟨ks, .slight (plain.1 ran).1 leads, inside⟩
  | @part i sure _ _ _ _ _ _ ran _ ih =>
    obtain ⟨-, rest, inside, later⟩ := plain
    obtain ⟨ks, leads, below⟩ := ih (later _)
    refine ⟨i :: ks, .part sure ran leads, ?_⟩
    rw [List.flatMap_cons, List.append_assoc]
    exact (List.Subperm.append (.refl _) below).trans inside
  | ask _ _ _ => exact plain.elim

theorem Plain.runs {a : α} (plain : p.Plain n made labels) (h : Runs imp p.run s a s') :
    ∃ ks, Leads imp s ks s' ∧ (ks.flatMap Item.labels).Subperm labels ∧ ∀ k ∈ ks, k.size < n := by
  induction p generalizing labels s with
  | done b =>
    obtain ⟨rfl, rfl⟩ := runs_pure.mp h
    exact ⟨[], .refl, List.nil_subperm, List.forall_mem_nil _⟩
  | step m next ih =>
    obtain ⟨b, s₁, first, rest⟩ := runs_bind.mp h
    obtain ⟨ks, leads, inside, small⟩ := ih b (plain.2 b) rest
    exact ⟨ks, .slight (plain.1 first).1 leads, inside, small⟩
  | part i sure next ih =>
    obtain ⟨r, s₁, first, rest⟩ := runs_bind.mp h
    obtain ⟨⟨smaller, -⟩, more, inside, later⟩ := plain
    obtain ⟨ks, leads, within, small⟩ := ih r (later r) rest
    refine ⟨i :: ks, .part sure first leads, ?_, List.forall_mem_cons.mpr ⟨smaller, small⟩⟩
    rw [List.flatMap_cons]
    exact (List.Subperm.append (.refl _) within).trans inside
  | ask file typeArgs next ih => exact plain.elim

theorem Plain.asks {P : Law} (ok : Lawful imp P) (plain : p.Plain n made labels)
    (h : p.Asks imp s j t) : j.isFunction = made ∧ Stays s t := by
  induction h generalizing labels with
  | here => exact ⟨plain.1.2, .refl _⟩
  | step ran _ ih =>
    obtain ⟨inner, stays⟩ := ih (plain.2 _)
    exact ⟨inner, (plain.1 ran).2.trans stays⟩
  | part ran _ ih =>
    obtain ⟨-, rest, -, later⟩ := plain
    obtain ⟨inner, stays⟩ := ih (later _)
    exact ⟨inner, ((Checks.of_check ok ‹_› ran).change ok.steady).grows.toStays.trans stays⟩
  | ask => exact plain.elim

theorem Plain.below (plain : p.Plain n made labels) : p.Below n := by
  induction p generalizing labels with
  | done a => trivial
  | step m next ih => exact fun b => ih b (plain.2 b)
  | part i sure next ih =>
    obtain ⟨⟨smaller, -⟩, rest, -, later⟩ := plain
    exact ⟨smaller, fun r => ih r (later r)⟩
  | ask file typeArgs next ih => exact plain.elim

theorem below_of (i : Item) : (of i).Below i.size := by
  cases plain : i.isPlain with
  | true => exact (plain_of plain).below
  | false =>
    unfold Item.isPlain at plain
    split at plain
    case h_1 | h_2 => exact below_literal
    case h_3 | h_4 =>
      exact below_change.bind fun _ => (below_check).bind fun _ =>
        below_change.bind fun _ => below_pure
    case h_5 => exact below_loop
    case h_6 => exact below_change.bind fun _ => below_pure
    case h_7 => exact below_importUnit
    case h_8 => cases plain

theorem asks_literal {sig : Signature} (ty : Ty)
    (h : (expr ⟨.function sig xs, ty, token⟩).Asks imp s j t) :
    j = .function (s.resolver.resolveSignature sig) "<anonymous>" token xs ∧
      t = { s with barrier := some s.env.vars.depth } := by
  cases h with
  | step looked h =>
    obtain ⟨rfl, rfl⟩ := runs_get.mp looked
    cases h with
    | step changed h =>
      obtain rfl := runs_modify.mp changed
      cases h with
      | here => exact ⟨rfl, rfl⟩
      | part _ h =>
        cases h with
        | step _ h => cases h

theorem asks_body (h : (of (.body xs)).Asks imp s j t) :
    j = .stmts xs ∧ t = { s.enter with returns := false } := by
  cases h with
  | step entered h =>
    obtain rfl := runs_enterBranch.mp entered
    cases h with
    | here => exact ⟨rfl, rfl⟩
    | part _ h =>
      cases h with
      | step _ h => cases h

theorem asks_function {sig : Signature} {name : String}
    (h : (of (.function sig name token xs)).Asks imp s j t) :
    j = .stmts xs ∧ t = s.enterFunction sig := by
  cases h with
  | step entered h =>
    obtain ⟨rfl, rfl⟩ := runs_enterFunction.mp entered
    cases h with
    | here => exact ⟨rfl, rfl⟩
    | part _ h =>
      cases h with
      | step _ h => cases h

theorem asks_loop {init post : Option Stmt} {e : Option Expr}
    (h : (of (.stmt (.loop token init e post xs))).Asks imp s j t) :
    ∃ ks, Leads imp s.enter ks t ∧
      (ks.flatMap Item.labels ++ j.labels).Subperm (Stmt.loop token init e post xs).labels := by
  have inside {l : List Label} (sub : List.Sublist l (init.elim [] Stmt.labels ++
      e.elim [] Expr.labels ++ post.elim [] Stmt.labels ++ Stmt.labelsOf xs)) :
      l.Subperm (Stmt.loop token init e post xs).labels := by
    rw [Stmt.labels_loop]
    exact (sub.trans (List.sublist_cons_self _ _)).subperm
  cases h with
  | step entered h =>
    obtain rfl := runs_enterScope.mp entered
    cases h with
    | here => exact ⟨[], .refl, inside (by simp [Item.labels])⟩
    | part ran₁ h =>
      cases h with
      | here => exact ⟨_, .part rfl ran₁ .refl, inside (by simp [Item.labels])⟩
      | part ran₂ h =>
        cases h with
        | here =>
          exact ⟨_, .part rfl ran₁ (.part rfl ran₂ .refl), inside (by simp [Item.labels])⟩
        | part ran₃ h =>
          cases h with
          | step counted h =>
            obtain rfl := runs_enterLoop.mp counted
            cases h with
            | here =>
              refine ⟨_, .part rfl ran₁ (.part rfl ran₂ (.part rfl ran₃ (.slight ?_ .refl))),
                inside (by simp [Item.labels])⟩
              exact ⟨rfl, .refl _, rfl, List.prefix_refl _⟩
            | part ran₄ h =>
              cases h with
              | step _ h =>
                cases h with
                | step _ h =>
                  cases h with
                  | step _ h => cases h

theorem Asks.size_lt {n : Nat} (h : p.Asks imp s j t) (below : p.Below n) : j.size < n := by
  induction h with
  | here => exact below.1
  | step _ _ ih => exact ih (below _)
  | part _ _ ih => exact ih (below.2 _)
  | ask _ _ ih => exact ih (below _)

end Plan

/-- The items that have parts: those with plain plans, function literals, and those that go into a
scope, a function or a loop. -/
inductive Item.Form : Item → Prop
  | plain {i : Item} (plain : i.isPlain = true) : Form i
  | literal {sig xs ty token} : Form (.expr ⟨.function sig xs, ty, token⟩)
  | node {sig xs ty token} : Form (.node ⟨.function sig xs, ty, token⟩)
  | body {xs} : Form (.body xs)
  | function {sig name token xs} : Form (.function sig name token xs)
  | loop {token init e post xs} : Form (.stmt (.loop token init e post xs))

theorem Plan.Asks.form {imp : Importer} {i j : Item} {s t : CheckState}
    (h : (Plan.of i).Asks imp s j t) : i.Form := by
  cases plain : i.isPlain with
  | true => exact .plain plain
  | false =>
    unfold Item.isPlain at plain
    split at plain
    case h_1 => exact .literal
    case h_2 => exact .node
    case h_3 => exact .body
    case h_4 => exact .function
    case h_5 => exact .loop
    case h_6 token decl =>
      exact absurd (h.size_lt (below_change.bind fun _ => below_pure)) (Nat.not_lt_zero _)
    case h_7 token name typeArgs path =>
      exact absurd (h.size_lt below_importUnit) (Nat.not_lt_zero _)
    case h_8 => cases plain

def Item.isLambda : Item → Bool
  | .expr ⟨.function _ _, _, _⟩ | .node ⟨.function _ _, _, _⟩ => true
  | _ => false

/-- How the state in which a part of an item is checked comes from the state of the item. -/
inductive Item.Enters (imp : Importer) (i : Item) (s : CheckState) (j : Item) (t : CheckState) :
    Prop
  | lambda {sig : Signature} {xs : List Stmt} {ty : Ty} {token : Token}
      (literal : i = .expr ⟨.function sig xs, ty, token⟩ ∨ i = .node ⟨.function sig xs, ty, token⟩)
      (inner : j = .function (s.resolver.resolveSignature sig) "<anonymous>" token xs)
      (state : t = { s with barrier := some s.env.vars.depth })
  | inside {s₀ : CheckState} {ks : List Item} (notLambda : i.isLambda = false)
      (first : i.isPlain = true ∧ s₀ = s ∨ Slight s.enter s₀) (leads : Leads imp s₀ ks t)
      (labels : (ks.flatMap Item.labels ++ j.labels).Subperm i.labels)

theorem CheckState.slight_enterFunction (s : CheckState) (sig : Signature) :
    Slight s.enter (s.enterFunction sig) :=
  have grown := grows_declareEach s.enter sig.names sig.params
  ⟨tables_enterFunction s sig, grown.vars, grown.barrier, grown.errors⟩

theorem Plan.Asks.enters {imp : Importer} {i j : Item} {s t : CheckState}
    (h : (Plan.of i).Asks imp s j t) : i.Enters imp s j t := by
  cases h.form with
  | plain plain =>
    obtain ⟨ks, leads, labels⟩ := (plain_of plain).leads h
    refine .inside ?_ (.inl ⟨plain, rfl⟩) leads labels
    unfold Item.isLambda
    split
    · simp [Item.isPlain] at plain
    · simp [Item.isPlain] at plain
    · rfl
  | @literal sig xs ty token =>
    obtain ⟨rfl, rfl⟩ := asks_literal ty h
    exact .lambda (.inl rfl) rfl rfl
  | @node sig xs ty token =>
    obtain ⟨rfl, rfl⟩ := asks_literal ty h
    exact .lambda (.inr rfl) rfl rfl
  | body =>
    obtain ⟨rfl, rfl⟩ := asks_body h
    refine .inside rfl (.inr ?_) .refl (.refl _)
    exact ⟨rfl, .refl _, rfl, List.prefix_refl _⟩
  | @function sig =>
    obtain ⟨rfl, rfl⟩ := asks_function h
    exact .inside rfl (.inr (slight_enterFunction s sig)) .refl (.refl _)
  | loop =>
    obtain ⟨ks, leads, labels⟩ := asks_loop h
    exact .inside rfl (.inr (.refl _)) leads labels

/-- Item `j` is checked in state `t` while item `i` is checked from state `s`, inside the innermost
function literal that is checked in the given state. -/
inductive Visits (imp : Importer) (i : Item) (s : CheckState) :
    Item → CheckState → Option CheckState → Prop
  | self : Visits imp i s i s none
  | part {j k : Item} {t u : CheckState} {around : Option CheckState}
      (outer : Visits imp i s j t around) (asks : (Plan.of j).Asks imp t k u) :
      Visits imp i s k u (if j.isLambda then some t else around)

section

variable {imp : Importer} {P : Law} {I : Tables → Prop} {s t : CheckState}
variable {i j : Item} {around : Option CheckState}

theorem Leads.carry (ok : Lawful imp P) (inv : Invariant imp imp (fun _ => True) I)
    {ks : List Item} (h : Leads imp s ks t) (hs : I s.tables) : I t.tables := by
  induction h with
  | refl => exact hs
  | slight first _ ih => exact ih (first.tables ▸ hs)
  | part sure ran _ ih =>
    exact ih ((Checks.of_check ok sure ran).carry ok.steady inv
      (fun _ => Item.named_true _) hs).2

theorem labels_of_literal {sig sig' : Signature} {xs : List Stmt} {ty : Ty} {token : Token}
    {name : String}
    (literal : i = .expr ⟨.function sig xs, ty, token⟩ ∨ i = .node ⟨.function sig xs, ty, token⟩)
    (inner : j = .function sig' name token xs) : j.labels.Sublist i.labels := by
  subst inner
  obtain rfl | rfl := literal
  · exact .cons _ (.cons _ (.cons _ (.refl _)))
  · exact .cons _ (.cons _ (.cons _ (.refl _)))

theorem Visits.labels_subset (h : Visits imp i s j t around) : j.labels ⊆ i.labels := by
  induction h with
  | self => exact List.Subset.refl _
  | part _ asks ih =>
    refine List.Subset.trans ?_ ih
    cases asks.enters with
    | lambda literal inner _ => exact (labels_of_literal literal inner).subset
    | inside _ _ _ labels => exact fun l hl => labels.subset (List.mem_append_right _ hl)

theorem Visits.session (ok : Lawful imp P) (h : Visits imp i s j t around) :
    s.session.Keeps t.session := by
  induction h with
  | self => exact .refl _
  | part _ asks ih =>
    cases asks.enters with
    | lambda _ _ state =>
      rw [state]
      exact ih
    | inside _ first leads _ =>
      refine ih.trans (.trans ?_ (leads.advances ok).session)
      obtain ⟨-, rfl⟩ | slight := first
      · exact .refl _
      · exact slight.advances.session

/-- What holds of the tables when an item begins to be checked, and is kept on the way, holds when
the items inside it begin to be checked. -/
theorem Visits.carry (ok : Lawful imp P) (inv : Invariant imp imp (fun _ => True) I)
    (h : Visits imp i s j t around) (hs : I s.tables) : I t.tables := by
  induction h with
  | self => exact hs
  | part _ asks ih =>
    cases asks.enters with
    | lambda _ _ state =>
      rw [state]
      exact ih
    | inside _ first leads _ =>
      refine leads.carry ok inv ?_
      obtain ⟨-, rfl⟩ | slight := first
      · exact ih
      · exact slight.tables ▸ inv.enter ih

end

end FrontEnd
