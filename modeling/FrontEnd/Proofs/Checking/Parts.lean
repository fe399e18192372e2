import FrontEnd.Proofs.Checking.Plan

namespace FrontEnd

open Check CheckState

/-- How large an item is. Items that pass their tree on as a whole count a little more than it. -/
noncomputable def Item.size : Item → Nat
  | .expr e | .node e => 3 * sizeOf e
  | .list e | .condition _ e => 3 * sizeOf e + 1
  | .exprs es | .args _ es | .elements _ es => 3 * sizeOf es
  | .builtin _ _ _ es => 3 * sizeOf es + 1
  | .values fs | .fields _ _ fs => 3 * sizeOf fs
  | .guard _ e? | .result e? => 3 * sizeOf e?
  | .body xs | .function _ _ _ xs => 3 * sizeOf xs + 1
  | .stmts xs | .top xs => 3 * sizeOf xs
  | .stmt x => 3 * sizeOf x
  | .clause x? => 3 * sizeOf x?
  | .branches _ bs => 3 * sizeOf bs

namespace Plan

variable {α β : Type} {n : Nat} {token : Token}

def Below (n : Nat) : Plan α → Prop
  | done _ => True
  | step _ next => ∀ b, (next b).Below n
  | part i _ next => i.size < n ∧ ∀ r, (next r).Below n
  | ask _ _ next => ∀ r, (next r).Below n

theorem below_pure {a : α} : (pure a : Plan α).Below n :=
  trivial

theorem Below.bind {p : Plan α} {f : α → Plan β} (hp : p.Below n) (hf : ∀ a, (f a).Below n) :
    (p >>= f).Below n := by
  change (p.bind f).Below n
  induction p with
  | done a => exact hf a
  | step m next ih => exact fun b => ih b (hp b)
  | part i sure next ih => exact ⟨hp.1, fun r => ih r (hp.2 r)⟩
  | ask file typeArgs next ih => exact fun r => ih r (hp r)

theorem below_note {m : Check α} {h : Notes m} : (note m h).Below n :=
  fun _ => trivial

theorem below_change {m : Check α} {h : Tame m} : (change m h).Below n :=
  fun _ => trivial

theorem below_error {e : CheckError} : (error e token).Below n :=
  below_note

theorem below_begins {file : Path} : (begins file).Below n :=
  fun _ => trivial

theorem below_finishes {file : Path} : (finishes file).Below n :=
  fun _ => trivial

theorem below_imported {file : Path} {typeArgs : List Ty} : (imported file typeArgs).Below n :=
  fun _ => trivial

theorem below_check {i : Item} {sure : i.isSure = true}
    (smaller : i.size < n := by simp [Item.size] <;> omega) : (check i sure).Below n :=
  ⟨smaller, fun _ => trivial⟩

theorem below_importUnit {name path : String} {typeArgs : List Ty} :
    (stmt (.importUnit token name typeArgs path)).Below n := by
  refine below_note.bind fun _ => below_note.bind fun _ => below_begins.bind fun new => ?_
  cases new with
  | false => exact below_error.bind fun _ => below_pure
  | true =>
    refine below_imported.bind fun r => below_finishes.bind fun _ => ?_
    match r with
    | .error reason => exact below_error.bind fun _ => below_pure
    | .ok (.error ds) => exact below_error.bind fun _ => below_note.bind fun _ => below_pure
    | .ok (.ok unit) => exact below_change.bind fun _ => below_pure

theorem below_literal {sig : Signature} {body : List Stmt} {ty : Ty} :
    (expr ⟨.function sig body, ty, token⟩).Below
      (3 * sizeOf (Expr.mk (.function sig body) ty token)) :=
  below_note.bind fun _ => below_change.bind fun _ => (below_check).bind fun _ =>
    below_change.bind fun _ => below_pure

theorem below_loop {init post : Option Stmt} {condition : Option Expr} {body : List Stmt} :
    (stmt (.loop token init condition post body)).Below
      (3 * sizeOf (Stmt.loop token init condition post body)) :=
  below_change.bind fun _ => (below_check).bind fun _ => (below_check).bind fun _ =>
    (below_check).bind fun _ => below_change.bind fun _ => (below_check).bind fun _ =>
      below_change.bind fun _ => below_change.bind fun _ => below_change.bind fun _ => below_pure

end Plan

end FrontEnd
