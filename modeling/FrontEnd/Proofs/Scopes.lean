import FrontEnd.Scopes
import Mathlib.Data.List.Basic
import Mathlib.Logic.Function.Basic

namespace FrontEnd

inductive ScopeOp (α : Type) where
  | add (name : String) (value : α)
  | enter
  | leave

/-- All that can be asked of a table. -/
@[ext]
structure ScopeView (α : Type) where
  get? : String → Option α
  contains : String → Bool
  depthOf? : String → Option Nat
  depth : Nat

namespace ScopeView

variable {α : Type}

def empty : ScopeView α :=
  ⟨fun _ => none, fun _ => false, fun _ => none, 0⟩

def add (v : ScopeView α) (name : String) (value : α) : ScopeView α where
  get? := Function.update v.get? name (some value)
  contains := Function.update v.contains name true
  depthOf? := Function.update v.depthOf? name (some v.depth)
  depth := v.depth

def enter (v : ScopeView α) : ScopeView α :=
  { v with depth := v.depth + 1 }

end ScopeView

structure ScopeTable (σ α : Type) where
  view : σ → ScopeView α
  empty : σ
  add : σ → String → α → σ
  enter : σ → σ
  /-- Leaves the innermost scope, or fails and leaves another table behind. -/
  leave : σ → Except σ σ
  view_empty : view empty = .empty
  view_add : ∀ t name value, view (add t name value) = (view t).add name value
  view_enter : ∀ t, view (enter t) = (view t).enter
  leave_empty : leave empty = .error empty
  leave_add : ∀ t name value, leave (add t name value) = leave t
  leave_enter : ∀ t, leave (enter t) = .ok t

/-- Operations in which every scope that is entered is left again, and no other one. -/
inductive ScopeOp.Balanced {α : Type} : List (ScopeOp α) → Prop
  | nil : Balanced []
  | add {name value ops} (rest : Balanced ops) : Balanced (.add name value :: ops)
  | scope {body ops} (inner : Balanced body) (rest : Balanced ops) :
      Balanced (.enter :: body ++ .leave :: ops)

namespace ScopeTable

open Scopes (Entry frames belowFrame?)

variable {σ τ α : Type} (T : ScopeTable σ α) (M : ScopeTable τ α)

def after (t : σ) : ScopeOp α → σ
  | .add name value => T.add t name value
  | .enter => T.enter t
  | .leave =>
    match T.leave t with
    | .ok t | .error t => t

def run (ops : List (ScopeOp α)) : σ :=
  ops.foldl T.after T.empty

def build : List (Entry α) → σ
  | [] => T.empty
  | .frame :: es => T.enter (build es)
  | .binding name value :: es => T.add (build es) name value

theorem view_build (es : List (Entry α)) : T.view (T.build es) = M.view (M.build es) := by
  induction es with
  | nil => rw [build, build, T.view_empty, M.view_empty]
  | cons e es ih =>
    cases e with
    | frame => rw [build, build, T.view_enter, M.view_enter, ih]
    | binding name value => rw [build, build, T.view_add, M.view_add, ih]

theorem depth_build (es : List (Entry α)) : (T.view (T.build es)).depth = frames es := by
  induction es with
  | nil =>
    rw [build, T.view_empty]
    rfl
  | cons e es ih =>
    cases e with
    | frame =>
      rw [build, T.view_enter]
      exact congrArg (· + 1) ih
    | binding name value =>
      rw [build, T.view_add]
      exact ih

theorem leave_build (es : List (Entry α)) : T.leave (T.build es) =
    (belowFrame? es).elim (.error T.empty) fun rest => .ok (T.build rest) := by
  induction es with
  | nil => exact T.leave_empty
  | cons e es ih =>
    cases e with
    | frame => exact T.leave_enter _
    | binding name value => exact (T.leave_add _ name value).trans ih

theorem belowFrame?_eq_none {es : List (Entry α)} : belowFrame? es = none ↔ frames es = 0 := by
  induction es with
  | nil => simp [belowFrame?, frames]
  | cons e es ih => cases e <;> simp [belowFrame?, frames, ih]

def entriesAfter (es : List (Entry α)) : ScopeOp α → List (Entry α)
  | .add name value => .binding name value :: es
  | .enter => .frame :: es
  | .leave => (belowFrame? es).getD []

theorem after_build (es : List (Entry α)) (op : ScopeOp α) :
    T.after (T.build es) op = T.build (entriesAfter es op) := by
  cases op with
  | add name value => rfl
  | enter => rfl
  | leave =>
    rw [after, T.leave_build, entriesAfter]
    cases belowFrame? es <;> rfl

/-- Every table that comes about is one with certain entries, which do not depend on the kind of
table. -/
theorem run_eq_build (ops : List (ScopeOp α)) :
    T.run ops = T.build (ops.foldl entriesAfter []) := by
  have from_entries : ∀ es,
      ops.foldl T.after (T.build es) = T.build (ops.foldl entriesAfter es) := by
    induction ops with
    | nil => exact fun _ => rfl
    | cons op ops ih =>
      intro es
      rw [List.foldl_cons, T.after_build, ih, List.foldl_cons]
  exact from_entries []

theorem leave_foldl {body : List (ScopeOp α)} (balanced : ScopeOp.Balanced body) (t : σ) :
    T.leave (body.foldl T.after t) = T.leave t := by
  induction balanced generalizing t with
  | nil => rfl
  | add _ ih => exact (ih _).trans (T.leave_add _ _ _)
  | @scope body ops _ _ inner rest =>
    have left : T.after (body.foldl T.after (T.enter t)) .leave = t := by
      rw [after, inner, T.leave_enter]
    rw [List.foldl_append, List.foldl_cons, List.foldl_cons, after, left]
    exact rest t

structure Refines (T : ScopeTable σ α) (M : ScopeTable τ α) : Prop where
  /-- No sequence of operations tells the tables apart. -/
  view : ∀ ops, T.view (T.run ops) = M.view (M.run ops)
  /-- Leaving a scope gives back the table that was there right before the scope was entered. -/
  restores : ∀ ops body, ScopeOp.Balanced body →
    T.leave (T.run (ops ++ .enter :: body)) = .ok (T.run ops)
  /-- Leaving fails exactly if no scope is open, with nothing bound any more. -/
  fails : ∀ ops, (∃ t, T.leave (T.run ops) = .error t) ↔ (M.view (M.run ops)).depth = 0
  emptied : ∀ ops t, T.leave (T.run ops) = .error t → t = T.empty

theorem refines : T.Refines M where
  view ops := by rw [run_eq_build, run_eq_build, T.view_build M]
  restores ops body balanced := by
    rw [run, List.foldl_append, List.foldl_cons, T.leave_foldl balanced]
    exact T.leave_enter _
  fails ops := by
    rw [T.run_eq_build, T.leave_build, M.run_eq_build, M.depth_build, ← belowFrame?_eq_none]
    cases belowFrame? (ops.foldl entriesAfter []) <;> simp
  emptied ops t failed := by
    rw [T.run_eq_build, T.leave_build] at failed
    cases below : belowFrame? (ops.foldl entriesAfter []) with
    | none =>
      rw [below] at failed
      exact (Except.error.inj failed).symm
    | some rest =>
      rw [below] at failed
      cases failed

end ScopeTable

/-- One map for each scope, the innermost first. -/
structure ScopeMaps (α : Type) where
  inner : String → Option α
  outer : List (String → Option α)

namespace ScopeMaps

variable {α : Type}

def maps (m : ScopeMaps α) : List (String → Option α) :=
  m.inner :: m.outer

/-- The place of the innermost map that has the name; the outermost map is in place 0. -/
def indexOf? (name : String) : List (String → Option α) → Option Nat
  | [] => none
  | map :: maps => if (map name).isSome then some maps.length else indexOf? name maps

def view (m : ScopeMaps α) : ScopeView α where
  get? name := m.maps.findSome? (· name)
  contains name := m.maps.any fun map => (map name).isSome
  depthOf? name := indexOf? name m.maps
  depth := m.outer.length

def add (m : ScopeMaps α) (name : String) (value : α) : ScopeMaps α :=
  { m with inner := Function.update m.inner name (some value) }

def enter (m : ScopeMaps α) : ScopeMaps α :=
  ⟨fun _ => none, m.maps⟩

def leave (m : ScopeMaps α) : Except (ScopeMaps α) (ScopeMaps α) :=
  match m.outer with
  | map :: maps => .ok ⟨map, maps⟩
  | [] => .error ⟨fun _ => none, []⟩

theorem view_add (m : ScopeMaps α) (name : String) (value : α) :
    (m.add name value).view = m.view.add name value := by
  ext1
  · funext key
    by_cases h : key = name <;>
      simp [view, add, maps, ScopeView.add, List.findSome?_cons, h]
  · funext key
    by_cases h : key = name <;> simp [view, add, maps, ScopeView.add, h]
  · funext key
    by_cases h : key = name <;> simp [view, add, maps, ScopeView.add, indexOf?, h]
  · rfl

def table : ScopeTable (ScopeMaps α) α where
  view := view
  empty := ⟨fun _ => none, []⟩
  add := add
  enter := enter
  leave := leave
  view_empty := rfl
  view_add := view_add
  view_enter _ := rfl
  leave_empty := rfl
  leave_add _ _ _ := rfl
  leave_enter _ := rfl

end ScopeMaps

inductive ScopeLog.Record (α : Type) where
  | frame
  /-- A name was bound; before, it stood for `previous`. -/
  | binding (name : String) (previous : Option (α × Nat))

/-- One map with the values that are visible, each with the depth at which it was bound, and a log
from which what they hide is put back. -/
structure ScopeLog (α : Type) where
  values : String → Option (α × Nat)
  /-- The records, the latest first. -/
  log : List (ScopeLog.Record α)
  depth : Nat

namespace ScopeLog

variable {α : Type}

def empty : ScopeLog α :=
  ⟨fun _ => none, [], 0⟩

def view (t : ScopeLog α) : ScopeView α where
  get? name := (t.values name).map (·.1)
  contains name := (t.values name).isSome
  depthOf? name := (t.values name).map (·.2)
  depth := t.depth

def add (t : ScopeLog α) (name : String) (value : α) : ScopeLog α where
  values := Function.update t.values name (some (value, t.depth))
  log := .binding name (t.values name) :: t.log
  depth := t.depth

def enter (t : ScopeLog α) : ScopeLog α :=
  { t with log := .frame :: t.log, depth := t.depth + 1 }

/-- Takes records off the log, the latest first, down to a mark. -/
def replay (depth : Nat) : List (Record α) → (String → Option (α × Nat)) →
    Except (ScopeLog α) (ScopeLog α)
  | [], values => .error ⟨values, [], depth⟩
  | .frame :: log, values => .ok ⟨values, log, depth - 1⟩
  | .binding name previous :: log, values =>
    replay depth log (Function.update values name previous)

def leave (t : ScopeLog α) : Except (ScopeLog α) (ScopeLog α) :=
  replay t.depth t.log t.values

theorem view_add (t : ScopeLog α) (name : String) (value : α) :
    (t.add name value).view = t.view.add name value := by
  ext1
  · funext key
    by_cases h : key = name <;> simp [view, add, ScopeView.add, h]
  · funext key
    by_cases h : key = name <;> simp [view, add, ScopeView.add, h]
  · funext key
    by_cases h : key = name <;> simp [view, add, ScopeView.add, h]
  · rfl

theorem leave_add (t : ScopeLog α) (name : String) (value : α) :
    (t.add name value).leave = t.leave := by
  rw [leave, add, replay, Function.update_idem, Function.update_eq_self, leave]

def table : ScopeTable (ScopeLog α) α where
  view := view
  empty := empty
  add := add
  enter := enter
  leave := leave
  view_empty := rfl
  view_add := view_add
  view_enter _ := rfl
  leave_empty := rfl
  leave_add := leave_add
  leave_enter _ := rfl

end ScopeLog

namespace Scopes

variable {α : Type}

def view (s : Scopes α) : ScopeView α where
  get? := s.get?
  contains := s.contains
  depthOf? := s.depthOf?
  depth := s.depth

theorem view_add (s : Scopes α) (name : String) (value : α) :
    (s.add name value).view = s.view.add name value := by
  ext1
  · funext key
    by_cases h : key = name
    · simp [view, get?, add, find?, ScopeView.add, h]
    · simp [view, get?, add, find?, ScopeView.add, h, Ne.symm h]
  · funext key
    by_cases h : key = name
    · simp [view, contains, get?, add, find?, ScopeView.add, h]
    · simp [view, contains, get?, add, find?, ScopeView.add, h, Ne.symm h]
  · funext key
    by_cases h : key = name
    · simp [view, depthOf?, add, find?, ScopeView.add, depth, h]
    · simp [view, depthOf?, add, find?, ScopeView.add, depth, h, Ne.symm h]
  · rfl

def table : ScopeTable (Scopes α) α where
  view := view
  empty := empty
  add := add
  enter := enter
  leave := leave
  view_empty := rfl
  view_add := view_add
  view_enter _ := rfl
  leave_empty := rfl
  leave_add _ _ _ := rfl
  leave_enter _ := rfl

/-- The table answers from the innermost scope that has a name, whatever is done to it, and so does
the table with a log. Leaving a scope gives back the table from before it, and fails exactly outside
all scopes, when nothing is left. -/
theorem refines_maps : (table : ScopeTable (Scopes α) α).Refines ScopeMaps.table ∧
    (ScopeLog.table : ScopeTable (ScopeLog α) α).Refines ScopeMaps.table :=
  ⟨table.refines _, ScopeLog.table.refines _⟩

end Scopes

end FrontEnd
