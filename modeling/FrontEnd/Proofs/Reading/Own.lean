import FrontEnd.Proofs.Checking.Invariant
import FrontEnd.Proofs.Reading.Natural

namespace FrontEnd

def Name.Own (unit name : String) : Prop :=
  ∃ v, name = Name.qualify v unit

namespace Setting

variable {A : Setting} {a b : Nat}

def any (unit : String) : Setting :=
  ⟨.identity, unit, trivial, fun _ => True, True, fun _ => trivial⟩

theorem Tree.le {p : Phrase} (h : A.Tree a b p) : a ≤ b := by
  induction h <;> omega

theorem Tree.of_mem {ps : List Phrase} (h : A.Tree a b (.many ps)) {p : Phrase} (mem : p ∈ ps) :
    ∃ a b, A.Tree a b p := by
  generalize whole : Phrase.many ps = q at h
  induction h generalizing ps with
  | nil =>
    cases whole
    cases mem
  | cons first _ _ ih =>
    cases whole
    obtain rfl | mem := List.mem_cons.mp mem
    · exact ⟨_, _, first⟩
    · exact ih mem rfl
  | lost _ _ _ ih => exact ih mem whole
  | _ => cases whole

theorem Tree.named {x : Stmt} (h : A.Tree a b (.stmt x)) : x.Named (Name.Own A.unit) := by
  cases h with
  | record own =>
    obtain ⟨w, _, same⟩ := own
    exact ⟨w, same⟩
  | _ => trivial

end Setting

theorem Program.tree_read (c : Cursor) (o : ReadOptions) :
    (Setting.any o.unit).Tree o.nextId (Program.read c o).nextId
      (.many ((Program.read c o).program.statements.map .stmt)) :=
  ((Setting.any o.unit).tree_read c rfl fun _ _ => trivial).2 (.inl trivial)

/-- Ids are only handed out, never taken back. -/
theorem Program.nextId_read (c : Cursor) (o : ReadOptions) : o.nextId ≤ (Program.read c o).nextId :=
  (tree_read c o).le

theorem Program.id_read (c : Cursor) (o : ReadOptions) : (Program.read c o).program.id = o.unit :=
  ((Setting.any o.unit).tree_read c rfl fun _ _ => trivial).1

theorem Program.own_read (c : Cursor) (o : ReadOptions) :
    ∀ x ∈ (Program.read c o).program.statements, x.Named (Name.Own o.unit) := by
  intro x hx
  obtain ⟨_, _, tree⟩ := (tree_read c o).of_mem (List.mem_map_of_mem hx)
  exact tree.named

end FrontEnd
