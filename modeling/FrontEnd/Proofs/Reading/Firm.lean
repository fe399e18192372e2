import FrontEnd.Proofs.Name
import FrontEnd.Proofs.Reading.Natural
import FrontEnd.Proofs.Ty.Complete

namespace FrontEnd

mutual

/-- Leaves open the records outside records that are not firm. -/
def Ty.prune : Ty → Ty
  | .pointer t => .pointer t.prune
  | .array t n => .array t.prune n
  | .func ⟨name, params, names, result⟩ => .func ⟨name, Ty.pruneAll params, names, result.prune⟩
  | .record decl => if (Ty.record decl).firm then .record decl else .todo
  | .module _ => .todo
  | t => t

def Ty.pruneAll : List Ty → List Ty
  | [] => []
  | t :: ts => t.prune :: Ty.pruneAll ts

end

theorem Ty.pruneAll_eq_map (ts : List Ty) : Ty.pruneAll ts = ts.map Ty.prune := by
  induction ts with
  | nil => rfl
  | cons t ts ih => rw [Ty.pruneAll, ih, List.map_cons]

mutual

theorem Ty.prune_of_firm : ∀ t : Ty, t.firm = true → t.prune = t
  | .pointer t, h => congrArg Ty.pointer (Ty.prune_of_firm t h)
  | .array t n, h => congrArg (Ty.array · n) (Ty.prune_of_firm t h)
  | .func ⟨_, params, _, result⟩, h => by
    simp only [Ty.firm, Bool.and_eq_true] at h
    simp only [Ty.prune, Ty.pruneAll_of_firm params h.1, Ty.prune_of_firm result h.2]
  | .record _, h => if_pos h
  | .void, _ | .int _, _ | .uint _, _ | .float _, _ | .named _, _ => rfl

theorem Ty.pruneAll_of_firm : ∀ ts : List Ty, Ty.firmAll ts = true → Ty.pruneAll ts = ts
  | [], _ => rfl
  | t :: ts, h => by
    simp only [Ty.firmAll, Bool.and_eq_true] at h
    simp only [Ty.pruneAll, Ty.prune_of_firm t h.1, Ty.pruneAll_of_firm ts h.2]

end

mutual

theorem Ty.firm_of_prune : ∀ t : Ty, t.settled = true → t.prune = t → t.firm = true
  | .pointer t, settled, same => Ty.firm_of_prune t settled (Ty.pointer.inj same)
  | .array t _, settled, same => Ty.firm_of_prune t settled (Ty.array.inj same).1
  | .func ⟨_, params, _, result⟩, settled, same => by
    simp only [Ty.settled, Bool.and_eq_true] at settled
    simp only [Ty.prune, Ty.func.injEq, Signature.mk.injEq, true_and] at same
    simp only [Ty.firm, Bool.and_eq_true]
    exact ⟨Ty.firmAll_of_pruneAll params settled.1 same.1, Ty.firm_of_prune result settled.2 same.2⟩
  | .record decl, _, same => by
    unfold Ty.prune at same
    split at same
    case isTrue firm => exact firm
    case isFalse => exact absurd same nofun
  | .void, _, _ | .int _, _, _ | .uint _, _, _ | .float _, _, _ | .named _, _, _ => rfl

theorem Ty.firmAll_of_pruneAll :
    ∀ ts : List Ty, Ty.settledAll ts = true → Ty.pruneAll ts = ts → Ty.firmAll ts = true
  | [], _, _ => rfl
  | t :: ts, settled, same => by
    simp only [Ty.settledAll, Bool.and_eq_true] at settled
    obtain ⟨first, rest⟩ := List.cons.inj same
    simp only [Ty.firmAll, Bool.and_eq_true]
    exact ⟨Ty.firm_of_prune t settled.1 first, Ty.firmAll_of_pruneAll ts settled.2 rest⟩

end

def Translation.pruning : Translation :=
  { identity with
    type := Ty.prune
    Covers := fun u => '-' ∉ u.toList
    qualify := fun _ _ => rfl
    void := rfl
    int := fun _ => rfl
    uint := fun _ => rfl
    float := fun _ => rfl
    todo := rfl
    pointer := fun _ => rfl
    array := fun _ _ => rfl
    func := by
      rintro ⟨name, params, names, result⟩
      simp [Ty.prune, Ty.pruneAll_eq_map, identity]
    named := by
      rintro ⟨name, modules⟩
      simp [Ty.prune, identity] }

theorem Program.pruned_read {c : Cursor} {o : ReadOptions} (unit : '-' ∉ o.unit.toList)
    (firm : ∀ t ∈ o.typeArgs, t.firm = true) :
    Translation.pruning.tree.stmts (Program.read c o).program.statements =
      (Program.read c o).program.statements := by
  have same : Translation.pruning.options o = o := by
    have args : o.typeArgs.map Ty.prune = o.typeArgs := by
      rw [← Ty.pruneAll_eq_map]
      exact Ty.pruneAll_of_firm _ (Ty.firmAll_iff.mpr firm)
    obtain ⟨id, typeArgs, nextId, limit⟩ := o
    exact congrArg (fun args => (⟨id, args, nextId, limit⟩ : ReadOptions)) args
  have still : Translation.pruning.Still := {}
  have read := still.read_options c unit
  rw [same] at read
  exact (congrArg (fun r => r.program.statements) read).symm

end FrontEnd
