import FrontEnd.Name
import Mathlib.Data.List.TakeWhile

namespace FrontEnd

theorem Name.cut {q : String} (h : '-' ∈ q.toList) : ∃ v u, '-' ∉ v.toList ∧ q = v ++ "-" ++ u := by
  obtain ⟨front, back, split, plain⟩ := List.eq_append_cons_of_mem h
  refine ⟨.ofList front, .ofList back, by rwa [String.toList_ofList], ?_⟩
  apply String.toList_injective
  simp [split]

theorem Name.bare_dashed {v : String} (plain : '-' ∉ v.toList) (u : String) :
    Name.bare (v ++ "-" ++ u) = v := by
  have inName : ∀ c ∈ v.toList, decide (c ≠ '-') = true := fun c mem => by
    rw [decide_eq_true_eq]
    rintro rfl
    exact plain mem
  unfold bare
  rw [String.toList_append, String.toList_append, List.append_assoc,
    List.takeWhile_append_of_pos inName]
  simp

theorem Name.bare_plain {v : String} (plain : '-' ∉ v.toList) : Name.bare v = v := by
  have whole : v.toList.takeWhile (· ≠ '-') = v.toList :=
    List.takeWhile_eq_self_iff.mpr fun c mem => by
      rw [decide_eq_true_eq]
      rintro rfl
      exact plain mem
  rw [bare, whole, String.ofList_toList]

theorem Name.plain_bare (q : String) : '-' ∉ (Name.bare q).toList := by
  rw [bare, String.toList_ofList]
  intro mem
  simpa using List.mem_takeWhile_imp mem

theorem Name.bare_qualify {name : String} (plain : '-' ∉ name.toList) (unit : String) :
    Name.bare (Name.qualify name unit) = name := by
  unfold qualify
  split
  · exact bare_plain plain
  · exact bare_dashed plain unit

theorem Name.isDigit_of_mem_toString {n : Nat} {c : Char} (mem : c ∈ (toString n).toList) :
    c.isDigit = true := by
  rw [Nat.toString_eq_ofList_toDigits, String.toList_ofList] at mem
  exact Nat.isDigit_of_mem_toDigits (by decide) (by decide) mem

theorem Name.plain_toString (n : Nat) : '-' ∉ (toString n).toList :=
  fun mem => absurd (isDigit_of_mem_toString mem) (by decide)

end FrontEnd
