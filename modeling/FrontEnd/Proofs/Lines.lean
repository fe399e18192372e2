import Mathlib.Data.List.Induction
import FrontEnd.Diagnostic.Excerpt
import FrontEnd.Proofs.Path
import FrontEnd.Proofs.Token.Tiling

namespace FrontEnd

namespace Text

def lastLine (front : List Char) : List Char :=
  (front.reverse.takeWhile (· ≠ '\n')).reverse

def firstLine (back : List Char) : List Char :=
  back.takeWhile (· ≠ '\n')

theorem not_mem_lastLine (front : List Char) : '\n' ∉ lastLine front := by
  intro mem
  have := List.mem_takeWhile_imp (List.mem_reverse.mp mem)
  simp at this

theorem not_mem_firstLine (back : List Char) : '\n' ∉ firstLine back := by
  intro mem
  have := List.mem_takeWhile_imp mem
  simp at this

theorem eq_lastLine (front : List Char) :
    front = lastLine front ∧ front.count '\n' = 0 ∨
      ∃ before, front = before ++ '\n' :: lastLine front ∧
        front.count '\n' = before.count '\n' + 1 := by
  induction front using List.reverseRecOn with
  | nil => exact .inl ⟨rfl, rfl⟩
  | append_singleton front c ih =>
    by_cases break? : c = '\n'
    · subst break?
      exact .inr ⟨front, by simp [lastLine], by simp⟩
    · have longer : lastLine (front ++ [c]) = lastLine front ++ [c] := by simp [lastLine, break?]
      rw [longer]
      obtain ⟨all, none⟩ | ⟨before, parts, count⟩ := ih
      · exact .inl ⟨by rw [← all], by simp [none, break?]⟩
      · refine .inr ⟨before, ?_, by simp [count, break?]⟩
        rw [← List.cons_append, ← List.append_assoc, ← parts]

variable {sep : Char}

theorem length_split (cs : List Char) : (split sep cs).length = cs.count sep + 1 := by
  induction cs with
  | nil => rfl
  | cons c cs ih =>
    by_cases same : c = sep
    · simp [split, same, ih]
    · cases pieces : split sep cs with
      | nil => exact absurd pieces (split_ne_nil cs)
      | cons piece pieces => simp [split, ← ih, *]

theorem head?_split_newline (cs : List Char) : (split '\n' cs)[0]? = some (firstLine cs) := by
  induction cs with
  | nil => rfl
  | cons c cs ih =>
    by_cases same : c = '\n'
    · simp [split, same, firstLine]
    · cases pieces : split '\n' cs with
      | nil => exact absurd pieces (split_ne_nil cs)
      | cons piece pieces => simp_all [split, firstLine]

theorem split_at_line (front back : List Char) :
    (split '\n' (front ++ back))[front.count '\n']? = some (lastLine front ++ firstLine back) := by
  have first : firstLine (lastLine front ++ back) = lastLine front ++ firstLine back := by
    refine List.takeWhile_append_of_pos fun c mem => ?_
    simpa using ne_of_mem_of_not_mem mem (not_mem_lastLine front)
  obtain ⟨all, none⟩ | ⟨before, parts, count⟩ := eq_lastLine front
  · rw [none, head?_split_newline, ← first, ← all]
  · have whole : front ++ back = before ++ '\n' :: (lastLine front ++ back) := by
      rw [← List.cons_append, ← List.append_assoc, ← parts]
    rw [whole, split_append, count, ← first, ← length_split,
      List.getElem?_append_right (Nat.le_refl _), Nat.sub_self, head?_split_newline]

theorem dropLastWhile_subset {p : Char → Bool} {cs : List Char} : dropLastWhile p cs ⊆ cs := by
  intro c mem
  have mem := (List.dropWhile_sublist p).subset (List.mem_reverse.mp mem)
  exact List.mem_reverse.mp mem

theorem dropLastWhile_append_cons {p : Char → Bool} {c : Char} (stays : p c = false)
    (front back : List Char) :
    dropLastWhile p (front ++ c :: back) = front ++ c :: dropLastWhile p back := by
  unfold dropLastWhile
  rw [List.reverse_append, List.reverse_cons, List.append_assoc, List.dropWhile_append]
  split
  case isTrue none =>
    rw [List.isEmpty_iff.mp none]
    simp [stays]
  case isFalse => simp

theorem line?_after {source file : String} {front back : List Char}
    (parts : source.toList = front ++ back) :
    line? source (Position.after file front).line = some (String.ofList
      (dropLastWhile (· = '\r') (lastLine front ++ firstLine back))) := by
  have number : (Position.after file front).line - 1 = front.count '\n' :=
    Nat.add_sub_cancel_left ..
  rw [line?, parts, number, split_at_line]
  rfl

end Text

namespace Position

theorem column_after (file : String) (front : List Char) :
    (after file front).column = (Text.lastLine front).length + 1 := by
  simp [after, Text.lastLine, Nat.add_comm]

end Position

end FrontEnd
