import FrontEnd.Proofs.Build
import FrontEnd.Proofs.Token.Literals

namespace FrontEnd

/-- Building the first file of any set of files gives a program or its errors, whatever the texts
and the limits are. While the texts are read, no cut falls outside a text or inside a character, and
no count of bytes, lines or columns overflows. -/
theorem file_never_faults (config : Config) (files : List (String × String)) (source : String)
    (path : Path) (small : ∀ text ∈ source :: files.map (·.2), text.utf8ByteSize < 2 ^ 32 - 1) :
    (∃ result session,
      Build.file source path (.start config (.ofFiles files)) = .ok (result, session)) ∧
    ∀ text ∈ source :: files.map (·.2), ∀ name,
      (∀ n, ((fun c => c.step.2)^[n] (Cursor.ofSource text name)).CutsSafely text.toList ∧
        ((fun c => c.step.2)^[n] (Cursor.ofSource text name)).position.Fits) ∧
      Text.Addressable name text.toList ∧
      ∀ t ∈ (Cursor.ofSource text name).tokens, t.kind = .hex ∨ t.kind = .binary →
        Text.CutAt t.value.toList 2 := by
  constructor
  · obtain ⟨⟨result, session⟩, h⟩ :=
      Build.file_total source path (.start config (.ofFiles files))
    exact ⟨result, session, h⟩
  · intro text ht name
    have size : Text.bytes text.toList < Word.limit := by
      have := small text ht
      rw [Text.bytes_toList, Word.limit]
      omega
    have places : Text.Addressable name text.toList := Text.addressable name (small text ht)
    refine ⟨fun n => ?_, places, fun t => Cursor.cutAt_mark_of_mem_tokens⟩
    have stands := (Cursor.standsIn_ofSource text name).iterate n
    exact ⟨stands.cutsSafely size, stands.fits places⟩

/-- A unit that imports another, with a character of two bytes and a number in base 16. -/
theorem file_never_faults_import :
    (∀ text ∈ ["import a, \"a.cd\"; s := \"é\"; n := 0x1f", "func f(x i32) \x7b @free(&x) \x7d"],
      text.utf8ByteSize < 2 ^ 32 - 1) ∧
    ∃ result session, Build.file "import a, \"a.cd\"; s := \"é\"; n := 0x1f" ⟨"main.cd"⟩
      (.start .default (.ofFiles [("a.cd", "func f(x i32) \x7b @free(&x) \x7d")])) =
        .ok (result, session) := by
  have small : ∀ text ∈ ["import a, \"a.cd\"; s := \"é\"; n := 0x1f",
      "func f(x i32) \x7b @free(&x) \x7d"], text.utf8ByteSize < 2 ^ 32 - 1 := by decide
  have result := file_never_faults .default [("a.cd", "func f(x i32) \x7b @free(&x) \x7d")] _
    ⟨"main.cd"⟩ small
  exact ⟨small, result.1⟩

theorem Cursor.step_letters (file : String) (n : Nat) :
    (ofSource (.ofList (List.replicate (n + 1) 'a')) file).step.2.position.column = n + 2 := by
  have word : Pattern.IsWord (List.replicate (n + 1) 'a') :=
    Pattern.isWord_iff.mpr ⟨'a', List.replicate n 'a', List.replicate_succ, by decide, by
      simp only [List.mem_replicate]
      rintro _ ⟨-, rfl⟩
      decide⟩
  have cut : Pattern.cut (List.replicate (n + 1) 'a' ++ []) = _ := Pattern.cut_word word nofun
  have rest : (ofSource (.ofList (List.replicate (n + 1) 'a')) file).rest =
      List.replicate (n + 1) 'a' := String.toList_ofList
  rw [List.append_nil] at cut
  rw [step_eq_cut (by simp [rest]), rest, cut]
  have place := Position.pastAll_start file (List.replicate (n + 1) 'a')
  refine (congrArg Position.column place).trans ?_
  have all : (List.replicate (n + 1) 'a').reverse.takeWhile (· ≠ '\n') =
      List.replicate (n + 1) 'a' := by
    rw [List.reverse_replicate]
    refine List.takeWhile_eq_self_iff.mpr ?_
    simp only [List.mem_replicate]
    rintro _ ⟨-, rfl⟩
    decide
  change 1 + List.length _ = n + 2
  rw [all, List.length_replicate]
  omega

theorem Cursor.not_fits_letters (file : String) {n : Nat} (many : Position.limit ≤ n + 2) :
    ¬ ((fun c => c.step.2)^[1]
      (ofSource (.ofList (List.replicate (n + 1) 'a')) file)).position.Fits := by
  intro fits
  have small := fits.column
  rw [Function.iterate_one, step_letters] at small
  omega

/-- A word up to the largest offset: the column after it is too large for 32 bits. -/
theorem column_overflows :
    (String.ofList (List.replicate (2 ^ 32 - 1) 'a')).utf8ByteSize < 2 ^ 32 ∧
      ∃ n, ¬ ((fun c => c.step.2)^[n]
        (Cursor.ofSource (.ofList (List.replicate (2 ^ 32 - 1) 'a')) "main.cd")).position.Fits := by
  have size : 'a'.utf8Size = 1 := by decide
  have letters := Cursor.not_fits_letters "main.cd" (n := 2 ^ 32 - 2) (by decide)
  have number : 2 ^ 32 - 2 + 1 = 2 ^ 32 - 1 := by decide
  rw [number] at letters
  refine ⟨?_, 1, letters⟩
  rw [← Text.bytes_toList, String.toList_ofList, Text.bytes_replicate, size]
  decide

end FrontEnd
