import FrontEnd.Proofs.Path
import FrontEnd.Proofs.Renaming.Types

namespace FrontEnd

namespace Text

variable {sep : Char}

theorem intercalate_append {xs ys : List (List Char)} (hx : xs ≠ []) (hy : ys ≠ []) :
    [sep].intercalate (xs ++ ys) = [sep].intercalate xs ++ sep :: [sep].intercalate ys := by
  induction xs with
  | nil => exact absurd rfl hx
  | cons x xs ih =>
    cases xs with
    | nil =>
      cases ys with
      | nil => exact absurd rfl hy
      | cons y ys => simp [List.intercalate_cons_cons]
    | cons x' xs =>
      have rest := ih (by simp)
      simp only [List.cons_append, List.intercalate_cons_cons] at rest ⊢
      rw [rest, List.append_assoc, List.append_assoc, List.append_assoc]

theorem intercalate_split (cs : List Char) : [sep].intercalate (split sep cs) = cs := by
  induction cs with
  | nil => rfl
  | cons c cs ih =>
    rw [split]
    cases cut : split sep cs with
    | nil => exact absurd cut (split_ne_nil cs)
    | cons piece pieces =>
      rw [cut] at ih
      by_cases same : c = sep
      · rw [if_pos same, List.intercalate_cons_cons, ih, same]
        rfl
      · rw [if_neg same]
        cases pieces with
        | nil => simpa using ih
        | cons next pieces =>
          rw [List.intercalate_cons_cons] at ih
          simpa [List.intercalate_cons_cons] using ih

end Text

namespace Name

theorem toString_injective : Function.Injective (toString : Nat → String) := by
  intro m n same
  have read (i : Nat) : Nat.ofDigitChars 10 (toString i).toList 0 = i := by simp
  rw [← read m, same, read n]

def words (u : String) : List (List Char) :=
  Text.split '-' u.toList

def ofWords (ws : List (List Char)) : String :=
  .ofList (['-'].intercalate ws)

theorem words_ne_nil (u : String) : words u ≠ [] :=
  Text.split_ne_nil u.toList

theorem plain_words (u : String) : ∀ w ∈ words u, '-' ∉ w :=
  fun _ mem => Text.not_mem_of_mem_split mem

theorem ofWords_words (u : String) : ofWords (words u) = u := by
  rw [ofWords, words, Text.intercalate_split, String.ofList_toList]

theorem words_ofWords {ws : List (List Char)} (some : ws ≠ []) (plain : ∀ w ∈ ws, '-' ∉ w) :
    words (ofWords ws) = ws := by
  rw [words, ofWords, String.toList_ofList, Text.split_intercalate some plain]

theorem words_dashed (v u : String) : words (v ++ "-" ++ u) = words v ++ words u := by
  have cs : (v ++ "-" ++ u).toList = v.toList ++ '-' :: u.toList := by simp
  rw [words, cs, Text.split_append]
  rfl

theorem ofWords_append {ws ws' : List (List Char)} (some : ws ≠ []) (some' : ws' ≠ []) :
    ofWords (ws ++ ws') = ofWords ws ++ "-" ++ ofWords ws' := by
  apply String.toList_injective
  simp [ofWords, Text.intercalate_append some some']

theorem words_plain {v : String} (plain : '-' ∉ v.toList) : words v = [v.toList] :=
  Text.split_of_not_mem plain

theorem number_unique {v v' : String} {m n : Nat}
    (same : v ++ "-" ++ toString m = v' ++ "-" ++ toString n) :
    m = n := by
  have cut := congrArg words same
  rw [words_dashed, words_dashed, words_plain (plain_toString m), words_plain (plain_toString n)]
    at cut
  have last := List.append_inj_right' cut rfl
  exact toString_injective (String.toList_injective (List.singleton_inj.mp last))

end Name

namespace Renaming

open Name

def laterWord (k : Nat) (w : List Char) : List Char :=
  let n := Nat.ofDigitChars 10 w 0
  if (toString n).toList = w then (toString (n + k)).toList else w

theorem laterWord_numeral (k n : Nat) :
    laterWord k (toString n).toList = (toString (n + k)).toList := by
  have read : Nat.ofDigitChars 10 (toString n).toList 0 = n := by simp
  simp only [laterWord, read, if_true]

theorem laterWord_cases (k : Nat) (w : List Char) :
    (∃ n : Nat, w = (toString n).toList ∧ laterWord k w = (toString (n + k)).toList) ∨
      (∀ n : Nat, w ≠ (toString n).toList) ∧ laterWord k w = w := by
  by_cases numeral : ∃ n : Nat, w = (toString n).toList
  · obtain ⟨n, rfl⟩ := numeral
    exact .inl ⟨n, rfl, laterWord_numeral k n⟩
  · have other : ∀ n : Nat, w ≠ (toString n).toList := fun n same => numeral ⟨n, same⟩
    refine .inr ⟨other, if_neg ?_⟩
    exact fun same => other _ same.symm

theorem laterWord_injective (k : Nat) : Function.Injective (laterWord k) := by
  intro w w' same
  obtain ⟨n, rfl, later⟩ | ⟨other, kept⟩ := laterWord_cases k w
  · obtain ⟨n', rfl, later'⟩ | ⟨other', kept'⟩ := laterWord_cases k w'
    · rw [later, later'] at same
      have sum := Name.toString_injective (String.toList_injective same)
      rw [Nat.add_right_cancel sum]
    · rw [later, kept'] at same
      exact absurd same.symm (other' _)
  · obtain ⟨n', rfl, later'⟩ | ⟨other', kept'⟩ := laterWord_cases k w'
    · rw [kept, later'] at same
      exact absurd same (other _)
    · rwa [kept, kept'] at same

theorem plain_laterWord (k : Nat) {w : List Char} (plain : '-' ∉ w) : '-' ∉ laterWord k w := by
  obtain ⟨n, rfl, later⟩ | ⟨other, kept⟩ := laterWord_cases k w
  · rw [later]
    exact Name.plain_toString (n + k)
  · rwa [kept]

/-- The first word of a name is written in the text; what follows are ids. -/
def laterName (k : Nat) : List (List Char) → List (List Char)
  | [] => []
  | w :: ws => w :: ws.map (laterWord k)

def later (k : Nat) : Renaming where
  unit := fun u => ofWords ((words u).map (laterWord k))
  id := fun n => n + k
  name := fun v => ofWords (laterName k (words v))
  unit_injective := by
    intro u u' same
    have plain (u : String) : ∀ w ∈ (words u).map (laterWord k), '-' ∉ w := by
      intro w mem
      obtain ⟨w', mem', rfl⟩ := List.mem_map.mp mem
      exact plain_laterWord k (plain_words u w' mem')
    have some (u : String) : (words u).map (laterWord k) ≠ [] := by
      simpa using words_ne_nil u
    have mapped := congrArg words same
    dsimp only at mapped
    rw [words_ofWords (some u) (plain u), words_ofWords (some u') (plain u')] at mapped
    rw [← ofWords_words u, (laterWord_injective k).list_map mapped, ofWords_words]
  id_injective := fun _ _ same => Nat.add_right_cancel same
  plain := by
    intro v plain
    rw [words_plain plain]
    simp [laterName, ofWords]
  dashed := by
    intro v u
    rw [words_dashed]
    cases first : words v with
    | nil => exact absurd first (words_ne_nil v)
    | cons w ws =>
      have split : laterName k (w :: ws ++ words u) =
          laterName k (w :: ws) ++ (words u).map (laterWord k) := by simp [laterName]
      rw [split]
      exact ofWords_append (by simp [laterName]) (by simpa using words_ne_nil u)
  numeral := by
    intro n
    rw [words_plain (Name.plain_toString n), List.map_singleton, laterWord_numeral, ofWords,
      List.intercalate_singleton, String.ofList_toList]
  next := by
    intro n
    omega

theorem words_later_name (k : Nat) (q : String) :
    words ((later k).name q) = laterName k (words q) := by
  have plain : ∀ w ∈ laterName k (words q), '-' ∉ w := by
    intro w mem
    cases split : words q with
    | nil => exact absurd split (words_ne_nil q)
    | cons v vs =>
      rw [split] at mem
      obtain rfl | mem := List.mem_cons.mp mem
      · exact plain_words q w (split ▸ List.mem_cons_self)
      · obtain ⟨x, hx, rfl⟩ := List.mem_map.mp mem
        exact plain_laterWord k (plain_words q x (split ▸ List.mem_cons_of_mem _ hx))
  refine words_ofWords ?_ plain
  cases split : words q with
  | nil => exact absurd split (words_ne_nil q)
  | cons v vs => simp [laterName]

theorem later_name_ne {k m : Nat} (earlier : m < k) (q v : String) :
    (later k).name q ≠ v ++ "-" ++ toString m := by
  intro same
  have cut := congrArg words same
  rw [words_later_name, words_dashed, words_plain (plain_toString m)] at cut
  have last : (toString m).toList ∈ (words q).tail.map (laterWord k) := by
    cases split : words q with
    | nil => exact absurd split (words_ne_nil q)
    | cons w ws =>
      cases first : words v with
      | nil => exact absurd first (words_ne_nil v)
      | cons x xs =>
        rw [split, first] at cut
        have rest : ws.map (laterWord k) = xs ++ [(toString m).toList] := (List.cons.inj cut).2
        rw [List.tail_cons, rest]
        exact List.mem_append_right _ List.mem_cons_self
  obtain ⟨w, _, becomes⟩ := List.mem_map.mp last
  obtain ⟨n, rfl, later⟩ | ⟨other, kept⟩ := laterWord_cases k w
  · have sum := toString_injective (String.toList_injective (later.symm.trans becomes))
    omega
  · exact other m (kept.symm.trans becomes)

end Renaming

end FrontEnd
