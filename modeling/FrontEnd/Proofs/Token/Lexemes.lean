import FrontEnd.Proofs.Token.Scan
import Mathlib.Data.List.TakeWhile

namespace FrontEnd

namespace Pattern

/-- The first lexeme of a text, with kind and value of its token unless it is a gap. A character
that nothing begins with is an illegal token. -/
def cut (cs : List Char) : Option (Kind × String) × List Char :=
  match first cs with
  | some (p, lexeme) => (p.token? lexeme, lexeme)
  | none => (some (.illegal, String.ofList (cs.take 1)), cs.take 1)

theorem cut_prefix (cs : List Char) : (cut cs).2 <+: cs := by
  unfold cut
  split
  case h_1 p lexeme fits => exact lexeme_prefix (first_eq_some fits).2
  case h_2 => exact List.take_prefix 1 cs

theorem cut_ne_nil {cs : List Char} (h : cs ≠ []) : (cut cs).2 ≠ [] := by
  unfold cut
  split
  case h_1 p lexeme fits =>
    obtain ⟨hp, hl⟩ := first_eq_some fits
    exact lexeme_ne_nil hp hl
  case h_2 => simpa using h

/-- Cutting a front off a text is local: where it cuts inside `a`, it cuts off something whatever
follows `a`, and the same if it cuts inside `a` again. -/
def Local (f : List Char → Option (List Char)) : Prop :=
  ∀ ⦃a xs ℓ⦄, f (a ++ xs) = some ℓ → ℓ <+: a → ∀ ys, ∃ ℓ', f (a ++ ys) = some ℓ' ∧
    (ℓ' <+: a → ℓ' = ℓ)

section Locality

variable {p : Char → Bool} {a : List Char}

theorem takeWhile_of_inside {xs : List Char} (h : (a ++ xs).takeWhile p <+: a) :
    (a ++ xs).takeWhile p = a.takeWhile p := by
  rw [List.takeWhile_append] at h ⊢
  split
  case isTrue all =>
    rw [if_pos all] at h
    have none : xs.takeWhile p = [] := by
      have := h.length_le
      rw [List.length_append] at this
      exact List.length_eq_zero_iff.mp (by omega)
    rw [none, List.append_nil]
    exact ((List.takeWhile_prefix p).eq_of_length all).symm
  case isFalse => rfl

theorem takeWhile_prefix_append (a ys : List Char) : a.takeWhile p <+: (a ++ ys).takeWhile p := by
  rw [List.takeWhile_append]
  split
  · exact (List.takeWhile_prefix p).trans (List.prefix_append _ _)
  · exact List.prefix_rfl

theorem local_takeWhile (p : Char → Bool) : Local fun cs => some (cs.takeWhile p) := by
  intro a xs ℓ h inside ys
  cases h
  exact ⟨_, rfl,
    fun inside' => (takeWhile_of_inside inside').trans (takeWhile_of_inside inside).symm⟩

theorem local_run (p : Char → Bool) : Local (run p) := by
  intro a xs ℓ h inside ys
  obtain ⟨rfl, nonempty⟩ := run_eq_some h
  rw [takeWhile_of_inside inside] at nonempty ⊢
  refine ⟨(a ++ ys).takeWhile p, ?_, takeWhile_of_inside⟩
  unfold run
  split
  case h_1 empty =>
    have longer := takeWhile_prefix_append (p := p) a ys
    exact absurd (List.prefix_nil.mp (empty ▸ longer)) nonempty
  case h_2 => rfl

theorem Local.after {f g : List Char → Option (List Char)} {m xs ℓ : List Char} (hf : Local f)
    (marked : ∀ cs, g (m ++ cs) = (f cs).map (m ++ ·)) (h : g (a ++ xs) = some ℓ) (mark : m <+: ℓ)
    (inside : ℓ <+: a) (ys : List Char) : ∃ ℓ', g (a ++ ys) = some ℓ' ∧ (ℓ' <+: a → ℓ' = ℓ) := by
  obtain ⟨b, rfl⟩ := mark.trans inside
  rw [List.append_assoc, marked] at h
  obtain ⟨d, hd, rfl⟩ := Option.map_eq_some_iff.mp h
  obtain ⟨d', hd', same⟩ := hf hd ((List.prefix_append_right_inj m).mp inside) ys
  refine ⟨m ++ d', by rw [List.append_assoc, marked, hd', Option.map_some], fun inside' => ?_⟩
  rw [same ((List.prefix_append_right_inj m).mp inside')]

/-- The body of a string ends at its quote, whatever follows. -/
theorem stringBody_append {cs ds : List Char} (h : stringBody cs = some ds) (ys : List Char) :
    stringBody (ds ++ ys) = some ds := by
  fun_induction stringBody cs generalizing ds with
  | case1 cs =>
    cases h
    rfl
  | case2 | case4 | case6 => cases h
  | case3 c cs notBreak ih =>
    obtain ⟨es, he, rfl⟩ := Option.map_eq_some_iff.mp h
    simp [stringBody, notBreak, ih he]
  | case5 c cs notQuote notPair notLast ih =>
    obtain ⟨es, he, rfl⟩ := Option.map_eq_some_iff.mp h
    have notSlash : c ≠ '\\' := by
      rintro rfl
      cases cs with
      | nil => exact notLast rfl rfl
      | cons d cs => exact notPair d cs rfl rfl
    rw [List.cons_append, stringBody, ih he, Option.map_some]
    · exact fun quote => notQuote quote
    · exact fun _ _ slash _ => notSlash slash
    · exact fun slash _ => notSlash slash

theorem local_stringBody : Local stringBody := by
  intro a xs ℓ h inside ys
  obtain ⟨b, rfl⟩ := inside
  refine ⟨ℓ, ?_, fun _ => rfl⟩
  rw [List.append_assoc]
  exact stringBody_append h (b ++ ys)

theorem lexeme_float {whole : List Char} (digits : ∀ c ∈ whole, c.isDigit = true)
    (nonempty : whole ≠ []) (cs : List Char) :
    Pattern.float.lexeme (whole ++ '.' :: cs) = (run Char.isDigit cs).map (whole ++ '.' :: ·) := by
  have front : (whole ++ '.' :: cs).takeWhile Char.isDigit = whole := by
    rw [List.takeWhile_append_of_pos digits]
    simp
  have back : (whole ++ '.' :: cs).dropWhile Char.isDigit = '.' :: cs := by
    rw [List.dropWhile_append_of_pos digits]
    simp
  have hw : run Char.isDigit (whole ++ '.' :: cs) = some whole := by
    unfold run
    split
    case h_1 empty => exact absurd (front.symm.trans empty) nonempty
    case h_2 => rw [front]
  simp [lexeme, hw, back]

theorem local_lexeme (q : Pattern) : Local q.lexeme := by
  intro a xs ℓ h inside ys
  have fits := h
  unfold lexeme at h
  split at h
  case h_1 | h_11 => exact local_run _ fits inside ys
  case h_2 =>
    cases h
    exact (local_takeWhile _).after (m := ['/', '/']) (fun _ => rfl) fits ⟨_, rfl⟩ inside ys
  case h_4 c _ _ =>
    split at h
    case isTrue starts =>
      cases h
      refine (local_takeWhile isWordPart).after (m := [c]) (fun cs => ?_) fits ⟨_, rfl⟩ inside ys
      simp [lexeme, starts]
    case isFalse => cases h
  case h_6 =>
    obtain ⟨_, _, rfl⟩ := Option.map_eq_some_iff.mp h
    exact (local_run _).after (m := ['0', 'x']) (fun _ => rfl) fits ⟨_, rfl⟩ inside ys
  case h_8 =>
    obtain ⟨_, _, rfl⟩ := Option.map_eq_some_iff.mp h
    exact (local_run _).after (m := ['0', 'b']) (fun _ => rfl) fits ⟨_, rfl⟩ inside ys
  case h_10 =>
    split at h
    case h_1 whole rest hw hr =>
      obtain ⟨part, _, rfl⟩ := Option.map_eq_some_iff.mp h
      obtain ⟨digits, nonempty⟩ := run_eq_some hw
      refine (local_run Char.isDigit).after (m := whole ++ ['.'])
        (fun cs => ?_) fits ⟨part, by simp⟩
        inside ys
      have all : ∀ c ∈ whole, c.isDigit = true := fun c mem => List.mem_takeWhile_imp (digits ▸ mem)
      simpa using lexeme_float all nonempty cs
    case h_2 => cases h
  case h_12 =>
    obtain ⟨_, _, rfl⟩ := Option.map_eq_some_iff.mp h
    exact local_stringBody.after (m := ['"']) (fun _ => rfl) fits ⟨_, rfl⟩ inside ys
  case h_14 s =>
    split at h
    case isTrue =>
      cases h
      have still : s.toList.isPrefixOf (a ++ ys) = true :=
        List.isPrefixOf_iff_prefix.mpr (inside.trans (List.prefix_append a ys))
      exact ⟨s.toList, if_pos still, fun _ => rfl⟩
    case isFalse => cases h
  all_goals cases h

end Locality

theorem first_eq_none {cs : List Char} (h : first cs = none) {p : Pattern} (hp : p ∈ table) :
    p.lexeme cs = none :=
  Option.map_eq_none_iff.mp (List.findSome?_eq_none_iff.mp h p hp)

/-- If what is found first by each of two searches is found by the other one too, it stands at the
same place. -/
theorem findSome?_both {α β : Type} {f g : α → Option β} {x y : β} {l : List α}
    (hf : l.findSome? f = some x) (hg : l.findSome? g = some y)
    (fg : ∀ q, f q = some x → (g q).isSome) (gf : ∀ q, g q = some y → (f q).isSome) :
    ∃ q ∈ l, f q = some x ∧ g q = some y := by
  induction l with
  | nil => cases hf
  | cons q l ih =>
    rw [List.findSome?_cons] at hf hg
    cases hq : f q with
    | none =>
      cases hq' : g q with
      | none =>
        rw [hq] at hf
        rw [hq'] at hg
        obtain ⟨q', mem, found⟩ := ih hf hg
        exact ⟨q', List.mem_cons_of_mem q mem, found⟩
      | some y' =>
        rw [hq'] at hg
        have := gf q (hq'.trans hg)
        rw [hq] at this
        cases this
    | some x' =>
      rw [hq] at hf
      cases hf
      obtain ⟨y', hq'⟩ := Option.isSome_iff_exists.mp (fg q hq)
      rw [hq'] at hg
      exact ⟨q, List.mem_cons_self, hq, hq'.trans hg⟩

theorem first_local {a xs ys ℓ ℓ' : List Char} {p p' : Pattern}
    (h : first (a ++ xs) = some (p, ℓ)) (h' : first (a ++ ys) = some (p', ℓ')) (inside : ℓ <+: a)
    (inside' : ℓ' <+: a) : p = p' ∧ ℓ = ℓ' := by
  have fits {cs ds ℓ : List Char} {p : Pattern} (inside : ℓ <+: a) (q : Pattern)
      (hq : (q.lexeme (a ++ cs)).map (q, ·) = some (p, ℓ)) :
      ((q.lexeme (a ++ ds)).map (q, ·)).isSome := by
    obtain ⟨_, hl, same⟩ := Option.map_eq_some_iff.mp hq
    obtain ⟨rfl, rfl⟩ := Prod.mk.inj same
    obtain ⟨_, still, _⟩ := local_lexeme q hl inside ds
    simp [still]
  obtain ⟨q, _, hq, hq'⟩ := findSome?_both h h' (fits inside) (fits inside')
  obtain ⟨_, hl, same⟩ := Option.map_eq_some_iff.mp hq
  obtain ⟨_, hl', same'⟩ := Option.map_eq_some_iff.mp hq'
  cases same
  cases same'
  obtain ⟨_, still, unique⟩ := local_lexeme p hl inside ys
  rw [hl'] at still
  cases still
  exact ⟨rfl, (unique inside').symm⟩

theorem first_eq_none_local {a xs ys ℓ : List Char} {p : Pattern} (h : first (a ++ xs) = none)
    (h' : first (a ++ ys) = some (p, ℓ)) : ¬ ℓ <+: a := by
  intro inside
  obtain ⟨hp, hl⟩ := first_eq_some h'
  obtain ⟨_, still, _⟩ := local_lexeme p hl inside xs
  rw [first_eq_none h hp] at still
  cases still

theorem cut_local {a xs ys : List Char} (nonempty : a ≠ []) (inside : (cut (a ++ xs)).2 <+: a)
    (inside' : (cut (a ++ ys)).2 <+: a) : cut (a ++ xs) = cut (a ++ ys) := by
  have single (zs : List Char) : (a ++ zs).take 1 = a.take 1 := by
    obtain ⟨c, cs, rfl⟩ := List.exists_cons_of_ne_nil nonempty
    rfl
  unfold cut at inside inside' ⊢
  cases h : first (a ++ xs) <;> cases h' : first (a ++ ys) <;> rw [h] at inside <;>
    rw [h'] at inside'
  case none.none => simp only [single]
  case none.some => exact absurd inside' (first_eq_none_local h h')
  case some.none => exact absurd inside (first_eq_none_local h' h)
  case some.some =>
    obtain ⟨pattern, lexeme⟩ := first_local h h' inside inside'
    simp only [pattern, lexeme]

end Pattern

namespace Cursor

variable {c : Cursor}

def tokenOf (c : Cursor) (lexeme : List Char) (t : Kind × String) : Token :=
  ⟨t.1, t.2, ⟨c.position, c.position.pastAll lexeme⟩⟩

theorem step_eq_cut (h : c.rest ≠ []) :
    c.step = ((Pattern.cut c.rest).1.map (c.tokenOf (Pattern.cut c.rest).2),
      c.pass (Pattern.cut c.rest).2) := by
  unfold step Pattern.cut
  cases Pattern.first c.rest with
  | some fits =>
    obtain ⟨p, lexeme⟩ := fits
    dsimp only
    cases p.token? lexeme <;> rfl
  | none =>
    obtain ⟨ch, cs, hr⟩ := List.exists_cons_of_ne_nil h
    simp only [hr]
    rfl

theorem tokens_of_cut (h : c.rest ≠ []) :
    c.tokens = ((Pattern.cut c.rest).1.map (c.tokenOf (Pattern.cut c.rest).2)).toList ++
      (c.pass (Pattern.cut c.rest).2).tokens := by
  have hs := step_eq_cut h
  cases ht : (Pattern.cut c.rest).1 with
  | none =>
    rw [ht] at hs
    exact tokens_of_gap h hs
  | some t =>
    rw [ht] at hs
    exact tokens_of_token h hs

end Cursor

end FrontEnd
