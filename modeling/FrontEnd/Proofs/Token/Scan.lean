import FrontEnd.Proofs.Token.Cuts

namespace FrontEnd

namespace Pattern

def spelling? : Pattern → Option String
  | symbol _ s => some s
  | _ => none

theorem of_symbol {k : Kind} {s : String} (hp : symbol k s ∈ table) {P : String → Prop}
    (h : ∀ s ∈ table.filterMap spelling?, P s) : P s :=
  h s (List.mem_filterMap.mpr ⟨_, hp, rfl⟩)

theorem lexeme_ne_nil {p : Pattern} (hp : p ∈ table) {cs ds : List Char}
    (h : p.lexeme cs = some ds) : ds ≠ [] := by
  unfold lexeme at h
  split at h
  case h_1 | h_11 => exact (run_eq_some h).2
  case h_2 =>
    cases h
    exact List.cons_ne_nil _ _
  case h_4 =>
    split at h
    · cases h
      exact List.cons_ne_nil _ _
    · cases h
  case h_6 | h_8 | h_12 =>
    obtain ⟨_, _, rfl⟩ := Option.map_eq_some_iff.mp h
    exact List.cons_ne_nil _ _
  case h_10 =>
    split at h
    case h_1 =>
      obtain ⟨_, _, rfl⟩ := Option.map_eq_some_iff.mp h
      simp
    case h_2 => cases h
  case h_14 =>
    split at h
    · cases h
      exact of_symbol hp (P := fun s => s.toList ≠ []) (by decide +kernel)
    · cases h
  all_goals cases h

end Pattern

namespace Cursor

variable {c : Cursor}
variable {c' : Cursor}

theorem step_passes (h : c.rest ≠ []) :
    ∃ lexeme, lexeme ≠ [] ∧ lexeme <+: c.rest ∧ c.step.2 = c.pass lexeme := by
  obtain ⟨p, lexeme, fits, hs⟩ | ⟨ch, cs, hr, hs⟩ | ⟨hr, _⟩ := step_cases c
  · obtain ⟨hp, hl⟩ := Pattern.first_eq_some fits
    exact ⟨lexeme, Pattern.lexeme_ne_nil hp hl, Pattern.lexeme_prefix hl, by rw [hs]⟩
  · exact ⟨[ch], nofun, by simp [hr], by rw [hs]⟩
  · exact absurd hr h

theorem step_shorter (h : c.rest ≠ []) : c.step.2.rest.length < c.rest.length := by
  obtain ⟨lexeme, nonempty, ⟨back, hb⟩, hs⟩ := step_passes h
  have := List.length_pos_iff.mpr nonempty
  simp [hs, pass, ← hb]
  omega

@[elab_as_elim]
theorem induct_steps {motive : Cursor → Prop} (atEnd : ∀ c : Cursor, c.rest = [] → motive c)
    (step : ∀ c : Cursor, c.rest ≠ [] → motive c.step.2 → motive c) (c : Cursor) : motive c := by
  by_cases h : c.rest = []
  · exact atEnd c h
  · exact step c h (induct_steps atEnd step c.step.2)
termination_by c.rest.length
decreasing_by exact step_shorter h

theorem bound_irrelevant {α : Type} {read : Nat → Cursor → α}
    (atEnd : ∀ c : Cursor, c.rest = [] → ∀ m n, read (m + 1) c = read (n + 1) c)
    (step : ∀ c : Cursor, c.rest ≠ [] → ∀ m n, read m c.step.2 = read n c.step.2 →
      read (m + 1) c = read (n + 1) c)
    {m n : Nat} (hm : c.rest.length < m) (hn : c.rest.length < n) : read m c = read n c := by
  induction c using induct_steps generalizing m n with
  | atEnd c h =>
    obtain ⟨m, rfl⟩ := Nat.exists_eq_add_one_of_ne_zero (Nat.ne_zero_of_lt hm)
    obtain ⟨n, rfl⟩ := Nat.exists_eq_add_one_of_ne_zero (Nat.ne_zero_of_lt hn)
    exact atEnd c h m n
  | step c h ih =>
    obtain ⟨m, rfl⟩ := Nat.exists_eq_add_one_of_ne_zero (Nat.ne_zero_of_lt hm)
    obtain ⟨n, rfl⟩ := Nat.exists_eq_add_one_of_ne_zero (Nat.ne_zero_of_lt hn)
    have shorter := step_shorter h
    exact step c h m n (ih (by omega) (by omega))

theorem tokensWithin_eq {n : Nat} (h : c.rest.length < n) : tokensWithin n c = c.tokens := by
  refine bound_irrelevant (fun c h m n => ?_) (fun c h m n same => ?_) h (Nat.lt_succ_self _)
  · simp [tokensWithin, atEnd, h]
  · rcases hs : c.step with ⟨t?, c'⟩
    rw [hs] at same
    unfold tokensWithin
    rw [hs]
    cases t? <;> simp [same]

theorem tokens_of_atEnd (h : c.rest = []) : c.tokens = [c.eofToken] := by
  simp [tokens, tokensWithin, atEnd, h]

theorem tokens_of_gap (h : c.rest ≠ []) (hs : c.step = (none, c')) : c.tokens = c'.tokens := by
  have shorter := step_shorter h
  rw [hs] at shorter
  have more : ¬ c.atEnd = true := by simp [atEnd, h]
  rw [tokens, tokensWithin, if_neg more, hs]
  exact tokensWithin_eq shorter

theorem tokens_of_token {t : Token} (h : c.rest ≠ []) (hs : c.step = (some t, c')) :
    c.tokens = t :: c'.tokens := by
  have shorter := step_shorter h
  rw [hs] at shorter
  have more : ¬ c.atEnd = true := by simp [atEnd, h]
  rw [tokens, tokensWithin, if_neg more, hs]
  exact congrArg (t :: ·) (tokensWithin_eq shorter)

theorem nextWithin_eq {n : Nat} (h : c.rest.length < n) : nextWithin n c = c.next := by
  refine bound_irrelevant (fun c h m n => ?_) (fun c h m n same => ?_) h (Nat.lt_succ_self _)
  · simp [nextWithin, atEnd, h]
  · rcases hs : c.step with ⟨t?, c'⟩
    rw [hs] at same
    unfold nextWithin
    rw [hs]
    cases t? <;> simp [same]

theorem next_of_atEnd (h : c.rest = []) : c.next = (c.eofToken, c) := by
  simp [next, nextWithin, atEnd, h]

theorem next_of_gap (h : c.rest ≠ []) (hs : c.step = (none, c')) : c.next = c'.next := by
  have shorter := step_shorter h
  rw [hs] at shorter
  have more : ¬ c.atEnd = true := by simp [atEnd, h]
  rw [next, nextWithin, if_neg more, hs]
  exact nextWithin_eq shorter

theorem next_of_token {t : Token} (h : c.rest ≠ []) (hs : c.step = (some t, c')) :
    c.next = (t, c') := by
  have more : ¬ c.atEnd = true := by simp [atEnd, h]
  rw [next, nextWithin, if_neg more, hs]

end Cursor

end FrontEnd
