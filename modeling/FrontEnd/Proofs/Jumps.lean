import FrontEnd.Proofs.Checking.Levels
import FrontEnd.Proofs.Paths

namespace FrontEnd

open Check CheckState

/-- Item `j` is checked in state `t` while item `i` is checked from state `s`. It stands in the
given items, the innermost first. -/
inductive Nests (imp : Importer) (i : Item) (s : CheckState) :
    List Item → Item → CheckState → Prop
  | self : Nests imp i s [] i s
  | part {outer : List Item} {j k : Item} {t u : CheckState} (around : Nests imp i s outer j t)
      (asks : (Plan.of j).Asks imp t k u) : Nests imp i s (j :: outer) k u

/-- What stands in these items stands in the body of a loop, with no function between them. -/
inductive InLoop : List Item → Prop
  | body {token init e post xs outer} :
      InLoop (.body xs :: .stmt (.loop token init e post xs) :: outer)
  | inside {i outer} (notFunction : i.makesFunction = false) (around : InLoop outer) :
      InLoop (i :: outer)

/-- What stands in these items stands in a function declaration or in a function literal. -/
def InFunction (outer : List Item) : Prop :=
  ∃ i ∈ outer, i.makesFunction = true

variable {imp : Importer} {P : Law} {i j k : Item} {s t u : CheckState} {outer : List Item}

theorem not_inLoop_of_makesFunction (made : i.makesFunction = true) : ¬ InLoop (i :: outer) := by
  intro h
  cases h with
  | body => cases made
  | inside notFunction => exact absurd made (by simp [notFunction])

theorem inLoop_cons (notBody : ¬ j.IsLoopBody k) (h : InLoop (k :: j :: outer)) :
    InLoop (j :: outer) := by
  cases h with
  | body => exact absurd ⟨_, _, _, _, _, rfl, rfl⟩ notBody
  | inside _ around => exact around

theorem inFunction_cons : InFunction (i :: outer) ↔ i.makesFunction = true ∨ InFunction outer := by
  simp [InFunction]

/-- The state of an item fits with the items around it. The body of a loop is in the loop itself;
for the function of a declaration or of a literal there is only said that it stands in one. -/
structure Placed (outer : List Item) (j : Item) (t : CheckState) : Prop where
  making : j.isFunction = true → ∃ i rest, outer = i :: rest ∧ i.makesFunction = true
  loop : j.isFunction = false → (0 < t.loopDepth ↔ InLoop outer ∨ InLoop (j :: outer))
  function : j.isFunction = false → (t.expected.isSome = true ↔ InFunction outer)

namespace Placed

theorem start (outside : i.isFunction = false) (loopDepth : s.loopDepth = 0)
    (expected : s.expected = none) : Placed [] i s where
  making function := absurd function (by simp [outside])
  loop _ := by
    rw [loopDepth]
    refine ⟨fun h => absurd h (Nat.lt_irrefl 0), ?_⟩
    rintro (h | h)
    · cases h
    · cases h with
      | inside _ around => cases around
  function _ := by simp [expected, InFunction]

theorem part (ok : Lawful imp P) (placed : Placed outer j t) (h : (Plan.of j).Asks imp t k u) :
    Placed (j :: outer) k u := by
  cases h.descends ok with
  | along around inner notBody loopDepth expected =>
    obtain ⟨notMaking, notFunction⟩ := around
    refine ⟨fun function => absurd function (by simp [inner]), fun _ => ?_, fun _ => ?_⟩
    · rw [loopDepth, placed.loop notFunction]
      refine ⟨fun h => .inl ?_, fun h => .inr ?_⟩
      · exact h.elim (.inside notMaking) id
      · exact h.elim id (inLoop_cons notBody)
    · rw [expected, placed.function notFunction, inFunction_cons]
      simp [notMaking]
  | loop body loopDepth expected =>
    obtain ⟨token, init, e, post, xs, rfl, rfl⟩ := body
    refine ⟨nofun, fun _ => ⟨fun _ => .inr .body, fun _ => loopDepth⟩, fun _ => ?_⟩
    rw [expected, placed.function rfl, inFunction_cons]
    simp [Item.makesFunction]
  | making around inner =>
    have excluded : ¬ k.isFunction = false := by simp [inner]
    exact ⟨fun _ => ⟨j, outer, rfl, around⟩, fun h => absurd h excluded, fun h => absurd h excluded⟩
  | function around inner loopDepth expected =>
    subst inner
    obtain ⟨i, rest, rfl, made⟩ := placed.making around
    have outside : ¬ InLoop (j :: i :: rest) := by
      intro h
      refine not_inLoop_of_makesFunction made (inLoop_cons ?_ h)
      rintro ⟨_, _, _, _, _, -, rfl⟩
      cases around
    refine ⟨nofun, fun _ => ?_, fun _ => ?_⟩
    · rw [loopDepth]
      refine ⟨fun h => absurd h (Nat.lt_irrefl 0), ?_⟩
      rintro (h | h)
      · exact absurd h outside
      · refine absurd (inLoop_cons ?_ h) outside
        rintro ⟨_, _, _, _, _, -, same⟩
        cases same
    · rw [expected]
      exact ⟨fun _ => ⟨i, by simp, made⟩, fun _ => rfl⟩

theorem loop_stmt {x : Stmt} (placed : Placed outer (.stmt x) t) :
    0 < t.loopDepth ↔ InLoop outer := by
  rw [placed.loop rfl, or_iff_left_of_imp]
  intro h
  cases h with
  | inside _ around => exact around

theorem nests (ok : Lawful imp P) (outside : i.isFunction = false) (loopDepth : s.loopDepth = 0)
    (expected : s.expected = none) (h : Nests imp i s outer j t) : Placed outer j t := by
  induction h with
  | self => exact .start outside loopDepth expected
  | part _ asks ih => exact ih.part ok asks

end Placed

namespace Nests

theorem visits (h : Nests imp i s outer j t) : ∃ around, Visits imp i s j t around := by
  induction h with
  | self => exact ⟨_, .self⟩
  | part _ asks ih =>
    obtain ⟨_, visited⟩ := ih
    exact ⟨_, visited.part asks⟩

theorem uncapped (ok : Lawful imp P) (h : Nests imp i s outer j t) (begun : s.Uncapped) :
    t.Uncapped := by
  obtain ⟨around, visited⟩ := h.visits
  exact (congrArg Config.maxCheckErrors (visited.session ok).config).trans begun

end Nests

namespace Check

variable {token : Token}

theorem adds_checkInLoop (uncapped : s.Uncapped) {keyword : String} {v : Unit} {s' : CheckState}
    (ran : Runs imp (checkInLoop keyword token) s v s') :
    s.Adds s' ⟨.check (.outsideLoop keyword), token.start⟩ (¬ 0 < s.loopDepth) := by
  simp only [checkInLoop, runs_get_bind] at ran
  by_cases outside : s.loopDepth = 0
  · rw [if_pos outside] at ran
    obtain ⟨-, rfl⟩ := (runs_error_of_uncapped uncapped).unique ran
    exact .inl ⟨by omega, rfl⟩
  · rw [if_neg outside] at ran
    obtain ⟨-, rfl⟩ := runs_pure.mp ran
    exact .inr ⟨by omega, rfl⟩

theorem reports_checkReturn (uncapped : s.Uncapped) {got : Ty} {v : Unit} {s' : CheckState}
    (ran : Runs imp (checkReturn token got) s v s') :
    ∃ ds, s'.errors = s.errors ++ ds ∧
      (s.expected.isSome = false → ds = [⟨.check .returnOutsideFunction, token.start⟩]) ∧
      (s.expected.isSome = true → ∀ d ∈ ds, d.cause ≠ .check .returnOutsideFunction) := by
  obtain ⟨outside, rfl⟩ | ⟨expected, s₁, inside, fits, rfl⟩ := runs_checkReturn.mp ran
  · rw [note_of_uncapped uncapped, outside]
    exact ⟨_, rfl, fun _ => rfl, nofun⟩
  · rw [inside]
    simp only [expectEqual, runs_equals_bind] at fits
    by_cases same : expected.equals s.resolver got = true
    · obtain rfl : s₁ = s := by simpa [same] using fits
      exact ⟨[], (List.append_nil _).symm, nofun, fun _ => List.forall_mem_nil _⟩
    · have noted : Runs imp (mismatch expected got token) s () s₁ := by simpa [same] using fits
      obtain ⟨-, rfl⟩ := (runs_error_of_uncapped uncapped).unique noted
      exact ⟨_, rfl, nofun, fun _ => List.forall_mem_singleton.mpr (by simp)⟩

end Check

namespace Build

/-- Statements that leave loops and functions are reported exactly where there is nothing to leave.
A program whose errors are all recorded is checked to an end. For each `break` or `continue` that is
checked on the way, the error is recorded if and only if the statement does not stand in the body of
a loop inside the innermost function around it, and nothing else is. For each `return` the error is
recorded, after the errors of its value, if and only if the statement stands in no function. What is
recorded for a statement is in the final report. -/
theorem jumps_reported_iff (n : Nat) {session : Session}
    (uncapped : session.config.maxCheckErrors = none) (program : List Stmt) (id : String)
    (directory : Path) :
    ∃ program' final,
      Runs (within n) (topLevel program) (.start id directory session) program' final ∧
      (∀ outer s x keyword token, x = .break token ∧ keyword = "break" ∨
          x = .continue token ∧ keyword = "continue" →
        Nests (within n) (.top program) (.start id directory session) outer (.stmt x) s →
        ∃ x' s', Runs (within n) (Check.stmt x) s x' s' ∧
          s.Adds s' ⟨.check (.outsideLoop keyword), token.start⟩ (¬ InLoop outer) ∧
          s'.errors <+: final.errors) ∧
      ∀ outer s token value,
        Nests (within n) (.top program) (.start id directory session) outer
          (.stmt (.return token value)) s →
        ∃ value' s₁ x' s' ds, Runs (within n) (Item.result value).check s value' s₁ ∧
          Runs (within n) (Check.stmt (.return token value)) s x' s' ∧
          s'.errors = s₁.errors ++ ds ∧
          (¬ InFunction outer → ds = [⟨.check .returnOutsideFunction, token.start⟩]) ∧
          (InFunction outer → ∀ d ∈ ds, d.cause ≠ .check .returnOutsideFunction) ∧
          s'.errors <+: final.errors := by
  obtain ⟨steady, total⟩ := within_steady_total n
  have ok := Lawful.any steady total
  obtain ⟨program', final, checked, reported⟩ :=
    Visits.reported_top ok program (.start id directory session)
  have begun : (CheckState.start id directory session).Uncapped := uncapped
  refine ⟨program', final, checked, ?_, ?_⟩
  · intro outer s x keyword token jump nested
    obtain ⟨_, visited⟩ := nested.visits
    obtain ⟨x', s', ran, kept⟩ := reported visited
    refine ⟨x', s', ran, ?_, kept⟩
    rw [← (Placed.nests ok rfl rfl rfl nested).loop_stmt]
    obtain ⟨rfl, rfl⟩ | ⟨rfl, rfl⟩ := jump
    all_goals
      obtain ⟨_, s₁, first, rest⟩ := runs_bind.mp ran
      obtain ⟨-, rfl⟩ := runs_pure.mp rest
      exact adds_checkInLoop (nested.uncapped ok begun) first
  · intro outer s token value nested
    obtain ⟨_, visited⟩ := nested.visits
    obtain ⟨x', s', ran, kept⟩ := reported visited
    have split := ran
    rw [Item.check, stmt_return] at split
    obtain ⟨value', s₁, valued, rest⟩ := runs_bind.mp split
    obtain ⟨_, s₂, returned, rest⟩ := runs_bind.mp rest
    obtain ⟨-, rfl⟩ := runs_pure.mp rest
    -- The value leaves the function around as it is.
    have stays := ((Checks.of_check ok rfl valued).change steady).grows.toStays
    have uncapped₁ : s₁.Uncapped :=
      (congrArg Config.maxCheckErrors stays.config).trans (nested.uncapped ok begun)
    obtain ⟨ds, errors, outside, inside⟩ := reports_checkReturn uncapped₁ returned
    have function := (Placed.nests ok rfl rfl rfl nested).function rfl
    rw [← stays.expected] at function
    refine ⟨value', s₁, x', s', ds, valued, ran, errors, fun h => outside ?_,
      fun h => inside (function.mpr h), kept⟩
    simpa using mt function.mp h

/-- A `return` outside all functions, and a loop with a function literal in it that tries to leave
the loop. -/
def misplaced (token : Token) : List Stmt :=
  [.return token none, .loop token none none none
    [.expression token ⟨.function ⟨"", [], [], .void⟩ [.break token], .todo, token⟩]]

/-- Both statements are reported, although the literal stands in the body of the loop. -/
theorem jumps_reported_iff_misplaced :
    let token : Token := ⟨.eof, "", ⟨.nowhere, .nowhere⟩⟩
    let start : CheckState := .start "0" ⟨""⟩ (.start .default (.ofFiles []))
    ∃ program' final, Runs (within 0) (topLevel (misplaced token)) start program' final ∧
      (∃ outer literal s, InLoop outer ∧ literal.makesFunction = true ∧
        Nests (within 0) (.top (misplaced token)) start outer literal s) ∧
      ⟨.check .returnOutsideFunction, .nowhere⟩ ∈ final.errors ∧
      ⟨.check (.outsideLoop "break"), .nowhere⟩ ∈ final.errors := by
  intro token start
  have uncapped : (Session.start .default (.ofFiles [])).config.maxCheckErrors = none := rfl
  obtain ⟨program', final, checked, jumps, returns⟩ :=
    jumps_reported_iff 0 uncapped (misplaced token) "0" ⟨""⟩
  have first : Nests (within 0) (.top (misplaced token)) start _ _ _ := .part .self .here
  have loop : Nests (within 0) (.top (misplaced token)) start _ _ _ :=
    .part (.part .self (.part rfl .here)) .here
  have body := loop.part (.step rfl (.part rfl (.part rfl (.part rfl (.step rfl .here)))))
  have literal := ((body.part (.step rfl .here)).part (.step rfl .here)).part .here
  have function := literal.part (.step rfl (.step rfl .here))
  have last := (function.part (.step rfl .here)).part (.step rfl .here)
  refine ⟨program', final, checked, ⟨_, _, _, ?_, rfl, literal⟩, ?_, ?_⟩
  · exact .inside rfl (.inside rfl .body)
  · obtain ⟨value', s₁, x', s', ds, -, -, errors, outside, -, kept⟩ := returns _ _ _ _ first
    have alone : ¬ InFunction [.top (misplaced token)] := by
      rintro ⟨i, mem, made⟩
      obtain rfl := List.mem_singleton.mp mem
      cases made
    rw [outside alone] at errors
    exact kept.subset (errors ▸ List.mem_append_right _ List.mem_cons_self)
  · obtain ⟨x', s', -, added, kept⟩ := jumps _ _ _ _ _ (.inl ⟨rfl, rfl⟩) last
    obtain ⟨-, errors⟩ | ⟨inside, -⟩ := added
    · exact kept.subset (errors ▸ List.mem_append_right _ List.mem_cons_self)
    · refine absurd (fun h => ?_) inside
      cases h with
      | inside _ h =>
        cases h with
        | inside _ h => exact not_inLoop_of_makesFunction rfl h

end Build

end FrontEnd
