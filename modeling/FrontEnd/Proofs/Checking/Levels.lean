import FrontEnd.Proofs.Checking.Visits

namespace FrontEnd

open Check CheckState

namespace Check

variable {α β : Type}

/-- A part of checking that takes no errors back. -/
def Gathers (m : Check α) : Prop :=
  ∀ imp s a s', Runs imp m s a s' → s.errors <+: s'.errors

theorem Gathers.bind {m : Check α} {f : α → Check β} (hm : Gathers m) (hf : ∀ a, Gathers (f a)) :
    Gathers (m >>= f) := by
  intro imp s b s' ran
  obtain ⟨a, s₁, first, second⟩ := runs_bind.mp ran
  exact (hm _ _ _ _ first).trans (hf a _ _ _ _ second)

theorem Notes.gathers {m : Check α} (hm : Notes m) : Gathers m :=
  fun _ _ _ _ ran => (hm.keeps ran).errors

theorem gathers_modify {g : CheckState → CheckState} (errors : ∀ s, (g s).errors = s.errors) :
    Gathers (modify g) := by
  intro imp s u s' ran
  obtain rfl := runs_modify.mp ran
  exact errors s ▸ List.prefix_refl _

theorem gathers_setReturns {b : Bool} : Gathers (setReturns b) :=
  gathers_modify fun _ => rfl

theorem gathers_leaveScope : Gathers leaveScope := by
  intro imp s u s' ran
  obtain ⟨vars, types, -, -, rfl⟩ := runs_leaveScope.mp ran
  exact List.prefix_refl _

theorem gathers_leaveLoop : Gathers leaveLoop := by
  intro imp s u s' ran
  obtain ⟨n, -, rfl⟩ := runs_leaveLoop.mp ran
  exact List.prefix_refl _

theorem gathers_enterBranch : Gathers enterBranch := by
  intro imp s u s' ran
  obtain rfl := runs_enterBranch.mp ran
  exact List.prefix_refl _

theorem gathers_leaveBranch : Gathers leaveBranch :=
  gathers_leaveScope.bind fun _ => notes_get.gathers.bind fun _ =>
    gathers_setReturns.bind fun _ => notes_pure.gathers

theorem gathers_enterFunction {sig : Signature} : Gathers (Check.enterFunction sig) := by
  intro imp s around s' ran
  obtain ⟨-, rfl⟩ := runs_enterFunction.mp ran
  exact (slight_enterFunction s sig).errors

theorem gathers_leaveFunction {around : CheckState} {sig : Signature} {name : String}
    {token : Token} : Gathers (Check.leaveFunction around sig name token) := by
  have left : Gathers (do
      leaveScope
      modify fun s => { s with expected := around.expected, loopDepth := around.loopDepth }) := by
    refine gathers_leaveScope.bind fun _ => gathers_modify fun s => ?_
    rfl
  refine notes_get.gathers.bind fun _ => gathers_setReturns.bind fun _ => ?_
  refine notes_equals.gathers.bind fun _ => ?_
  split
  · exact notes_error.gathers.bind fun _ => left
  · exact left

end Check

namespace Plan

variable {α β : Type} {imp : Importer} {s s' t : CheckState} {token : Token} {f : α → Plan β}

/-- The steps of a plan take no errors back. -/
def Gathers : Plan α → Prop
  | done _ => True
  | step m next => Check.Gathers m.check ∧ ∀ b, (next b).Gathers
  | part _ _ next => ∀ r, (next r).Gathers
  | ask _ _ _ => False

theorem Plain.gathers {p : Plan α} {n : Nat} {made : Bool} {labels : List Label}
    (h : p.Plain n made labels) : p.Gathers := by
  induction p generalizing labels with
  | done a => trivial
  | step m next ih => exact ⟨fun _ _ _ _ ran => (h.1 ran).2.errors, fun b => ih b (h.2 b)⟩
  | part i sure next ih =>
    obtain ⟨-, rest, -, later⟩ := h
    exact fun r => ih r (later r)
  | ask file typeArgs next ih => exact h.elim

theorem Gathers.after {m : Check α} {h : Tame m} (hm : Check.Gathers m)
    (hf : ∀ a, (f a).Gathers) : (change m h >>= f).Gathers :=
  ⟨hm, hf⟩

theorem Gathers.modified {g : CheckState → CheckState} {h : Tame (modify g)} {f : PUnit → Plan β}
    (errors : ∀ s, (g s).errors = s.errors) (hf : ∀ u, (f u).Gathers) :
    (change (modify g) h >>= f).Gathers :=
  .after (gathers_modify errors) hf

theorem Asks.gathers {i j : Item} (h : (of i).Asks imp s j t) : (of i).Gathers := by
  cases h.form with
  | plain plain => exact (plain_of plain).gathers
  | literal | node =>
    exact ⟨notes_get.gathers, fun _ => .modified (fun _ => rfl) fun _ _ =>
      .modified (fun _ => rfl) fun _ => trivial⟩
  | body => exact ⟨gathers_enterBranch, fun _ _ => ⟨gathers_leaveBranch, fun _ => trivial⟩⟩
  | function => exact ⟨gathers_enterFunction, fun _ _ => ⟨gathers_leaveFunction, fun _ => trivial⟩⟩
  | loop =>
    exact .modified (fun _ => rfl) fun _ _ _ _ => .modified (fun _ => rfl) fun _ _ =>
      .after gathers_leaveLoop fun _ => .modified (fun _ => rfl) fun _ =>
      .after gathers_leaveScope fun _ => trivial

theorem Gathers.errors {P : Law} (ok : Lawful imp P) {p : Plan α} {a : α} (h : p.Gathers)
    (ran : Runs imp p.run s a s') : s.errors <+: s'.errors := by
  induction p generalizing s with
  | done b =>
    obtain ⟨-, rfl⟩ := runs_pure.mp ran
    exact List.prefix_refl _
  | step m next ih =>
    obtain ⟨b, s₁, first, rest⟩ := runs_bind.mp ran
    exact (h.1 _ _ _ _ first).trans (ih b (h.2 b) rest)
  | part i sure next ih =>
    obtain ⟨r, s₁, first, rest⟩ := runs_bind.mp ran
    have grown := ((Checks.of_check ok sure first).change ok.steady).grows
    exact grown.errors.trans (ih r (h r) rest)
  | ask file typeArgs next ih => exact h.elim

/-- What is reported for a part is still reported once the plan is carried out. -/
theorem Gathers.asks {P : Law} (ok : Lawful imp P) {p : Plan α} {a : α} {j : Item}
    (gathers : p.Gathers) (h : p.Asks imp s j t) (ran : Runs imp p.run s a s') :
    ∃ r t', Runs imp j.check t r t' ∧ t'.errors <+: s'.errors := by
  induction h with
  | here =>
    obtain ⟨r, s₁, first, rest⟩ := runs_bind.mp ran
    exact ⟨r, s₁, first, (gathers r).errors ok rest⟩
  | step first _ ih =>
    obtain ⟨b, s₁, first', rest⟩ := runs_bind.mp ran
    obtain ⟨rfl, rfl⟩ := first.unique first'
    exact ih (gathers.2 _) rest
  | part first _ ih =>
    obtain ⟨r, s₁, first', rest⟩ := runs_bind.mp ran
    obtain ⟨rfl, rfl⟩ := first.unique first'
    exact ih (gathers _) rest
  | ask => exact gathers.elim

end Plan

def Item.IsLoopBody (i j : Item) : Prop :=
  ∃ token init e post xs, i = .stmt (.loop token init e post xs) ∧ j = .body xs

/-- What becomes of the loops and functions around on the way from an item to a part of it. -/
inductive Item.Descends (i : Item) (s : CheckState) (j : Item) (t : CheckState) : Prop
  | along (outer : i.makesFunction = false ∧ i.isFunction = false) (inner : j.isFunction = false)
      (notBody : ¬ i.IsLoopBody j) (loopDepth : t.loopDepth = s.loopDepth)
      (expected : t.expected = s.expected)
  | loop (body : i.IsLoopBody j) (loopDepth : 0 < t.loopDepth) (expected : t.expected = s.expected)
  | making (outer : i.makesFunction = true) (inner : j.isFunction = true)
  | function {xs : List Stmt} (outer : i.isFunction = true) (inner : j = .stmts xs)
      (loopDepth : t.loopDepth = 0) (expected : t.expected.isSome = true)

namespace Plan

variable {imp : Importer} {P : Law} {s t : CheckState} {token : Token} {i j : Item}

theorem descends_loop (ok : Lawful imp P) {init post : Option Stmt} {e : Option Expr}
    {xs : List Stmt} (h : (of (.stmt (.loop token init e post xs))).Asks imp s j t) :
    (Item.stmt (.loop token init e post xs)).Descends s j t := by
  have head {k : Item} {u : CheckState} (other : k.isFunction = false) (clause : ∀ ys, k ≠ .body ys)
      (stays : Stays s.enter u) : (Item.stmt (.loop token init e post xs)).Descends s k u := by
    refine .along ⟨rfl, rfl⟩ other ?_ stays.loopDepth stays.expected
    rintro ⟨_, _, _, _, ys, -, rfl⟩
    exact clause ys rfl
  have stays {k : Item} {r s₁ s₂} (sure : k.isSure = true) (ran : Runs imp k.check s₁ r s₂) :
      Stays s₁ s₂ := ((Checks.of_check ok sure ran).change ok.steady).grows.toStays
  cases h with
  | step entered h =>
    obtain rfl := runs_enterScope.mp entered
    cases h with
    | here => exact head rfl (by simp) (.refl _)
    | part ran₁ h =>
      have stays₁ := stays rfl ran₁
      cases h with
      | here => exact head rfl (by simp) stays₁
      | part ran₂ h =>
        have stays₂ := stays₁.trans (stays rfl ran₂)
        cases h with
        | here => exact head rfl (by simp) stays₂
        | part ran₃ h =>
          have stays₃ := stays₂.trans (stays rfl ran₃)
          cases h with
          | step counted h =>
            obtain rfl := runs_enterLoop.mp counted
            cases h with
            | here => exact .loop ⟨_, _, _, _, _, rfl, rfl⟩ (Nat.succ_pos _) stays₃.expected
            | part ran₄ h =>
              cases h with
              | step _ h =>
                cases h with
                | step _ h =>
                  cases h with
                  | step _ h => cases h

theorem Asks.descends (ok : Lawful imp P) (h : (of i).Asks imp s j t) : i.Descends s j t := by
  cases h.form with
  | plain plain =>
    obtain ⟨inner, stays⟩ := (plain_of plain).asks ok h
    cases made : i.makesFunction with
    | true => exact .making made (inner.trans made)
    | false =>
      refine .along ⟨made, ?_⟩ (inner.trans made) ?_ stays.loopDepth stays.expected
      · cases i with
        | function => cases plain
        | _ => rfl
      · rintro ⟨_, _, _, _, _, rfl, -⟩
        cases plain
  | @literal _ _ ty | @node _ _ ty =>
    obtain ⟨rfl, -⟩ := asks_literal ty h
    exact .making rfl rfl
  | body =>
    obtain ⟨rfl, rfl⟩ := asks_body h
    refine .along ⟨rfl, rfl⟩ rfl ?_ rfl rfl
    rintro ⟨_, _, _, _, _, same, -⟩
    cases same
  | function =>
    obtain ⟨rfl, rfl⟩ := asks_function h
    exact .function rfl rfl rfl rfl
  | loop => exact descends_loop ok h

end Plan

namespace Visits

variable {imp : Importer} {P : Law}

theorem reported (ok : Lawful imp P) {i j : Item} {s s' t : CheckState} {r : i.Result}
    {around : Option CheckState} (h : Visits imp i s j t around) (ran : Runs imp i.check s r s') :
    ∃ r' t', Runs imp j.check t r' t' ∧ t'.errors <+: s'.errors := by
  induction h with
  | self => exact ⟨r, s', ran, List.prefix_refl _⟩
  | @part j _ _ _ _ _ asks ih =>
    obtain ⟨r', t', outer, kept⟩ := ih
    rw [← Plan.run_of j] at outer
    obtain ⟨r'', u', inner, kept'⟩ := asks.gathers.asks ok asks outer
    exact ⟨r'', u', inner, kept'.trans kept⟩

/-- A program is checked to an end, and then what was reported for any part of it is still
reported. -/
theorem reported_top (ok : Lawful imp P) (program : List Stmt) (s : CheckState) :
    ∃ program' final, Runs imp (topLevel program) s program' final ∧
      ∀ {j t around}, Visits imp (.top program) s j t around →
        ∃ r t', Runs imp j.check t r t' ∧ t'.errors <+: final.errors := by
  obtain ⟨program', final, derived⟩ := total_top ok program s
  exact ⟨program', final, derived.runs, fun visited => visited.reported ok derived.runs⟩

end Visits

end FrontEnd
