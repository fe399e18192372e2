import FrontEnd.Proofs.Build
import FrontEnd.Proofs.Checking.Levels
import FrontEnd.Proofs.Checking.Silent

namespace FrontEnd

namespace Scopes

variable {α : Type} {name : String}

/-- The scopes `b` hold a binding of a name that came on top of the scopes `a`. -/
def BindsAbove (a b : Scopes α) (name : String) : Prop :=
  ∃ inner value, b.entries = inner ++ a.entries ∧ .binding name value ∈ inner

theorem find?_le_frames {es : List (Entry α)} {value : α} {depth : Nat}
    (h : find? name es = some (value, depth)) : depth ≤ frames es := by
  induction es with
  | nil => simp [find?] at h
  | cons e es ih =>
    cases e with
    | frame => exact Nat.le_succ_of_le (ih h)
    | binding key value =>
      rw [find?] at h
      split at h
      · obtain ⟨-, rfl⟩ := Prod.mk.inj (Option.some.inj h)
        exact Nat.le_refl _
      · exact ih h

theorem frames_le_append (inner es : List (Entry α)) : frames es ≤ frames (inner ++ es) := by
  induction inner with
  | nil => exact Nat.le_refl _
  | cons e inner ih =>
    cases e with
    | frame => exact Nat.le_succ_of_le ih
    | binding key value => exact ih

theorem find?_append_of_mem {inner : List (Entry α)} (es : List (Entry α)) {value : α}
    (h : .binding name value ∈ inner) :
    ∃ seen depth, find? name (inner ++ es) = some (seen, depth) ∧ frames es ≤ depth := by
  induction inner with
  | nil => simp at h
  | cons e inner ih =>
    cases e with
    | frame => exact ih (by simpa using h)
    | binding key value' =>
      rw [List.cons_append, find?]
      split
      case isTrue => exact ⟨_, _, rfl, frames_le_append inner es⟩
      case isFalse other =>
        obtain same | h := List.mem_cons.mp h
        · exact absurd (by cases same; rfl) other
        · exact ih h

theorem find?_append_of_not_mem {inner es : List (Entry α)}
    (h : ∀ value, .binding name value ∉ inner) : find? name (inner ++ es) = find? name es := by
  induction inner with
  | nil => rfl
  | cons e inner ih =>
    have rest := ih fun value hv => h value (List.mem_cons_of_mem _ hv)
    cases e with
    | frame => exact rest
    | binding key value =>
      have other : key ≠ name := by
        rintro rfl
        exact h value List.mem_cons_self
      rw [List.cons_append, find?, if_neg other]
      exact rest

/-- Inside a scope that was opened on top of `a`, the bindings that came after `a` are those that
are deeper than `a`. -/
theorem depth_lt_iff_bindsAbove {a b : Scopes α} {depth : Nat} {inner : List (Entry α)}
    (above : b.entries = inner ++ .frame :: a.entries) (h : b.depthOf? name = some depth) :
    a.depth < depth ↔ a.BindsAbove b name := by
  unfold depthOf? at h
  obtain ⟨⟨value, depth⟩, found, rfl⟩ := Option.map_eq_some_iff.mp h
  rw [above] at found
  constructor
  · intro deeper
    by_contra unbound
    have outside : ∀ value, .binding name value ∉ inner ++ [Entry.frame] := by
      intro value hv
      exact unbound ⟨inner ++ [.frame], value, by simp [above], hv⟩
    have below : find? name a.entries = some (value, depth) := by
      rw [← find?_append_of_not_mem outside, List.append_assoc]
      exact found
    exact absurd (find?_le_frames below) (Nat.not_le.mpr deeper)
  · rintro ⟨inner', value', entries, bound⟩
    have split : inner' ++ a.entries = inner ++ [.frame] ++ a.entries := by
      rw [← entries, above, List.append_assoc]
      rfl
    have same : inner' = inner ++ [.frame] := List.append_cancel_right split
    have inside : .binding name value' ∈ inner := by simpa [same] using bound
    obtain ⟨seen, depth', found', deep⟩ := find?_append_of_mem (.frame :: a.entries) inside
    obtain ⟨-, rfl⟩ := Prod.mk.inj (Option.some.inj (found.symm.trans found'))
    exact deep

end Scopes

open Check CheckState

/-- The scopes have been opened, one at least, on top of those outside a function literal. -/
def CheckState.InLambda (a s : CheckState) : Prop :=
  ∃ inner, s.env.vars.entries = inner ++ .frame :: a.env.vars.entries

/-- Where an item is checked: all errors are recorded, and the barrier is the depth outside the
innermost function literal around the item. The function of the literal has yet to open its scope;
everything else in the literal is checked inside that. -/
structure Fenced (j : Item) (s : CheckState) (around : Option CheckState) : Prop where
  uncapped : s.Uncapped
  barrier : s.barrier = around.map fun a => a.env.vars.depth
  inside : ∀ a, around = some a → InLambda a s ∨ (j.isPlain = false ∧ s.env.vars = a.env.vars)

namespace Fenced

variable {imp : Importer} {P : Law} {j k : Item} {s t : CheckState} {around : Option CheckState}

theorem advance (fenced : Fenced j s around) (opened : ∀ a, around = some a → InLambda a s)
    (h : Advances s t) : Fenced k t around where
  uncapped := (congrArg Config.maxCheckErrors h.session.config).trans fenced.uncapped
  barrier := h.barrier.trans fenced.barrier
  inside a ha := by
    obtain ⟨bs, entries⟩ := h.vars
    obtain ⟨inner, outer⟩ := opened a ha
    refine .inl ⟨bs.map (fun p => .binding p.1 p.2) ++ inner, ?_⟩
    rw [entries, outer, List.append_assoc]

theorem enter (fenced : Fenced j s around) (a : CheckState) (ha : around = some a) :
    InLambda a s.enter := by
  have entered : s.enter.env.vars.entries = .frame :: s.env.vars.entries := rfl
  obtain ⟨inner, outer⟩ | ⟨-, same⟩ := fenced.inside a ha
  · exact ⟨.frame :: inner, by rw [entered, outer, List.cons_append]⟩
  · exact ⟨[], by rw [entered, same, List.nil_append]⟩

theorem part (ok : Lawful imp P) (fenced : Fenced j s around) (h : (Plan.of j).Asks imp s k t) :
    Fenced k t (if j.isLambda then some s else around) := by
  cases h.enters with
  | lambda literal inner state =>
    subst inner state
    have lambda : j.isLambda = true := by
      obtain rfl | rfl := literal <;> rfl
    rw [lambda]
    refine ⟨fenced.uncapped, rfl, fun a ha => .inr ⟨rfl, ?_⟩⟩
    obtain rfl := Option.some.inj ha
    rfl
  | inside notLambda first leads _ =>
    rw [notLambda]
    obtain ⟨plain, rfl⟩ | slight := first
    · refine fenced.advance (fun a ha => ?_) (leads.advances ok)
      obtain opened | ⟨notPlain, -⟩ := fenced.inside a ha
      · exact opened
      · exact absurd plain (by simp [notPlain])
    · have entered : Fenced j s.enter around :=
        ⟨fenced.uncapped, fenced.barrier, fun a ha => .inl (fenced.enter a ha)⟩
      exact entered.advance fenced.enter (slight.advances.trans (leads.advances ok))

theorem visits (ok : Lawful imp P) {i : Item} (uncapped : s.Uncapped) (outside : s.barrier = none)
    (h : Visits imp i s j t around) : Fenced j t around := by
  induction h with
  | self => exact ⟨uncapped, outside, nofun⟩
  | part _ asks ih => exact ih.part ok asks

/-- A variable is taken for a captured one exactly if its binding is not global and was made before
the innermost function literal. -/
theorem captures_iff (fenced : Fenced j s around) (plain : j.isPlain = true) {name : String}
    (bound : s.env.vars.contains name = true) :
    s.context.captures name = true ↔
      ∃ a, around = some a ∧ s.env.vars.depthOf? name ≠ some 0 ∧
        ¬ a.env.vars.BindsAbove s.env.vars name := by
  obtain ⟨depth, hd⟩ : ∃ depth, s.env.vars.depthOf? name = some depth := by
    unfold Scopes.contains Scopes.get? at bound
    rw [Option.isSome_map] at bound
    obtain ⟨found, hf⟩ := Option.isSome_iff_exists.mp bound
    exact ⟨found.2, congrArg (Option.map Prod.snd) hf⟩
  unfold Context.captures
  rw [context_barrier, context_env, fenced.barrier, hd]
  cases around with
  | none => simp
  | some a =>
    obtain ⟨inner, outer⟩ | ⟨notPlain, -⟩ := fenced.inside a rfl
    · have deeper := Scopes.depth_lt_iff_bindsAbove outer hd
      simp [← deeper]
      omega
    · exact absurd plain (by simp [notPlain])

end Fenced

namespace Check

variable {imp : Importer} {s : CheckState} {token : Token}

theorem reports_identType (uncapped : s.Uncapped) (token : Token) {name : String} {ty : Ty}
    (bound : s.env.vars.get? name = some ty) :
    ∃ t ds, Runs imp (identType name token) s t (s.notes ds) ∧
      (⟨.check (.capturedVariable (Name.bare name)), token.start⟩ ∈ ds ↔
        s.context.captures name = true) := by
  unfold identType
  simp only [runs_get_bind, bound, (runs_isCaptured name).bind_iff]
  cases s.context.captures name with
  | true => exact ⟨.todo, _, (runs_error_of_uncapped uncapped).bind .ret, by simp⟩
  | false =>
    simp only [Bool.false_eq_true, if_false, iff_false, resolveValue, runs_resolve_bind]
    split
    · exact ⟨.todo, _, (runs_error_of_uncapped uncapped).bind .ret, by simp⟩
    · exact ⟨s.resolver.resolve ty, [], by simp, by simp⟩

end Check

namespace Build

/-- Capturing is reported for exactly the right variables. Whenever a name that is bound is checked
in a program whose errors are all recorded, the error is reported if and only if the name stands
inside a function literal, its binding is not global, and the binding was not made since the
innermost function literal around the name has been begun, in state `a`. What is recorded for the
name is in the final report. -/
theorem captured_iff {n : Nat} {xs : List Stmt} {id : String} {directory : Path}
    {session : Session} {name : String} {t : Ty} {token : Token} {s : CheckState}
    {around : Option CheckState} (uncapped : session.config.maxCheckErrors = none)
    (visited : Visits (within n) (.top xs) (.start id directory session)
      (.expr ⟨.ident name, t, token⟩) s around)
    (bound : s.env.vars.contains name = true) :
    ∃ e' s' ds xs' final, Runs (within n) (Check.expr ⟨.ident name, t, token⟩) s e' s' ∧
      s'.errors = s.errors ++ ds ∧
      (⟨.check (.capturedVariable (Name.bare name)), token.start⟩ ∈ ds ↔
        ∃ a, around = some a ∧ s.env.vars.depthOf? name ≠ some 0 ∧
          ¬ a.env.vars.BindsAbove s.env.vars name) ∧
      Runs (within n) (topLevel xs) (.start id directory session) xs' final ∧
      s'.errors <+: final.errors := by
  obtain ⟨steady, total⟩ := within_steady_total n
  have begun : (CheckState.start id directory session).Uncapped := uncapped
  have fenced := Fenced.visits (.any steady total) begun rfl visited
  obtain ⟨ty, known⟩ := Option.isSome_iff_exists.mp bound
  obtain ⟨ty', ds, typed, reported⟩ := reports_identType fenced.uncapped token known
  have ran : Runs (within n) (Check.expr ⟨.ident name, t, token⟩) s ⟨.ident name, ty', token⟩
      (s.notes ds) := typed.bind .ret
  obtain ⟨xs', final, checked, kept⟩ :=
    Visits.reported_top (.any steady total) xs (.start id directory session)
  obtain ⟨e', s', ran', kept⟩ := kept visited
  obtain ⟨rfl, rfl⟩ := ran.unique ran'
  exact ⟨_, _, ds, xs', final, ran, rfl, reported.trans (fenced.captures_iff rfl bound), checked,
    kept⟩

def capturing (token : Token) : Stmt :=
  .function token ⟨"f", [.int 32], ["x"], .void⟩
    [.expression token ⟨.function ⟨"", [], [], .void⟩
      [.expression token ⟨.ident "x", .todo, token⟩], .todo, token⟩]

theorem captured_iff_parameter :
    let program := [capturing ⟨.eof, "", ⟨.nowhere, .nowhere⟩⟩]
    let start : CheckState := .start "0" ⟨""⟩ (.start .default (.ofFiles []))
    ∃ s a program' final,
      Visits (within 0) (.top program) start
        (.expr ⟨.ident "x", .todo, ⟨.eof, "", ⟨.nowhere, .nowhere⟩⟩⟩) s (some a) ∧
      Runs (within 0) (topLevel program) start program' final ∧
      ⟨.check (.capturedVariable "x"), .nowhere⟩ ∈ final.errors := by
  intro program start
  have top : Visits (within 0) (.top program) start _ _ _ := .part .self .here
  have function := top.part (.step rfl (.step rfl .here))
  have body := function.part (.step rfl .here)
  have literal := (body.part (.step rfl .here)).part .here
  have inner := (literal.part (.step rfl (.step rfl .here))).part (.step rfl .here)
  have visited := (inner.part (.step rfl .here)).part .here
  obtain ⟨e', s', ds, program', final, -, errors, reported, checked, kept⟩ :=
    captured_iff rfl visited rfl
  refine ⟨_, _, program', final, visited, checked, kept.subset ?_⟩
  rw [errors]
  refine List.mem_append_right _ (reported.mpr ⟨_, rfl, by decide, ?_⟩)
  -- Since the literal was begun, there is the mark of its scope and nothing else.
  rintro ⟨inner, value, above, bound⟩
  obtain rfl : [Scopes.Entry.frame] = inner := List.append_cancel_right above
  simp at bound

end Build

end FrontEnd
