import FrontEnd.Proofs.Checking.Levels
import FrontEnd.Proofs.Checking.Returns
import FrontEnd.Proofs.Termination

namespace FrontEnd

/-- How a path through statements ends: it goes on behind them, leaves the innermost loop or begins
its next round, or goes no further. -/
inductive Exit where
  | next | broken | continued | ended
  deriving DecidableEq, Repr

namespace Exit

def jumps : Exit → Bool
  | .broken | .continued => true
  | .next | .ended => false

/-- How a path through a loop ends whose rounds end like these. -/
def ofRounds : List Exit → Exit
  | [] | .broken :: _ => .next
  | .ended :: _ => .ended
  | .next :: rounds | .continued :: rounds => ofRounds rounds

theorem jumps_ofRounds (rounds : List Exit) : (ofRounds rounds).jumps = false := by
  induction rounds with
  | nil => rfl
  | cons exit rounds ih => cases exit <;> first | rfl | exact ih

end Exit

namespace Stmt

/-- The statements that have no other statements in them and leave nothing, but for the functions
that they declare. -/
def isSimple : Stmt → Bool
  | .choose _ _ _ _ | .loop _ _ _ _ _ | .return _ _ | .break _ | .continue _ => false
  | _ => true

/-- What is evaluated in a simple statement. -/
def evaluated : Stmt → List Expr
  | .expression _ e => [e]
  | .declare _ _ _ value | .declareAll _ _ _ _ value => [value]
  | .assign _ target value => [value, target]
  | _ => []

mutual

/-- A path through a statement. One branch of an `if` is taken, or none if there is no `else`; the
body of a loop is run any number of times. Conditions and the clauses of a loop are passed. -/
inductive Path : Stmt → Exit → Prop
  | simple {x : Stmt} (simple : x.isSimple = true) (goesOn : ∀ e ∈ x.evaluated, e.stops = false) :
      Path x .next
  | stopped {x : Stmt} {e : Expr} (evaluated : e ∈ x.evaluated) (stops : e.stops = true) :
      Path x .ended
  | taken {token first more otherwise b exit} (chosen : b ∈ first :: more)
      (inner : Paths b.body exit) : Path (.choose token first more otherwise) exit
  | otherwise {token first more xs exit} (inner : Paths xs exit) :
      Path (.choose token first more (some xs)) exit
  | skipped {token first more} : Path (.choose token first more none) .next
  | loop {token init condition post body} {rounds : List Exit}
      (inner : ∀ exit ∈ rounds, Paths body exit) :
      Path (.loop token init condition post body) (.ofRounds rounds)
  | returned {token value} : Path (.return token value) .ended
  | broken {token} : Path (.break token) .broken
  | continued {token} : Path (.continue token) .continued

inductive Paths : List Stmt → Exit → Prop
  | nil : Paths [] .next
  | cons {x xs exit} (first : Path x .next) (rest : Paths xs exit) : Paths (x :: xs) exit
  | left {x xs exit} (first : Path x exit) (leaves : exit ≠ .next) : Paths (x :: xs) exit

end

def FallsOff (body : List Stmt) : Prop :=
  Paths body .next

mutual

theorem not_returns_of_path : ∀ x : Stmt, x.Path .next → x.returns = false
  | .expression _ e, .simple _ goesOn => goesOn e (by simp [evaluated])
  | .declare _ _ _ value, .simple _ goesOn | .declareAll _ _ _ _ value, .simple _ goesOn =>
    goesOn value (by simp [evaluated])
  | .assign _ target value, .simple _ goesOn => by
    simp [returns, goesOn value (by simp [evaluated]), goesOn target (by simp [evaluated])]
  | .choose _ ⟨_, body⟩ more (some xs), h => by
    have first := not_anyReturns_of_paths body
    have others := not_branchesReturn_of_paths more
    have last := not_anyReturns_of_paths xs
    cases h with
    | simple simple _ => simp [isSimple] at simple
    | taken chosen inner =>
      obtain rfl | chosen := List.mem_cons.mp chosen
      · simp [returns, first inner]
      · simp [returns, others _ chosen inner]
    | otherwise inner => simp [returns, last inner]
  | .return _ _, .simple simple _ => by simp [isSimple] at simple
  | .choose _ ⟨_, _⟩ _ none, _ | .loop _ _ _ _ _, _ | .break _, _ | .continue _, _
  | .record _ _, _ | .function _ _ _, _ | .external _ _, _ | .importUnit _ _ _ _, _
  | .generic _ _ _, _ => rfl

theorem not_anyReturns_of_paths : ∀ xs : List Stmt, Paths xs .next → anyReturns xs = false
  | [], _ => rfl
  | x :: xs, .cons first rest => by
    simp [anyReturns, not_returns_of_path x first, not_anyReturns_of_paths xs rest]
  | _ :: _, .left _ leaves => absurd rfl leaves

theorem not_branchesReturn_of_paths :
    ∀ (bs : List Branch) (b : Branch), b ∈ bs → Paths b.body .next → branchesReturn bs = false
  | ⟨_, body⟩ :: bs, b, chosen, inner => by
    obtain rfl | chosen := List.mem_cons.mp chosen
    · simp [branchesReturn, not_anyReturns_of_paths body inner]
    · simp [branchesReturn, not_branchesReturn_of_paths bs b chosen inner]

end

mutual

/-- Unless all paths return, there is one that does not, though it may leave a loop. -/
theorem exists_path : ∀ x : Stmt, x.returns = false → ∃ exit, x.Path exit ∧ exit ≠ .ended
  | .expression _ e, h => ⟨.next, .simple rfl (by simpa [evaluated, returns] using h), nofun⟩
  | .declare _ _ _ value, h | .declareAll _ _ _ _ value, h =>
    ⟨.next, .simple rfl (by simpa [evaluated, returns] using h), nofun⟩
  | .assign _ target value, h => ⟨.next, .simple rfl (by simpa [evaluated, returns] using h), nofun⟩
  | .choose _ ⟨_, body⟩ more (some xs), h => by
    rw [returns, Bool.and_eq_false_iff, Bool.and_eq_false_iff] at h
    obtain (h | h) | h := h
    · obtain ⟨exit, inner, goesOn⟩ := exists_paths body h
      exact ⟨exit, .taken List.mem_cons_self inner, goesOn⟩
    · obtain ⟨b, chosen, exit, inner, goesOn⟩ := exists_branch more h
      exact ⟨exit, .taken (List.mem_cons_of_mem _ chosen) inner, goesOn⟩
    · obtain ⟨exit, inner, goesOn⟩ := exists_paths xs h
      exact ⟨exit, .otherwise inner, goesOn⟩
  | .choose _ _ _ none, _ => ⟨.next, .skipped, nofun⟩
  | .loop _ _ _ _ _, _ => ⟨_, .loop (List.forall_mem_nil _), nofun⟩
  | .break _, _ => ⟨.broken, .broken, nofun⟩
  | .continue _, _ => ⟨.continued, .continued, nofun⟩
  | .record _ _, _ | .function _ _ _, _ | .external _ _, _ | .importUnit _ _ _ _, _
  | .generic _ _ _, _ => ⟨.next, .simple rfl (List.forall_mem_nil _), nofun⟩

theorem exists_paths : ∀ xs : List Stmt, anyReturns xs = false →
    ∃ exit, Paths xs exit ∧ exit ≠ .ended
  | [], _ => ⟨.next, .nil, nofun⟩
  | x :: xs, h => by
    rw [anyReturns, Bool.or_eq_false_iff] at h
    obtain ⟨exit, first, goesOn⟩ := exists_path x h.1
    by_cases falls : exit = .next
    · subst falls
      obtain ⟨exit, rest, goesOn⟩ := exists_paths xs h.2
      exact ⟨exit, .cons first rest, goesOn⟩
    · exact ⟨exit, .left first falls, goesOn⟩

theorem exists_branch : ∀ bs : List Branch, branchesReturn bs = false →
    ∃ b ∈ bs, ∃ exit, Paths b.body exit ∧ exit ≠ .ended
  | ⟨condition, body⟩ :: bs, h => by
    rw [branchesReturn, Bool.and_eq_false_iff] at h
    obtain h | h := h
    · exact ⟨_, List.mem_cons_self, exists_paths body h⟩
    · obtain ⟨b, chosen, inner⟩ := exists_branch bs h
      exact ⟨b, List.mem_cons_of_mem _ chosen, inner⟩

end

theorem fallsOff_iff {body : List Stmt} (confined : ∀ exit, Paths body exit → exit.jumps = false) :
    FallsOff body ↔ anyReturns body = false := by
  refine ⟨not_anyReturns_of_paths body, fun h => ?_⟩
  obtain ⟨exit, path, goesOn⟩ := exists_paths body h
  have inside := confined exit path
  cases exit with
  | next => exact path
  | ended => exact absurd rfl goesOn
  | broken | continued => simp [Exit.jumps] at inside

end Stmt

open Check CheckState

/-- No path leaves a loop that is not there, if an item is checked outside all loops. -/
def Item.Confined : Item → CheckState → Prop
  | .stmt x, s => s.loopDepth = 0 → ∀ exit, x.Path exit → exit.jumps = false
  | .stmts xs, s => s.loopDepth = 0 → s.returns = false →
    ∀ exit, Stmt.Paths xs exit → exit.jumps = false
  | .body xs, s => s.loopDepth = 0 → ∀ exit, Stmt.Paths xs exit → exit.jumps = false
  | .branches _ bs, s =>
    s.loopDepth = 0 → ∀ b ∈ bs, ∀ exit, Stmt.Paths b.body exit → exit.jumps = false
  | _, _ => True

theorem Stmt.jumps_of_isSimple {x : Stmt} (simple : x.isSimple = true) {exit : Exit}
    (h : x.Path exit) : exit.jumps = false := by
  cases h with
  | simple _ _ | stopped _ _ => rfl
  | taken _ _ | otherwise _ | skipped | loop _ | returned | broken | continued =>
    simp [isSimple] at simple

theorem Stmt.jumps_of_choose {token : Token} {first : Branch} {more : List Branch}
    {otherwise : Option (List Stmt)} {exit : Exit}
    (branches : ∀ b ∈ first :: more, ∀ exit, Paths b.body exit → exit.jumps = false)
    (last : ∀ xs, otherwise = some xs → ∀ exit, Paths xs exit → exit.jumps = false)
    (h : (Stmt.choose token first more otherwise).Path exit) : exit.jumps = false := by
  cases h with
  | simple simple _ => simp [isSimple] at simple
  | stopped evaluated _ => simp [Stmt.evaluated] at evaluated
  | taken chosen inner => exact branches _ chosen exit inner
  | otherwise inner => exact last _ rfl exit inner
  | skipped => rfl

theorem Checks.confined {imp : Importer} {P : Law} {i : Item} {s s' : CheckState} {r : i.Result}
    (steady : imp.Steady) (h : Checks imp P i s r s') (q : Calm s s') : i.Confined s := by
  induction h with
  | expression _ _ | declare _ _ _ | declareAll _ _ _ | assign _ _ _ _ _ | record _ | define _ _
  | external | importUnit _ _ | generic =>
    exact fun _ _ path => Stmt.jumps_of_isSimple rfl path
  | @choose _ _ _ _ s _ _ _ _ _ _ _ s₃ condition taken others _ ihx ihm =>
    intro outside exit path
    have others := others.appends steady
    have q : Calm s s₃ := ⟨q.room, q.errors⟩
    obtain ⟨-, q⟩ := q.split (condition.appends steady) ((taken.appends steady).trans others)
    obtain ⟨q₁, q₂⟩ := q.split (taken.appends steady) others
    have outside₁ := (condition.change steady).stays.loopDepth.trans outside
    have outside₂ := (taken.change steady).stays.loopDepth.trans outside₁
    refine Stmt.jumps_of_choose
      (List.forall_mem_cons.mpr ⟨ihx q₁ outside₁, ihm q₂ outside₂⟩) (fun _ same => ?_) path
    cases same
  | @chooseElse _ _ _ _ _ s _ _ _ _ _ _ _ _ _ _ s₄ condition taken others otherwise _ ihx ihm ihy =>
    intro outside exit path
    have outside₁ := (condition.change steady).stays.loopDepth.trans outside
    have outside₂ := (taken.change steady).stays.loopDepth.trans outside₁
    have outside₃ := (others.change steady).stays.loopDepth.trans outside₂
    have others := others.appends steady
    have otherwise := otherwise.appends steady
    have q : Calm s s₄ := ⟨q.room, q.errors⟩
    obtain ⟨-, q⟩ := q.split (condition.appends steady)
      ((taken.appends steady).trans (others.trans otherwise))
    obtain ⟨q₁, q⟩ := q.split (taken.appends steady) (others.trans otherwise)
    obtain ⟨q₂, q₃⟩ := q.split others otherwise
    refine Stmt.jumps_of_choose
      (List.forall_mem_cons.mpr ⟨ihx q₁ outside₁, ihm q₂ outside₂⟩) (fun _ same => ?_) path
    obtain rfl := Option.some.inj same
    exact ihy q₃ outside₃
  | loop _ _ _ _ _ _ _ _ _ _ =>
    intro _ exit path
    cases path with
    | simple simple _ => simp [Stmt.isSimple] at simple
    | stopped evaluated _ => simp [Stmt.evaluated] at evaluated
    | loop _ => exact Exit.jumps_ofRounds _
  | returned _ _ _ =>
    intro _ exit path
    cases path with
    | simple _ _ | stopped _ _ | returned => rfl
  | breaks inLoop | continues inLoop =>
    intro outside
    obtain rfl := notes_checkInLoop.calm inLoop q
    exact absurd outside ((silent_checkInLoop q.room).mp inLoop)
  | body inner left ih =>
    obtain ⟨rfl, rfl⟩ := inner.left_body steady left
    exact fun outside => ih ⟨q.room, q.errors⟩ outside rfl
  | branchesNil => exact fun _ _ chosen => absurd chosen List.not_mem_nil
  | branchesCons condition taken others _ ihx ihs =>
    intro outside b chosen
    have outside₁ := (condition.change steady).stays.loopDepth.trans outside
    have outside₂ := (taken.change steady).stays.loopDepth.trans outside₁
    have others := others.appends steady
    obtain ⟨-, q⟩ := q.split (condition.appends steady) ((taken.appends steady).trans others)
    obtain ⟨q₁, q₂⟩ := q.split (taken.appends steady) others
    obtain rfl | chosen := List.mem_cons.mp chosen
    · exact ihx q₁ outside₁
    · exact ihs q₂ outside₂ b chosen
  | stmtsNil _ =>
    intro _ _ exit path
    cases path with
    | nil => rfl
  | stmtsCons reached first rest ih ihs =>
    intro outside _ exit path
    obtain ⟨q₁, q₂⟩ := q.split (first.appends steady) (rest.appends steady)
    cases path with
    | left path _ => exact ih q₁ outside exit path
    | cons path path' =>
      have outside₁ := (first.change steady).stays.loopDepth.trans outside
      have goesOn := Stmt.not_returns_of_path _ path
      exact ihs q₂ outside₁ (((first.returns_of_calm steady q₁).2 reached).trans goesOn) exit path'
  | dead notReached => exact fun _ reached => absurd notReached (by simp [reached])
  | _ => trivial

namespace Resolver

theorem Recorded.equals_void_iff {r r' : Resolver} (h : r.Recorded) (h' : r'.Recorded) (t : Ty) :
    (r.resolve t).equals r' .void = true ↔ t = .void ∨ t = .todo := by
  have unlike : (r.resolve t).areAlike .void = false := Ty.areAlike_of_flat_right rfl
  rw [(h'.equals_of_not_alike unlike).1]
  cases t with
  | named ref =>
    rw [h.resolve_named]
    obtain unknown | ⟨decl, meaning⟩ := h.meaning_cases ref
    · rw [unknown]
      rw [Option.getD_none, h'.unwrap_named]
      obtain unknown | ⟨decl, meaning⟩ := h'.meaning_cases ref
      · simp [unknown, unwrap, unwrapWithin, Ty.agrees]
      · simp [meaning, unwrap, unwrapWithin, Ty.agrees]
    · simp [meaning, unwrap, unwrapWithin, Ty.agrees]
  | func sig =>
    cases sig
    simp [resolve, resolveWithin, Ty.bind, unwrap, unwrapWithin, Ty.agrees]
  | _ => simp [resolve, resolveWithin, Ty.bind, unwrap, unwrapWithin, Ty.agrees]

end Resolver

/-- Error `d` is added if `P` holds, and nothing otherwise. -/
def CheckState.Adds (s s' : CheckState) (d : Diagnostic) (P : Prop) : Prop :=
  (P ∧ s'.errors = s.errors ++ [d]) ∨ (¬ P ∧ s'.errors = s.errors)

/-- A function has a result to give, which is known, and a path through it that gives none. -/
def Signature.Misses (sig : Signature) (body : List Stmt) : Prop :=
  sig.result ≠ .void ∧ sig.result ≠ .todo ∧ Stmt.FallsOff body

namespace Checks

variable {imp : Importer} {P : Law} {s s₁ : CheckState} {xs xs' : List Stmt}

theorem adds_leaveFunction (steady : imp.Steady) {sig : Signature}
    (inner : Checks imp P (.stmts xs) (s.enterFunction sig) xs' s₁) (room : s.Room)
    (same : s₁.errors = s.errors) (name : String) (token : Token) :
    s.Adds (s₁.leaveFunction s sig name token) ⟨.check (.notAllPathsReturn name), token.start⟩
      (Stmt.FallsOff xs ∧ ¬ sig.result.equals s₁.resolver .void = true) := by
  have entered := appends_enterFunction s sig
  have q : Calm s s₁ := ⟨room, same⟩
  obtain ⟨-, q⟩ := q.split entered (inner.appends steady)
  have returns : s₁.returns = Stmt.anyReturns xs := (inner.returns_of_calm steady q).2
  have falls := Stmt.fallsOff_iff (inner.confined steady q rfl rfl)
  have full : { s₁ with returns := s.returns }.Room := by
    have config := (inner.change steady).stays.config.trans entered.config
    unfold Room
    rw [config, same]
    exact room
  have noted : (s₁.leaveFunction s sig name token).errors =
      ({ s₁ with returns := s.returns }.noteUnless
        (s₁.returns = true ∨ sig.result.equals s₁.resolver .void = true)
        ⟨.check (.notAllPathsReturn name), token.start⟩).errors := rfl
  unfold Adds
  rw [noted, noteUnless, falls, ← returns]
  split
  case isTrue ok =>
    refine .inr ⟨fun misses => ?_, same⟩
    exact ok.elim (fun h => absurd h (by simp [misses.1])) misses.2
  case isFalse misses =>
    rw [note_of_room full]
    refine .inl ⟨?_, congrArg (· ++ _) same⟩
    simpa using misses

end Checks

namespace Build

variable {config : Config} {files : List (String × String)} {session : Session}

theorem arises_of_visits {n : Nat} {program : List Stmt} {id : String} {directory : Path} {j : Item}
    {s : CheckState} {around : Option CheckState} (started : session.Arises config files)
    (visited : Visits (within n) (.top program) (.start id directory session) j s around) :
    s.Arises config files :=
  have ⟨steady, total⟩ := within_steady_total n
  visited.carry (.any steady total) (within_arising n).invariant started

theorem adds_function {n : Nat} {s t s₁ : CheckState} {sig : Signature} {xs xs' : List Stmt}
    (arises : s.Arises config files) (body : Runs (within n) (Check.stmts xs)
      (t.enterFunction (s.resolver.resolveSignature sig)) xs' s₁)
    (tables : t.tables = s.tables) (room : t.Room) (same : s₁.errors = t.errors) (name : String)
    (token : Token) :
    ∃ s', Runs (within n)
        (Item.function (s.resolver.resolveSignature sig) name token xs).check t xs' s' ∧
      t.Adds s' ⟨.check (.notAllPathsReturn name), token.start⟩ (sig.Misses xs) := by
  obtain ⟨steady, total⟩ := within_steady_total n
  have inner := Checks.of_check (i := .stmts xs) (.any steady total) rfl body
  refine ⟨_, (inner.function_of_stmts steady name token).runs, ?_⟩
  have inv : Invariant (within n) (within n) (fun _ => True) (Tables.Arises config files) :=
    (within_arising n).invariant
  have before : t.tables.Arises config files := by
    rw [tables]
    exact arises
  have entered := inv.enterFunction before (s.resolver.resolveSignature sig)
  have left : s₁.Arises config files :=
    (inner.carry steady inv (fun _ => Item.named_true _) entered).2
  have void := (recorded_resolver arises.recorded).equals_void_iff
    (recorded_resolver left.recorded) sig.result
  have misses : Stmt.FallsOff xs ∧
      ¬ (s.resolver.resolve sig.result).equals s₁.resolver .void = true ↔ sig.Misses xs := by
    rw [void, not_or]
    exact ⟨fun h => ⟨h.2.1, h.2.2, h.1⟩, fun h => ⟨h.2.2, h.1, h.2.1⟩⟩
  have added := inner.adds_leaveFunction steady room same name token
  unfold Adds at *
  rw [← misses]
  exact added

/-- A missing result is reported exactly where it is missing. Whenever a function is checked in a
unit of a build, declared or written as a literal, one more error would be recorded, and there are
no errors in its body: that not all its paths return is reported if and only if its result type is
neither `void` nor unknown and a path through its body falls off the end. What is recorded for the
function is in the final report. -/
theorem missing_result_iff (n : Nat) (started : session.Arises config files)
    (program : List Stmt) (id : String) (directory : Path) :
    ∃ program' final,
      Runs (within n) (topLevel program) (.start id directory session) program' final ∧
      (∀ token sig xs s around xs' s₁,
        Visits (within n) (.top program) (.start id directory session)
          (.stmt (.function token sig xs)) s around → s.Room →
        Runs (within n) (Check.stmts xs)
          ((s.declare sig.name (.func (s.resolver.resolveSignature sig))).enterFunction
            (s.resolver.resolveSignature sig)) xs' s₁ → s₁.errors = s.errors →
        ∃ x' s', Runs (within n) (Check.stmt (.function token sig xs)) s x' s' ∧
          s.Adds s' ⟨.check (.notAllPathsReturn (Name.bare sig.name)), token.start⟩
            (sig.Misses xs) ∧
          s'.errors <+: final.errors) ∧
      ∀ token sig xs ty s around xs' s₁,
        Visits (within n) (.top program) (.start id directory session)
          (.expr ⟨.function sig xs, ty, token⟩) s around → s.Room →
        Runs (within n) (Check.stmts xs)
          ({ s with barrier := some s.env.vars.depth }.enterFunction
            (s.resolver.resolveSignature sig)) xs' s₁ → s₁.errors = s.errors →
        ∃ e' s', Runs (within n) (Check.expr ⟨.function sig xs, ty, token⟩) s e' s' ∧
          s.Adds s' ⟨.check (.notAllPathsReturn "<anonymous>"), token.start⟩ (sig.Misses xs) ∧
          s'.errors <+: final.errors := by
  obtain ⟨steady, total⟩ := within_steady_total n
  obtain ⟨program', final, checked, reported⟩ :=
    Visits.reported_top (.any steady total) program (.start id directory session)
  refine ⟨program', final, checked, ?_, ?_⟩
  · intro token sig xs s around xs' s₁ visited room body same
    obtain ⟨s', ran, added⟩ := adds_function (arises_of_visits started visited) body rfl room same
      (Name.bare sig.name) token
    have declared : Runs (within n)
        (Check.declare sig.name (.func (s.resolver.resolveSignature sig))) s ()
        (s.declare sig.name (.func (s.resolver.resolveSignature sig))) := runs_declare.mpr rfl
    obtain ⟨x', s'', whole, kept⟩ := reported visited
    have split := whole
    rw [Item.check, Plan.stmt_function] at split
    obtain ⟨rfl, rfl⟩ :=
      split.unique (Runs.get.bind (declared.bind (ran.bind (Runs.modify.bind .ret))))
    exact ⟨_, _, whole, added, kept⟩
  · intro token sig xs ty s around xs' s₁ visited room body same
    obtain ⟨s', ran, added⟩ := adds_function (arises_of_visits started visited) body rfl room same
      "<anonymous>" token
    obtain ⟨e', s'', whole, kept⟩ := reported visited
    have split := whole
    rw [Item.check, Plan.expr_function] at split
    obtain ⟨rfl, rfl⟩ :=
      split.unique (Runs.get.bind (Runs.modify.bind (ran.bind (Runs.modify.bind .ret))))
    exact ⟨_, _, whole, added, kept⟩

def looping (token : Token) : Stmt :=
  .function token ⟨"f", [], [], .int 32⟩
    [.loop token none none none [.return token (some ⟨.integer 1, .int 32, token⟩)]]

theorem missing_result_iff_loop :
    ∃ program' final,
      Runs (within 0) (topLevel [looping ⟨.eof, "", ⟨.nowhere, .nowhere⟩⟩])
        (.start "0" ⟨""⟩ (.start .default (.ofFiles []))) program' final ∧
      ⟨.check (.notAllPathsReturn "f"), .nowhere⟩ ∈ final.errors := by
  have top : Visits (within 0) (.top [looping ⟨.eof, "", ⟨.nowhere, .nowhere⟩⟩])
      (.start "0" ⟨""⟩ (.start .default (.ofFiles []))) _ _ _ := .part .self .here
  obtain ⟨program', final, checked, declared, -⟩ := missing_result_iff 0 .start
    [looping ⟨.eof, "", ⟨.nowhere, .nowhere⟩⟩] "0" ⟨""⟩
  obtain ⟨x', s', -, added, kept⟩ := declared _ _ _ _ _ _ _ top rfl rfl rfl
  have falls : Stmt.FallsOff [.loop ⟨.eof, "", ⟨.nowhere, .nowhere⟩⟩ none none none
      [.return ⟨.eof, "", ⟨.nowhere, .nowhere⟩⟩
        (some ⟨.integer 1, .int 32, ⟨.eof, "", ⟨.nowhere, .nowhere⟩⟩⟩)]] :=
    .cons (.loop (List.forall_mem_nil _)) .nil
  refine ⟨program', final, checked, kept.subset ?_⟩
  obtain ⟨-, errors⟩ | ⟨not, -⟩ := added
  · exact errors ▸ List.mem_append_right _ List.mem_cons_self
  · exact absurd ⟨nofun, nofun, falls⟩ not

/-- A path through an empty body falls off its end. Still nothing is reported for a function with
such a body if its result type is one that the importer was to give, and could not. -/
theorem unknown_result_unreported :
    Stmt.FallsOff [] ∧
    (match file "import m, Foo, \"m.cd\"" ⟨"main.cd"⟩
        (.start .default (.ofFiles [("m.cd", "type T\nfunc f() T \x7b\n\x7d")])) with
      | .ok (.error ds, _) => ds.map (·.cause)
      | _ => []) = [.check (.unknownType "Foo")] :=
  ⟨.nil, by decide +kernel⟩

end Build

end FrontEnd
