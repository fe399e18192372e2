import Mathlib.Logic.Relation
import FrontEnd.Proofs.Checking.Plan
import FrontEnd.Proofs.Termination

namespace FrontEnd

theorem Path.same_comm (p q : Path) : p.same q = q.same p :=
  Bool.beq_comm

namespace Session

variable {s t : Session} {files : List (String × String)}

def Distinct (s : Session) : Prop :=
  s.chain.Pairwise fun p q => p.same q = false

instance (s : Session) : Decidable s.Distinct :=
  inferInstanceAs (Decidable (List.Pairwise _ _))

def OnChain (s : Session) (p : Path) : Prop :=
  ∃ q ∈ s.chain, p.same q = true

instance (s : Session) (p : Path) : Decidable (s.OnChain p) :=
  inferInstanceAs (Decidable (∃ q ∈ s.chain, p.same q = true))

theorem begin?_eq_none {p : Path} : s.begin? p = none ↔ s.OnChain p := by
  simp [begin?, OnChain, chain]

/-- The texts come from `files`, all errors are recorded, and no file stands on the chain twice. -/
structure Orderly (files : List (String × String)) (s : Session) : Prop where
  loader : s.loader = .ofFiles files
  uncapped : s.config.maxCheckErrors = none
  distinct : s.Distinct

theorem Keeps.chain (h : s.Keeps t) : t.chain = s.chain :=
  congrArg List.reverse h.importing

theorem Keeps.orderly (h : s.Keeps t) (ok : s.Orderly files) : t.Orderly files where
  loader := h.loader.trans ok.loader
  uncapped := by rw [h.config, ok.uncapped]
  distinct := by
    unfold Distinct
    rw [h.chain]
    exact ok.distinct

theorem Orderly.begins (ok : s.Orderly files) {p : Path} (begun : s.begin? p = some t) :
    t.Orderly files := by
  have new : ¬ s.OnChain p := by
    rw [← begin?_eq_none, begun]
    simp
  obtain rfl := begin?_eq_some begun
  refine ⟨ok.loader, ok.uncapped, ?_⟩
  have grown : chain { s with importing := p :: s.importing } = s.chain ++ [p] :=
    List.reverse_cons
  unfold Distinct
  rw [grown, List.pairwise_append]
  refine ⟨ok.distinct, List.pairwise_singleton _ _, fun q on r hr => ?_⟩
  obtain rfl := List.mem_singleton.mp hr
  rw [Path.same_comm, Bool.eq_false_iff]
  exact fun same => new ⟨q, on, same⟩

theorem Distinct.finish (h : s.Distinct) (p : Path) : (s.finish p).Distinct :=
  h.sublist List.eraseP_sublist.reverse

theorem Orderly.finishes (ok : s.Orderly files) (p : Path) : (s.finish p).Orderly files :=
  ⟨ok.loader, ok.uncapped, ok.distinct.finish p⟩

theorem Moves.orderly (h : s.Moves t) (ok : s.Orderly files) : t.Orderly files := by
  cases h with
  | stays same => exact same.orderly ok
  | begins begun => exact ok.begins begun
  | finishes p => exact ok.finishes p

end Session

open Build Check CheckState

/-- A moment of a build: what is left to do for the part of a unit that is being checked, and the
state. -/
structure Moment where
  {Result : Type}
  left : Plan Result
  state : CheckState

namespace Moment

/-- What follows a moment: a step has been taken; the checking of an item begins, or has come to
its end; the checking of an imported unit begins, or has come to its end. -/
inductive Next : Moment → Moment → Prop
  | step {α β : Type} {m : Step β} {next : β → Plan α} {s b s'} (ran : Runs unit m.check s b s') :
      Next ⟨.step m next, s⟩ ⟨next b, s'⟩
  | enter {α : Type} {i : Item} {sure} {next : i.Result → Plan α} {s} :
      Next ⟨.part i sure next, s⟩ ⟨.of i, s⟩
  | leave {α : Type} {i : Item} {sure} {next : i.Result → Plan α} {s r s'}
      (ran : Runs unit i.check s r s') : Next ⟨.part i sure next, s⟩ ⟨next r, s'⟩
  | enterUnit {α : Type} {file typeArgs source} {next : _ → Plan α} {s}
      (text : s.session.loader.read file = .ok source)
      (readable : (reading source file typeArgs s.session).errors = []) :
      Next ⟨.ask file typeArgs next, s⟩
        ⟨.of (.top (reading source file typeArgs s.session).program.statements),
          begun source file typeArgs s.session⟩
  | leaveUnit {α : Type} {file typeArgs} {next : _ → Plan α} {s r s'}
      (ran : Runs unit (importFrom file typeArgs) s r s') :
      Next ⟨.ask file typeArgs next, s⟩ ⟨next r, s'⟩

abbrev Reaches : Moment → Moment → Prop :=
  Relation.ReflTransGen Next

variable {m m' : Moment} {files : List (String × String)}

theorem reaches_done {α : Type} {p : Plan α} {s s' : CheckState} {a : α}
    (h : Runs unit p.run s a s') : Reaches ⟨p, s⟩ ⟨.done a, s'⟩ := by
  induction p generalizing s with
  | done b =>
    obtain ⟨rfl, rfl⟩ := runs_pure.mp h
    exact .refl
  | step m next ih =>
    obtain ⟨b, s₁, first, rest⟩ := runs_bind.mp h
    exact .head (.step first) (ih b rest)
  | part i sure next ih =>
    obtain ⟨r, s₁, first, rest⟩ := runs_bind.mp h
    exact .head (.leave first) (ih r rest)
  | ask file typeArgs next ih =>
    obtain ⟨r, s₁, first, rest⟩ := runs_bind.mp h
    exact .head (.leaveUnit first) (ih r rest)

theorem lawful_unit : Lawful unit fun _ _ _ _ => True :=
  .any unit_steady unit_total

theorem Next.orderly (h : Next m m') (ok : m.state.session.Orderly files) :
    m'.state.session.Orderly files := by
  cases h with
  | @step _ _ m _ _ _ _ ran => exact (m.moves ran).orderly ok
  | enter => exact ok
  | @leave _ _ sure _ _ _ _ ran =>
    exact ((Checks.of_check lawful_unit sure ran).change unit_steady).stays.session.orderly ok
  | enterUnit text readable => exact ⟨ok.loader, ok.uncapped, ok.distinct⟩
  | leaveUnit ran =>
    obtain ⟨_, _, _, rfl⟩ | ⟨source, r, session, _, checked, _, rfl⟩ := runs_importFrom.mp ran
    · exact ok
    · obtain ⟨config, loader, importing⟩ := unit_steady _ _ _ _ _ _ checked
      exact Session.Keeps.orderly ⟨config, loader, importing⟩ ok

theorem Reaches.orderly (h : Reaches m m') (ok : m.state.session.Orderly files) :
    m'.state.session.Orderly files := by
  induction h with
  | refl => exact ok
  | tail _ next ih => exact next.orderly ih

end Moment

namespace Check

variable {imp : Importer} {s s' : CheckState} {token : Token}

theorem unknown_of_resolveAll (u : s.Uncapped) {t ty : Ty}
    (h : Runs imp (resolveAll t token) s ty s') :
    ∃ ds, s' = s.notes ds ∧ ∀ d ∈ ds, ∃ name, d = ⟨.check (.unknownType name), token.start⟩ := by
  rw [resolveAll, runs_resolve_bind] at h
  split at h
  case h_1 ref _ =>
    simp only [runs_bind, runs_error, runs_pure] at h
    obtain ⟨_, _, rfl, -, rfl⟩ := h
    exact ⟨_, note_of_uncapped u, by simp⟩
  case h_2 =>
    obtain ⟨-, rfl⟩ := runs_pure.mp h
    exact ⟨[], by simp⟩

theorem unknown_of_resolveTypeArgs (u : s.Uncapped) {ts us : List Ty}
    (h : Runs imp (resolveTypeArgs token ts) s us s') :
    ∃ ds, s' = s.notes ds ∧ ∀ d ∈ ds, ∃ name, d = ⟨.check (.unknownType name), token.start⟩ := by
  induction ts generalizing s us with
  | nil =>
    obtain ⟨-, rfl⟩ := runs_pure.mp h
    exact ⟨[], by simp⟩
  | cons t ts ih =>
    obtain ⟨ty, s₁, first, h⟩ := runs_bind.mp h
    obtain ⟨rest, s₂, others, h⟩ := runs_bind.mp h
    obtain ⟨-, rfl⟩ := runs_pure.mp h
    obtain ⟨ds, rfl, hds⟩ := unknown_of_resolveAll u first
    obtain ⟨es, rfl, hes⟩ := ih (notes_uncapped.mpr u) others
    refine ⟨ds ++ es, by simp, fun d hd => ?_⟩
    obtain hd | hd := List.mem_append.mp hd
    · exact hds d hd
    · exact hes d hd

theorem foldl_note_of_uncapped (u : s.Uncapped) (ds : List Diagnostic) :
    ds.foldl note s = s.notes ds := by
  induction ds generalizing s with
  | nil => simp
  | cons d ds ih =>
    rw [List.foldl_cons, note_of_uncapped u, ih (notes_uncapped.mpr u), notes_notes]
    rfl

/-- The error for a file that is on the chain already: the chain with the outermost file first, and
then the file. -/
def cycleError (session : Session) (token : Token) (file : Path) : Diagnostic :=
  ⟨.check (.importCycle (" -> ".intercalate ((session.chain ++ [file]).map (·.text)))), token.start⟩

structure ImportReport (session : Session) (token : Token) (path : String) (file : Path)
    (own : List Diagnostic) : Prop where
  iff : (∃ message, own.head? = some ⟨.check (.importCycle message), token.start⟩) ↔
    session.OnChain file
  cycle : session.OnChain file → own = [cycleError session token file]
  /-- The unit has become a module, there is no text, or the unit has errors. -/
  other : ¬ session.OnChain file →
    own = [] ∨ (∃ reason, own = [⟨.check (.importUnavailable path reason), token.start⟩]) ∨
      ∃ source typeArgs inner ds inner', session.begin? file = some inner ∧
        session.loader.read file = .ok source ∧
        unit source file typeArgs inner = .ok (.error ds, inner') ∧
        own = ⟨.check (.importFailed path ds.length), token.start⟩ :: ds

theorem ImportReport.of_imports (u : s.Uncapped) {name : String} {typeArgs : List Ty}
    {path : String} (h : Imports unit token name typeArgs path s s') :
    ∃ own, s'.errors = s.errors ++ own ∧
      ImportReport s.session token path (importedFile s path) own := by
  have off {session : Session} (begins : s.session.begin? (importedFile s path) = some session) :
      ¬ s.session.OnChain (importedFile s path) := by
    rw [← Session.begin?_eq_none, begins]
    simp
  have uncapped {session : Session} (config : session.config = s.session.config) :
      Uncapped { s with session := session.finish (importedFile s path) } := by
    change session.config.maxCheckErrors = none
    rw [config]
    exact u
  cases h with
  | cycle begins =>
    have on := Session.begin?_eq_none.mp begins
    rw [note_of_uncapped u]
    exact ⟨_, rfl, ⟨fun _ => on, fun _ => ⟨_, rfl⟩⟩, fun _ => rfl, fun off => absurd on off⟩
  | @unavailable session reason begins noText =>
    have off := off begins
    have config : session.config = s.session.config := by rw [Session.begin?_eq_some begins]
    rw [note_of_uncapped (uncapped config)]
    exact ⟨_, rfl, ⟨by simp, fun on => absurd on off⟩, fun on => absurd on off,
      fun _ => .inr (.inl ⟨reason, rfl⟩)⟩
  | @failed session source ds session' begins text checked =>
    have off := off begins
    have same := Session.begin?_eq_some begins
    have config : session'.config = s.session.config := by
      rw [(unit_steady _ _ _ _ _ _ checked).1, same]
    rw [note_of_uncapped (uncapped config),
      foldl_note_of_uncapped (notes_uncapped.mpr (uncapped config)), notes_notes]
    have text : s.session.loader.read (importedFile s path) = .ok source := by
      rw [← text, same]
    exact ⟨_, rfl, ⟨by simp, fun on => absurd on off⟩, fun on => absurd on off,
      fun _ => .inr (.inr ⟨source, typeArgs, session, ds, session', begins, text, checked, rfl⟩)⟩
  | loaded begins text checked =>
    have off := off begins
    exact ⟨[], by simp, ⟨by simp, fun on => absurd on off⟩, fun on => absurd on off,
      fun _ => .inl rfl⟩

/-- An import statement is checked to its end. Besides types that are not known it reports a cycle,
or what has kept the unit from becoming a module. -/
theorem importUnit_reports (u : s.Uncapped) (name : String) (typeArgs : List Ty) (path : String) :
    ∃ x s' unknown own, Runs unit (stmt (.importUnit token name typeArgs path)) s x s' ∧
      s'.errors = s.errors ++ unknown ++ own ∧
      (∀ d ∈ unknown, ∃ name, d = ⟨.check (.unknownType name), token.start⟩) ∧
      ImportReport s.session token path (importedFile s path) own := by
  obtain ⟨x, s', derived⟩ := total_stmt Moment.lawful_unit (.importUnit token name typeArgs path) s
  refine ⟨x, s', ?_⟩
  have ran := derived.runs
  cases derived with
  | importUnit types imported =>
    obtain ⟨unknown, rfl, hu⟩ := unknown_of_resolveTypeArgs u types
    obtain ⟨own, errors, report⟩ :=
      ImportReport.of_imports (notes_uncapped.mpr u) (runs_importUnit.mp imported)
    exact ⟨unknown, own, ran, errors, hu, report⟩

end Check

namespace Build

/-- The moments of a build of a unit: from the first statement on, if its text can be read. -/
def Passes (source : String) (path : Path) (typeArgs : List Ty) (session : Session) (m : Moment) :
    Prop :=
  (reading source path typeArgs session).errors = [] ∧
    Moment.Reaches ⟨.of (.top (reading source path typeArgs session).program.statements),
      begun source path typeArgs session⟩ m

/-- A build of a unit that gives `r` and `session'` uses the chain as a stack. -/
structure Stacked (source : String) (path : Path) (typeArgs : List Ty) (session : Session)
    (r : Except (List Diagnostic) CheckedUnit) (session' : Session) : Prop where
  restored : session'.chain = session.chain
  distinct : session.Distinct ∧ ∀ m, Passes source path typeArgs session m →
    m.state.session.Distinct
  /-- Where an import statement is to be checked, the state says what it will report. -/
  imports : ∀ {α : Type} {token name ts text sure} {next : Stmt → Plan α} {s},
    Passes source path typeArgs session
      ⟨.part (.stmt (.importUnit token name ts text)) sure next, s⟩ →
    ∃ x s' unknown own, Runs unit (stmt (.importUnit token name ts text)) s x s' ∧
      s'.errors = s.errors ++ unknown ++ own ∧
      (∀ d ∈ unknown, ∃ name, d = ⟨.check (.unknownType name), token.start⟩) ∧
      ImportReport s.session token text (importedFile s text) own
  /-- The moments of an imported unit are among those of the unit. -/
  nested : ∀ {α : Type} {file ts text} {next : _ → Plan α} {s},
    Passes source path typeArgs session ⟨.ask file ts next, s⟩ →
    s.session.loader.read file = .ok text →
    ∀ m, Passes text file ts s.session m → Passes source path typeArgs session m
  /-- The last of the moments decides the result. -/
  ends : (reading source path typeArgs session).errors = [] →
    ∃ xs s, Passes source path typeArgs session ⟨.done xs, s⟩ ∧ session' = s.session ∧
      r = if s.errors = [] then .ok ⟨⟨(reading source path typeArgs session).program.id, xs⟩, s.env⟩
        else .error s.errors

variable {files : List (String × String)} {session : Session}

theorem Passes.orderly {source : String} {path : Path} {typeArgs : List Ty} {m : Moment}
    (h : Passes source path typeArgs session m) (ok : session.Orderly files) :
    m.state.session.Orderly files :=
  h.2.orderly ⟨ok.loader, ok.uncapped, ok.distinct⟩

theorem unit_stacked (ok : session.Orderly files) (source : String) (path : Path)
    (typeArgs : List Ty) :
    ∃ r session', unit source path typeArgs session = .ok (r, session') ∧
      Stacked source path typeArgs session r session' := by
  obtain ⟨⟨r, session'⟩, built⟩ := unit_total source path typeArgs session
  obtain ⟨config, loader, importing⟩ := unit_steady _ _ _ _ _ _ built
  refine ⟨r, session', built, congrArg List.reverse importing, ⟨ok.distinct, fun m h =>
    (h.orderly ok).distinct⟩, fun h => importUnit_reports (h.orderly ok).uncapped _ _ _,
    fun h text m inner => ⟨h.1, (h.2.tail (.enterUnit text inner.1)).trans inner.2⟩, ?_⟩
  intro readable
  have reached {xs s} (checked : Runs unit (topLevel
      (reading source path typeArgs session).program.statements)
      (begun source path typeArgs session) xs s) :
      Passes source path typeArgs session ⟨.done xs, s⟩ := by
    refine ⟨readable, Moment.reaches_done ?_⟩
    rw [Plan.run_of]
    exact checked
  rw [unit_eq_unitWith ok.loader] at built
  cases unitWith_eq_ok.mp built with
  | unreadable errors => exact absurd readable errors
  | rejected _ checked errors => exact ⟨_, _, reached checked, rfl, by simp [errors]⟩
  | accepted _ checked noErrors => exact ⟨_, _, reached checked, rfl, by simp [noErrors]⟩

/-- The chain is a stack. Whatever a unit comes to and however deep its imports nest, the chain is
what it was before, and so it is after the first file of a build, unless that file was on it. -/
theorem chain_is_stack (loader : session.loader = .ofFiles files)
    (uncapped : session.config.maxCheckErrors = none) (distinct : session.Distinct)
    (source : String) (path : Path) (typeArgs : List Ty) :
    (∃ r session', unit source path typeArgs session = .ok (r, session') ∧
      Stacked source path typeArgs session r session') ∧
    ∃ r inner, unit source path.normalize [] ((session.begin? path.normalize).getD session) =
        .ok (r, inner) ∧
      Stacked source path.normalize [] ((session.begin? path.normalize).getD session) r inner ∧
      file source path session = .ok (r, inner.finish path.normalize) ∧
      (inner.finish path.normalize).Distinct ∧
      (¬ session.OnChain path.normalize →
        (inner.finish path.normalize).chain = session.chain) := by
  have ok : session.Orderly files := ⟨loader, uncapped, distinct⟩
  refine ⟨unit_stacked ok source path typeArgs, ?_⟩
  have start : ((session.begin? path.normalize).getD session).Orderly files := by
    cases begun : session.begin? path.normalize with
    | none => exact ok
    | some inner => exact ok.begins begun
  obtain ⟨r, inner, built, stacked⟩ := unit_stacked start source path.normalize []
  have same := List.reverse_injective stacked.restored
  have still : inner.Distinct := by
    unfold Session.Distinct
    rw [stacked.restored]
    exact start.distinct
  refine ⟨r, inner, built, stacked, file_eq_ok.mpr ⟨inner, built, rfl⟩, still.finish _, ?_⟩
  intro off
  cases begun : session.begin? path.normalize with
  | none => exact absurd (Session.begin?_eq_none.mp begun) off
  | some outer =>
    rw [begun] at same
    exact congrArg List.reverse (Session.finish_importing begun same)

/-- Two files are being checked. A third one that imports itself and one of them is checked as a
unit of its own, and the chain is left with the two. -/
theorem chain_is_stack_below :
    let files := [("lib/a.cd", "import b, \"b.cd\""), ("lib/c.cd", "import a, \"./a.cd\"")]
    let session : Session :=
      ⟨.default, .ofFiles files, 2, [⟨"lib/b.cd"⟩, ⟨"lib/a.cd"⟩], []⟩
    let source := "import c, \"../lib/c.cd\" import a, \"a.cd\""
    session.Distinct ∧ ¬ session.OnChain (Path.normalize ⟨"lib/./c.cd"⟩) ∧
      (∃ r session', unit source ⟨"lib/./c.cd"⟩ [] session = .ok (r, session') ∧
        Stacked source ⟨"lib/./c.cd"⟩ [] session r session') ∧
      ∃ r session', file source ⟨"lib/./c.cd"⟩ session = .ok (r, session') ∧
        session'.chain = [⟨"lib/a.cd"⟩, ⟨"lib/b.cd"⟩] := by
  intro files session source
  have distinct : session.Distinct := by decide +kernel
  have off : ¬ session.OnChain (Path.normalize ⟨"lib/./c.cd"⟩) := by decide +kernel
  obtain ⟨inner, r, session', -, -, built, -, restored⟩ :=
    chain_is_stack (show session.loader = .ofFiles files from rfl) rfl distinct source
      ⟨"lib/./c.cd"⟩ []
  exact ⟨distinct, off, inner, r, _, built, restored off⟩

end Build

end FrontEnd
