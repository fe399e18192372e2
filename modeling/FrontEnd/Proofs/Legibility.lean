import FrontEnd.Proofs.Build
import FrontEnd.Proofs.Checking.Arising
import FrontEnd.Proofs.Halting
import Mathlib.Logic.Relation

namespace FrontEnd

open Parse Nested Build Check CheckState

def Legible (source file : String) : Prop :=
  tokenize (.ofSource source file) = .ok (Cursor.ofSource source file).tokens

theorem legible_of_tokens {source file : String}
    (h : ∀ t ∈ (Cursor.ofSource source file).tokens, t.kind ≠ .illegal) : Legible source file := by
  have none : (Cursor.ofSource source file).tokens.find? (fun t => t.kind = .illegal) = none :=
    List.find?_eq_none.mpr fun t mem => by simpa using h t mem
  rw [Legible, tokenize, none]

theorem Program.legible_of_read {source file : String} {o : ReadOptions}
    (noErrors : (Program.read (.ofSource source file) o).errors = []) : Legible source file := by
  obtain ⟨xs, r, read, _, -, -, -, stopped⟩ := Program.run_statements source file o
  rw [Program.read_eq, read] at noErrors
  have errors : r.errors = [] := r.errors_of_closed noErrors
  -- nothing is left at the end, since otherwise that would be an error
  have finished : r.tokens = [] := by
    refine Classical.byContradiction fun more => ?_
    rw [ReadResult.of, Reader.closed, if_pos (stopped.mpr more)] at noErrors
    simp at noErrors
  obtain ⟨_, _, run, _, out⟩ := (Setting.any o.unit).runs_statements _ .eof
    ((Setting.any o.unit).sound_ofCursor (.ofSource source file) rfl fun _ _ => trivial)
  obtain ⟨rfl, rfl⟩ := Prod.mk.inj (run.symm.trans read)
  have clear := (out.result xs rfl).2.1
  refine legible_of_tokens ?_
  obtain ⟨ts, eof, tokens, last⟩ := (Cursor.ofSource source file).exists_tokens_eq
  have begun : (Reader.ofCursor (.ofSource source file) o).tokens = ts := by
    simp [Reader.ofCursor, tokens]
  rw [tokens, List.forall_mem_append]
  refine ⟨clear errors ts (by rw [begun, finished, List.append_nil]), ?_⟩
  simp [last]

/-- The modules of a unit, and theirs in turn, come from texts with legal tokens only. -/
inductive CheckedUnit.Legible (loader : Loader) : CheckedUnit → Prop
  | intro {unit : CheckedUnit}
      (texts : ∀ p ∈ unit.env.modules, ∃ source, loader.read p.2.path = .ok source ∧
        FrontEnd.Legible source p.2.path.text)
      (modules : ∀ p ∈ unit.env.modules, CheckedUnit.Legible loader p.2.unit) :
      CheckedUnit.Legible loader unit

structure Tables.Legible (loader : Loader) (t : Tables) : Prop where
  session : t.session.loader = loader
  texts : ∀ p ∈ t.modules, ∃ source, loader.read p.2.path = .ok source ∧
    FrontEnd.Legible source p.2.path.text
  modules : ∀ p ∈ t.modules, p.2.unit.Legible loader

/-- An importer whose units come from such texts. -/
def Importer.Reads (imp : Importer) : Prop :=
  ∀ source path typeArgs session unit session',
    imp source path typeArgs session = .ok (.ok unit, session') →
      FrontEnd.Legible source path.text ∧ unit.Legible session.loader

namespace Importer.Reads

variable {imp : Importer} {loader : Loader}

theorem imports (reads : imp.Reads) (steady : imp.Steady) {token : Token} {name : String}
    {typeArgs : List Ty} {path : String} {s s' : CheckState} (hs : s.tables.Legible loader)
    (h : Imports imp token name typeArgs path s s') : s'.tables.Legible loader := by
  have begun {session : Session} (begins : s.session.begin? (importedFile s path) = some session) :
      session.loader = loader := by
    rw [Session.begin?_eq_some begins]
    exact hs.session
  cases h with
  | cycle _ =>
    rw [tables_note]
    exact hs
  | unavailable begins _ =>
    have same := begun begins
    rw [tables_note]
    exact ⟨same, hs.texts, hs.modules⟩
  | failed begins _ checked =>
    rw [tables_foldl_note, tables_note]
    exact ⟨(steady _ _ _ _ _ _ checked).2.1.trans (begun begins), hs.texts, hs.modules⟩
  | loaded begins text checked =>
    have same := begun begins
    obtain ⟨legible, unit⟩ := reads _ _ _ _ _ _ checked
    rw [same] at text unit
    exact ⟨(steady _ _ _ _ _ _ checked).2.1.trans same,
      Table.forall_insert hs.texts ⟨_, text, legible⟩, Table.forall_insert hs.modules unit⟩

theorem invariant (reads : imp.Reads) (steady : imp.Steady) :
    Invariant imp imp (fun _ => True) (Tables.Legible loader) where
  enter hs := ⟨hs.session, hs.texts, hs.modules⟩
  leave _ hs _ := ⟨hs.session, hs.texts, hs.modules⟩
  define {s} decl _ hs := by
    refine ⟨?_, hs.texts, hs.modules⟩
    unfold CheckState.define CheckState.tables
    dsimp only
    split <;> exact hs.session
  imports hs h := ⟨h, reads.imports steady hs h⟩

theorem unitWith (reads : imp.Reads) (steady : imp.Steady) (total : imp.Total) :
    Importer.Reads (unitWith imp) := by
  intro source path typeArgs session unit session' built
  cases unitWith_eq_ok.mp built with
  | accepted readable checked _ =>
    have derived := Checks.of_runs (Lawful.any steady total) checked
    have ended := (derived.carry steady (reads.invariant steady) (fun _ => Item.named_true _)
      ⟨rfl, nofun, nofun⟩).2
    exact ⟨Program.legible_of_read readable, .intro ended.texts ended.modules⟩

end Importer.Reads

namespace Build

theorem within_reads (n : Nat) : Importer.Reads (within n) := by
  induction n with
  | zero =>
    intro _ _ _ _ _ _ built
    cases built
  | succ n ih => exact ih.unitWith (within_steady_total n).1 (within_steady_total n).2

/-- A text that is read without errors has no illegal token. So none stands in a program that is
accepted, neither in the first file nor in those of the units that it imports, directly or through
others. -/
theorem file_legible :
    (∀ source file (o : ReadOptions), (Program.read (.ofSource source file) o).errors = [] →
      tokenize (.ofSource source file) = .ok (Cursor.ofSource source file).tokens) ∧
    ∀ source path session unit session', file source path session = .ok (.ok unit, session') →
      Legible source path.normalize.text ∧
      ∀ other, Relation.ReflTransGen CheckedUnit.Uses unit other →
        ∀ p ∈ other.env.modules, ∃ text, session.loader.read p.2.path = .ok text ∧
          Legible text p.2.path.text := by
  refine ⟨fun _ _ _ noErrors => Program.legible_of_read noErrors, ?_⟩
  intro source path session unit session' accepted
  obtain ⟨_, built, _⟩ := file_eq_ok.mp accepted
  have begun : ((session.begin? path.normalize).getD session).loader = session.loader := by
    unfold Session.begin?
    split <;> rfl
  obtain ⟨first, legible⟩ := within_reads _ _ _ _ _ _ _ built
  rw [begun] at legible
  refine ⟨first, fun other uses => ?_⟩
  have all : other.Legible session.loader := by
    induction uses with
    | refl => exact legible
    | tail _ last ih =>
      obtain ⟨p, mem, rfl⟩ := last
      cases ih with
      | intro _ modules => exact modules p mem
  cases all with
  | intro texts _ => exact texts

/-- A text is imported through another one. -/
theorem file_legible_imported :
    (∃ unit session' other p text,
      file "import a, \"a.cd\"" ⟨"main.cd"⟩ (.start .default (.ofFiles
        [("a.cd", "import b, \"b.cd\""), ("b.cd", "s := \"\\\"\" // ?")])) =
          .ok (.ok unit, session') ∧
      unit.Uses other ∧ p ∈ other.env.modules ∧ Legible text p.2.path.text) ∧
    (Program.read (.ofSource "// ?" "b.cd") ⟨"0", [], 1, 10⟩).errors = [] ∧
    tokenize (.ofSource "// ?" "b.cd") = .ok (Cursor.ofSource "// ?" "b.cd").tokens := by
  have accepted : acceptsWith (fun u => u.env.modules.any fun p => p.2.unit.env.modules.any fun _ =>
      true) (file "import a, \"a.cd\"" ⟨"main.cd"⟩ (.start .default (.ofFiles
        [("a.cd", "import b, \"b.cd\""), ("b.cd", "s := \"\\\"\" // ?")]))) = true := by
    decide +kernel
  have noErrors : (Program.read (.ofSource "// ?" "b.cd") ⟨"0", [], 1, 10⟩).errors = [] := by
    decide +kernel
  refine ⟨?_, noErrors, file_legible.1 _ _ _ noErrors⟩
  obtain ⟨unit, session', built, test⟩ := exists_of_acceptsWith accepted
  obtain ⟨p, imported, test⟩ := List.any_eq_true.mp test
  obtain ⟨q, inner, -⟩ := List.any_eq_true.mp test
  have uses : unit.Uses p.2.unit := ⟨p, imported, rfl⟩
  obtain ⟨-, legible⟩ := file_legible.2 _ _ _ _ _ built
  obtain ⟨text, -, holds⟩ := legible _ (.single uses) q inner
  exact ⟨unit, session', p.2.unit, q, text, built, uses, inner, holds⟩

end Build

end FrontEnd
