import Mathlib.Logic.Function.Iterate
import FrontEnd.Proofs.Build
import FrontEnd.Proofs.Checking.Invariant
import FrontEnd.Proofs.Path
import FrontEnd.Proofs.Typing.Clean

namespace FrontEnd

open Build Check CheckState

namespace Loader

variable {files : List (String × String)}

theorem length_table_le (files : List (String × String)) : (table files).length ≤ files.length := by
  have grows : ∀ t : List (String × String),
      (files.foldl (fun t f => Table.insert t (Path.normalize ⟨f.1⟩).text f.2) t).length ≤
        t.length + files.length := by
    induction files with
    | nil => simp
    | cons f files ih =>
      intro t
      have inserted : (Table.insert t (Path.normalize ⟨f.1⟩).text f.2).length ≤ t.length + 1 := by
        simpa [Table.insert] using List.length_filter_le _ t
      have rest := ih (Table.insert t (Path.normalize ⟨f.1⟩).text f.2)
      simp only [List.foldl_cons, List.length_cons]
      omega
  simpa [table] using grows []

theorem mem_table_of_read {file : Path} {source : String} (normal : file.normalize = file)
    (h : (ofFiles files).read file = .ok source) : (file.text, source) ∈ table files := by
  simp only [ofFiles, normal] at h
  split at h
  case h_1 found =>
    cases h
    exact Table.mem_of_lookup found
  case h_2 => cases h

theorem mem_texts_of_read {file : Path} {source : String}
    (h : (ofFiles files).read file = .ok source) : source ∈ files.map (·.2) := by
  have tables (fs : List (String × String)) (t : List (String × String))
      (below : fs ⊆ files) (texts : ∀ p ∈ t, p.2 ∈ files.map (·.2)) :
      ∀ p ∈ fs.foldl (fun t f => Table.insert t (Path.normalize ⟨f.1⟩).text f.2) t,
        p.2 ∈ files.map (·.2) := by
    induction fs generalizing t with
    | nil => exact texts
    | cons f fs ih =>
      obtain ⟨first, rest⟩ := List.cons_subset.mp below
      exact ih _ rest (Table.forall_insert texts (List.mem_map.mpr ⟨f, first, rfl⟩))
  simp only [ofFiles] at h
  split at h
  case h_1 found =>
    cases h
    exact tables files [] (List.Subset.refl _) (List.forall_mem_nil _) _ (Table.mem_of_lookup found)
  case h_2 => cases h

/-- The paths of the files that are not on a chain. -/
def waiting (files : List (String × String)) (chain : List Path) : List String :=
  ((table files).map (·.1)).filter fun text => !chain.any (Path.mk text).same

theorem length_waiting_le (files : List (String × String)) (chain : List Path) :
    (waiting files chain).length ≤ files.length := by
  have filtered : (waiting files chain).length ≤ ((table files).map (·.1)).length :=
    List.length_filter_le _ _
  have all := length_table_le files
  simp only [List.length_map] at filtered
  omega

theorem length_waiting_lt {chain : List Path} {file : Path} {source : String}
    (normal : file.normalize = file) (new : chain.any file.same = false)
    (text : (ofFiles files).read file = .ok source) :
    (waiting files (file :: chain)).length < (waiting files chain).length := by
  have fewer : waiting files (file :: chain) =
      (waiting files chain).filter fun text => !(Path.mk text).same file := by
    unfold waiting
    rw [List.filter_filter]
    congr 1
    funext text
    simp [Bool.not_or]
  have waits : file.text ∈ waiting files chain := by
    refine List.mem_filter.mpr ⟨List.mem_map.mpr ⟨_, mem_table_of_read normal text, rfl⟩, ?_⟩
    simp [new]
  rw [fewer]
  exact List.length_filter_lt_length_iff_exists.mpr ⟨file.text, waits, by simp⟩

end Loader

variable {imp imp' : Importer} {files : List (String × String)} {source : String} {path : Path}
  {typeArgs : List Ty} {session : Session}

/-- Two importers agree on the files that can be imported while `session` has its chain. -/
def Importer.AgreeInside (imp imp' : Importer) (session : Session) : Prop :=
  ∀ source file typeArgs (inner : Session), file.normalize = file →
    session.importing.any file.same = false → session.loader.read file = .ok source →
    inner.loader = session.loader → inner.importing = file :: session.importing →
    imp source file typeArgs inner = imp' source file typeArgs inner

theorem Importer.AgreeInside.imports (agree : imp.AgreeInside imp' session) {token : Token}
    {name : String} {path : String} {s s' : CheckState} (loader : s.session.loader = session.loader)
    (importing : s.session.importing = session.importing)
    (h : Imports imp token name typeArgs path s s') :
    Imports imp' token name typeArgs path s s' := by
  have same {source : String} {inner : Session}
      (begins : s.session.begin? (importedFile s path) = some inner)
      (text : inner.loader.read (importedFile s path) = .ok source) :
      imp source (importedFile s path) typeArgs inner =
        imp' source (importedFile s path) typeArgs inner := by
    have eq := Session.begin?_eq_some begins
    have new : session.importing.any (importedFile s path).same = false := by
      rw [← importing]
      by_contra on
      rw [Session.begin?, if_pos (by simpa using on)] at begins
      exact absurd begins (by simp)
    subst eq
    exact agree _ _ _ _ (Path.normalize_normalize _) new (loader ▸ text) loader (by rw [importing])
  cases h with
  | cycle begins => exact .cycle begins
  | unavailable begins noText => exact .unavailable begins noText
  | failed begins text checked => exact .failed begins text (same begins text ▸ checked)
  | loaded begins text checked => exact .loaded begins text (same begins text ▸ checked)

theorem Importer.AgreeInside.invariant (steady : imp.Steady)
    (agree : imp.AgreeInside imp' session) :
    Invariant imp imp' (fun _ => True) fun t =>
      t.session.loader = session.loader ∧ t.session.importing = session.importing where
  enter hs := hs
  leave _ hs _ := hs
  define {s} decl _ hs := by
    have kept := grows_define s decl.name (.record decl)
    exact ⟨kept.loader.trans hs.1, kept.importing.trans hs.2⟩
  imports hs h := by
    have kept := keeps_imports steady h
    exact ⟨agree.imports hs.1 hs.2 h, kept.loader.trans hs.1, kept.importing.trans hs.2⟩

namespace Build

theorem unitWith_congr (steady : imp.Steady) (total : imp.Total)
    (agree : imp.AgreeInside imp' session) :
    unitWith imp source path typeArgs session = unitWith imp' source path typeArgs session := by
  have ok := Lawful.any steady total
  have inv := agree.invariant steady
  obtain ⟨⟨r, session'⟩, built⟩ := Importer.Total.unitWith steady total source path typeArgs session
  rw [built]
  symm
  cases unitWith_eq_ok.mp built with
  | unreadable errors => exact unitWith_eq_ok.mpr (.unreadable errors)
  | rejected readable checked errors =>
    have derived :=
      ((Checks.of_runs ok checked).carry steady inv (fun _ => Item.named_true _) ⟨rfl, rfl⟩).1
    exact unitWith_eq_ok.mpr (.rejected readable derived.runs errors)
  | accepted readable checked noErrors =>
    have derived :=
      ((Checks.of_runs ok checked).carry steady inv (fun _ => Item.named_true _) ⟨rfl, rfl⟩).1
    exact unitWith_eq_ok.mpr (.accepted readable derived.runs noErrors)

theorem iterate_unitWith (imp₀ : Importer) {n m : Nat} (loader : session.loader = .ofFiles files)
    (hn : (Loader.waiting files session.importing).length < n)
    (hm : (Loader.waiting files session.importing).length < m) :
    unitWith^[n] imp₀ source path typeArgs session = within m source path typeArgs session := by
  induction n generalizing m source path typeArgs session with
  | zero => omega
  | succ n ih =>
    cases m with
    | zero => omega
    | succ m =>
      rw [Function.iterate_succ_apply']
      symm
      refine unitWith_congr (within_steady_total m).1 (within_steady_total m).2 ?_
      intro source file typeArgs inner normal new text innerLoader innerChain
      have fewer := Loader.length_waiting_lt normal new (loader ▸ text)
      rw [← innerChain] at fewer
      exact (ih (innerLoader.trans loader) (by omega) (by omega)).symm

theorem within_eq_within {n m : Nat} (loader : session.loader = .ofFiles files)
    (hn : (Loader.waiting files session.importing).length < n)
    (hm : (Loader.waiting files session.importing).length < m) :
    within n source path typeArgs session = within m source path typeArgs session :=
  (iterate_unitWith unit loader hm hn).symm.trans (iterate_unitWith unit loader hm hm)

theorem length_waiting_le_size (loader : session.loader = .ofFiles files) :
    (Loader.waiting files session.importing).length ≤ session.loader.size := by
  have filtered : (Loader.waiting files session.importing).length ≤
      ((Loader.table files).map (·.1)).length := List.length_filter_le _ _
  rw [List.length_map] at filtered
  rw [loader]
  exact filtered

/-- Imports nest no deeper than there are files: what would be asked to import at a greater depth
plays no part. -/
theorem iterate_unitWith_eq_unit (imp₀ : Importer) {n : Nat}
    (loader : session.loader = .ofFiles files) (hn : files.length < n) :
    unitWith^[n] imp₀ source path typeArgs session = unit source path typeArgs session := by
  have files := Loader.length_waiting_le files session.importing
  have texts := length_waiting_le_size loader
  exact iterate_unitWith imp₀ loader (by omega) (by omega)

theorem unit_eq_unitWith (loader : session.loader = .ofFiles files) :
    unit source path typeArgs session = unitWith unit source path typeArgs session := by
  refine unitWith_congr (within_steady_total _).1 (within_steady_total _).2 ?_
  intro source file typeArgs inner normal new text innerLoader innerChain
  have fewer := Loader.length_waiting_lt normal new (loader ▸ text)
  rw [← innerChain] at fewer
  have texts := length_waiting_le_size loader
  have innerTexts := length_waiting_le_size (innerLoader.trans loader)
  exact within_eq_within (innerLoader.trans loader) (by omega) (by omega)

end Build

end FrontEnd
