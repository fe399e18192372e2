import FrontEnd.Proofs.Lockstep.Build
import FrontEnd.Proofs.Registry
import Mathlib.Logic.Relation

namespace FrontEnd

open Build

/-- Sessions in which files were built and units were checked, one after another. The list has the
units that were accepted. -/
inductive Session.Used (config : Config) (loader : Loader) : Session → List CheckedUnit → Prop
  | start : Used config loader (.start config loader) []
  | built {s s' units source path r} (before : Used config loader s units)
      (built : file source path s = .ok (r, s')) :
      Used config loader s' (r.toOption.toList ++ units)
  | checked {s s' units source path typeArgs r} (before : Used config loader s units)
      (checked : unit source path typeArgs s = .ok (r, s')) :
      Used config loader s' (r.toOption.toList ++ units)

/-- A session in which no file is being checked. -/
structure Session.Idle (config : Config) (loader : Loader) (s : Session) : Prop where
  config : s.config = config
  loader : s.loader = loader
  importing : s.importing = []

variable {config : Config} {loader : Loader}

theorem Build.idle_file {source : String} {path : Path} {s s' : Session}
    {r : Except (List Diagnostic) CheckedUnit} (idle : s.Idle config loader)
    (built : file source path s = .ok (r, s')) : s'.Idle config loader := by
  obtain ⟨inner, checked, rfl⟩ := file_eq_ok.mp built
  have begins : s.begin? path.normalize = some { s with importing := [path.normalize] } := by
    simp [Session.begin?, idle.importing]
  rw [begins, Option.getD_some] at checked
  have steady := unit_steady _ _ _ _ _ _ checked
  refine ⟨steady.1.trans idle.config, steady.2.1.trans idle.loader, ?_⟩
  have alone : inner.importing = [path.normalize] := steady.2.2
  simp [Session.finish, alone, Path.same_self]

namespace Session.Used

variable {s : Session} {units : List CheckedUnit}

theorem idle (h : Used config loader s units) : s.Idle config loader := by
  induction h with
  | start => exact ⟨rfl, rfl, rfl⟩
  | built _ built ih => exact idle_file ih built
  | checked _ checked ih =>
    have steady := unit_steady _ _ _ _ _ _ checked
    exact ⟨steady.1.trans ih.config, steady.2.1.trans ih.loader, steady.2.2.trans ih.importing⟩

theorem numbered (h : Used config loader s units) : s.Numbered := by
  induction h with
  | start => exact nofun
  | built _ built ih => exact (file_registers ih built).1
  | checked _ checked ih => exact (unit_registers _ _ _ _ _ _ ih checked).1

theorem registered_step {before after : Session} {r : Except (List Diagnostic) CheckedUnit}
    (numbered : before.Numbered) (extended : before.Extends after)
    (accepted : ∀ unit, r = .ok unit → unit.env.Registered before.nextId after.registry)
    (old : ∀ unit ∈ units, unit.env.Registered 0 before.registry) :
    ∀ unit ∈ r.toOption.toList ++ units, unit.env.Registered 0 after.registry := by
  intro unit mem
  obtain new | mem := List.mem_append.mp mem
  · have given : r = .ok unit := by
      cases r with
      | ok unit' => exact congrArg Except.ok (List.mem_singleton.mp new).symm
      | error ds => cases new
    exact (accepted unit given).mono (Nat.zero_le _) fun _ _ known => known
  · exact (old unit mem).mono (Nat.le_refl _) fun other _ => extended.lookup_some numbered other

theorem registered (h : Used config loader s units) {root unit : CheckedUnit} (mem : root ∈ units)
    (uses : Relation.ReflTransGen CheckedUnit.Uses root unit) :
    unit.env.Registered 0 s.registry := by
  have top : ∀ unit ∈ units, unit.env.Registered 0 s.registry := by
    clear uses mem
    induction h with
    | start => exact nofun
    | built before built ih =>
      obtain ⟨_, extended, accepted⟩ := file_registers before.numbered built
      exact registered_step before.numbered extended accepted ih
    | checked before checked ih =>
      obtain ⟨_, extended, accepted⟩ := unit_registers _ _ _ _ _ _ before.numbered checked
      exact registered_step before.numbered extended accepted ih
  induction uses with
  | refl => exact top root mem
  | tail _ last ih =>
    obtain ⟨p, mem, rfl⟩ := last
    cases ih with
    | intro _ modules => exact modules p mem

end Session.Used

def Reports.equal (limit : Option Nat) : Reports where
  first := limit
  second := limit
  same := Eq
  log := Eq
  given := Eq
  same_refl := fun _ => rfl
  log_nil := rfl
  log_recorded := by
    rintro d _ ds _ rfl rfl
    rfl
  log_empty := by
    rintro ds _ rfl
    rfl
  given_refl := fun _ => rfl
  given_log := id
  same_failed := by
    rintro ds _ rfl path position
    rfl
  log_given := by
    rintro ds _ ds' _ rfl rfl
    rfl

def Comparison.used (limit : Option Nat) {s : Session} (numbered : s.Numbered)
    (noMain : s.registered? "main" = none) : Comparison where
  names := .later s.nextId
  reports := .equal limit
  rest := s.registry
  unseen := by
    intro name
    cases known : s.registry.lookup ((Renaming.later s.nextId).name name) with
    | none => rfl
    | some t =>
      obtain main | ⟨v, n, earlier, same⟩ := numbered _ (Table.mem_of_lookup known)
      · exact absurd (known.symm.trans (main ▸ noMain)) (by simp)
      · exact absurd same (Renaming.later_name_ne earlier name v)

theorem Session.Idle.sessions {s : Session} (idle : s.Idle config loader) (numbered : s.Numbered)
    (noMain : s.registered? "main" = none) :
    (Comparison.used config.maxCheckErrors numbered noMain).Sessions (.start config loader) s where
  reading := congrArg Config.maxParseErrors idle.config
  first := rfl
  second := congrArg Config.maxCheckErrors idle.config
  loader := idle.loader
  nextId := (Nat.zero_add s.nextId).symm
  importing := idle.importing
  registry := rfl
  recorded := nofun

theorem Comparison.Results.eq_map {C : Comparison} {r r' : Except (List Diagnostic) CheckedUnit}
    (h : C.Results r r') (same : ∀ ds es, C.reports.given ds es → ds = es) :
    r' = r.map C.names.checkedUnit := by
  cases h with
  | failed given => exact congrArg Except.error (same _ _ given).symm
  | checked recorded => rfl

namespace Build

/-- After anything that was built, if no type `main` is registered, every build goes as in a fresh
session: it ends, with the same errors or with the same program, in which the ids of units and
records are renamed. -/
theorem builds_independent {used : Session} {units : List CheckedUnit}
    (h : Session.Used config loader used units) (noMain : used.registered? "main" = none) :
    ∃ ρ : Renaming, ∀ source path, ∃ r s s',
      file source path (.start config loader) = .ok (r, s) ∧
      file source path used = .ok (r.map ρ.checkedUnit, s') := by
  have sessions := h.idle.sessions h.numbered noMain
  refine ⟨.later used.nextId, fun source path => ?_⟩
  obtain ⟨⟨r, s⟩, fresh⟩ := file_total source path (.start config loader)
  obtain ⟨r', s', again, results, _⟩ := sessions.file fresh
  obtain rfl := results.eq_map fun _ _ same => same
  exact ⟨r, s, s', fresh, again⟩

/-- A build that fails and leaves a type behind, and another one. -/
theorem builds_independent_twice :
    let loader := Loader.ofFiles [("u.cd", "struct S \x7b p *S \x7d")]
    ∃ used units, Session.Used .default loader used units ∧
      used.registered? "main" = none ∧ (used.registered? "S-1").isSome ∧ used.nextId = 6 ∧
      ∃ ρ : Renaming, ∀ source path, ∃ r s s',
        file source path (.start .default loader) = .ok (r, s) ∧
        file source path used = .ok (r.map ρ.checkedUnit, s') := by
  intro loader
  let source := "import u, \"u.cd\"\nx := y"
  let source' := "import u, \"u.cd\"\nfunc f(s u.S) u.S \x7b return *s.p \x7d"
  have left : ((file source ⟨"a.cd"⟩ (.start .default loader) >>= fun x =>
      file source' ⟨"b.cd"⟩ x.2).map fun x => ((x.2.registered? "main").isNone,
        (x.2.registered? "S-1").isSome, x.2.nextId)) = .ok (true, true, 6) := by
    decide +kernel
  obtain ⟨⟨r, s⟩, first⟩ := file_total source ⟨"a.cd"⟩ (.start .default loader)
  obtain ⟨⟨r', used⟩, second⟩ := file_total source' ⟨"b.cd"⟩ s
  simp only [first, second, bind, Except.bind, Except.map, Except.ok.injEq, Prod.mk.injEq] at left
  have h := (Session.Used.start.built first).built second
  have noMain : used.registered? "main" = none := by simpa using left.1
  exact ⟨used, _, h, noMain, left.2.1, left.2.2, builds_independent h noMain⟩

end Build

end FrontEnd
