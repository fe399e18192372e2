import FrontEnd.Proofs.Checking.Arising
import FrontEnd.Proofs.Imports

namespace FrontEnd

theorem Scopes.mem_values_of_get? {α : Type} {s : Scopes α} {name : String} {value : α}
    (h : s.get? name = some value) : value ∈ s.values := by
  have all : s.All (· ∈ s.values) := fun name value bound =>
    List.mem_filterMap.mpr ⟨.binding name value, bound, rfl⟩
  exact all.get? h

namespace Environment

variable {e : Environment} {registry : List (String × Ty)} {t : Ty}

theorem mem_declared_of_type? {name : String} (h : e.type? registry name = some t) :
    t ∈ e.declared ++ registry.map (·.2) := by
  rw [declared_eq]
  obtain own | ⟨-, shared⟩ := Option.or_eq_some_iff.mp h
  · simp [Scopes.mem_values_of_get? own]
  · have mem := List.mem_map_of_mem (f := (·.2)) (Table.mem_of_lookup shared)
    exact List.mem_append_right _ mem

theorem mem_declared_of_module? {name : String} {m : Module} (found : e.module? name = some m)
    (h : t ∈ m.unit.env.declared ++ registry.map (·.2)) : t ∈ e.declared ++ registry.map (·.2) := by
  have inside : ∀ modules : List (String × Module), (name, m) ∈ modules →
      m.unit.env.declared ⊆ Module.declaredIn modules := by
    intro modules mem
    induction modules with
    | nil => exact absurd mem (by simp)
    | cons p modules ih =>
      obtain ⟨_, ⟨_, _, ⟨_, env⟩⟩⟩ := p
      obtain eq | mem := List.mem_cons.mp mem
      · obtain ⟨rfl, rfl⟩ := Prod.mk.inj eq
        exact List.subset_append_left _ _
      · exact List.Subset.trans (ih mem) (List.subset_append_right _ _)
  rw [declared_eq e]
  obtain inner | shared := List.mem_append.mp h
  · exact List.mem_append_left _
      (List.mem_append_right _ (inside _ (Table.mem_of_lookup found) inner))
  · exact List.mem_append_right _ shared

theorem mem_declared_of_typeThrough? {name : String} {modules : List String}
    (h : typeThrough? registry name modules e = some t) : t ∈ e.declared ++ registry.map (·.2) := by
  induction modules generalizing e with
  | nil => exact mem_declared_of_type? h
  | cons module modules ih =>
    simp only [typeThrough?] at h
    split at h
    case h_1 m found => exact mem_declared_of_module? found (ih h)
    case h_2 => exact absurd h (by simp)

/-- What a reference stands for is declared in the unit, in one of its modules, or at the top of
some unit. -/
theorem mem_declared_of_lookup {ref : TypeRef} (h : e.lookup registry ref = some t) :
    t ∈ e.declared ++ registry.map (·.2) := by
  unfold lookup at h
  split at h
  case h_1 => exact mem_declared_of_type? h
  case h_2 =>
    split at h
    case h_1 m found => exact mem_declared_of_module? found (mem_declared_of_typeThrough? h)
    case h_2 => exact absurd h (by simp)

end Environment

theorem Environment.Recorded.holds {e : Environment} (h : e.Recorded) :
    e.Holds fun t => ∃ decl, t = .record decl := by
  induction h with
  | intro types _ ih => exact .intro (fun _ _ found => types.get? found) ih

namespace CheckState

variable {s : CheckState}

theorem recorded_resolver (h : s.tables.Recorded) : s.resolver.Recorded where
  hops := rfl
  lookup := (Environment.Recorded.intro h.types h.modules).holds.lookup h.registry

/-- Following the names of types comes to an end, with the values that checking computes and no
others: unwrapping a type, resolving it, comparing it with another, and searching it for a value of
a record. -/
structure FollowingEnds (s : CheckState) : Prop where
  unwrap : ∀ t u, s.resolver.Unwraps t u ↔ u = s.resolver.unwrap t
  resolve : ∀ t u, s.resolver.Resolves t u ↔ u = s.resolver.resolve t
  equals : ∀ a b v, s.resolver.Compares a b v ↔ v = a.equals s.resolver b
  stores : ∀ owner t, ∃ seen, ∀ v, s.resolver.Stores owner t [] v ↔ v = (s.stores owner t, seen)

theorem followingEnds (h : s.tables.Recorded) : s.FollowingEnds where
  unwrap _ _ := (recorded_resolver h).unwraps_iff
  resolve _ _ := (recorded_resolver h).resolves_iff
  equals _ _ _ := (recorded_resolver h).compares_iff
  stores owner _ :=
    ⟨_, fun _ => (recorded_resolver h).stores_iff owner Environment.mem_declared_of_lookup⟩

end CheckState

namespace Build

variable {config : Config} {files : List (String × String)} {session : Session}

theorem unit_steady : Importer.Steady unit := fun source path typeArgs session =>
  (within_steady_total (session.loader.size + 1)).1 source path typeArgs session

theorem arises_begin? (arises : session.Arises config files) (path : Path) :
    ((session.begin? path).getD session).Arises config files := by
  cases begins : session.begin? path with
  | none => exact arises
  | some inner => exact arises.begun begins

/-- Builds end. Importers below the depth of the number of files are never asked, every unit is read
and checked to a result, which leaves a session for further builds, and every expression is checked
in states in which following names ends. -/
theorem builds_end (arises : session.Arises config files) (source : String) (path : Path)
    (typeArgs : List Ty) :
    (∀ (imp₀ : Importer) (n : Nat), files.length < n →
      unitWith^[n] imp₀ source path typeArgs session = unit source path typeArgs session) ∧
    unit source path typeArgs session = unitWith unit source path typeArgs session ∧
    (∃ r session', unit source path typeArgs session = .ok (r, session') ∧
      session'.Arises config files) ∧
    (∃ r session', file source path session = .ok (r, session') ∧
      session'.Arises config files) ∧
    (∃ xs s, Checks unit (fun _ s _ s' => s.Arises config files ∧ s'.Arises config files)
      (.top (reading source path typeArgs session).program.statements)
      (begun source path typeArgs session) xs s ∧ s.Arises config files) ∧
    ∀ s : CheckState, s.Arises config files → s.FollowingEnds := by
  refine ⟨fun imp₀ n hn => iterate_unitWith_eq_unit imp₀ arises.loader hn,
    unit_eq_unitWith arises.loader, ?_, ?_, ?_, fun s hs => CheckState.followingEnds hs.recorded⟩
  · obtain ⟨⟨r, session'⟩, built⟩ := unit_total source path typeArgs session
    exact ⟨r, session', built, (unit_arising _ _ _ _ _ _ arises built).1⟩
  · obtain ⟨⟨r, session'⟩, built⟩ := unit_total source path.normalize []
      ((session.begin? path.normalize).getD session)
    have inner := (unit_arising _ _ _ _ _ _ (arises_begin? arises _) built).1
    exact ⟨r, _, file_eq_ok.mpr ⟨session', built, rfl⟩, inner.finished _⟩
  · have ok : Lawful unit fun _ _ _ _ => True :=
      ⟨unit_steady, unit_total, fun _ _ _ _ _ => trivial⟩
    obtain ⟨xs, s, derived⟩ := total_top ok
      (reading source path typeArgs session).program.statements
      (begun source path typeArgs session)
    exact ⟨xs, s, derived.carry unit_steady unit_arising.invariant (fun _ => Item.named_true _)
      (arises.numbered _)⟩

/-- Two files that import each other under different spellings, one of them with a record that
stores itself: three levels are enough, whatever would be asked below them, and both are
reported. -/
theorem builds_end_cycle :
    let files := [("lib/a.cd", "import b, \"../lib/./b.cd\""),
      ("lib/b.cd", "import a, \"a.cd\" struct Node \x7b next Node \x7d")]
    let session := Session.start .default (.ofFiles files)
    session.Arises .default files ∧
      unitWith^[3] (fun _ _ _ _ => .error .noOpenLoop) "import a, \"lib//a.cd\"" ⟨"main.cd"⟩ []
        session = unit "import a, \"lib//a.cd\"" ⟨"main.cd"⟩ [] session ∧
      (match unit "import a, \"lib//a.cd\"" ⟨"main.cd"⟩ [] session with
        | .ok (.error ds, _) => ds.map (·.cause)
        | _ => []) =
        [.check (.importFailed "lib//a.cd" 3), .check (.importFailed "../lib/./b.cd" 2),
          .check (.importCycle "lib/a.cd -> lib/b.cd -> lib/a.cd"),
          .check (.recursiveType "Node")] :=
  ⟨.start, (builds_end .start _ _ _).1 _ 3 (by decide), by decide +kernel⟩

end Build

end FrontEnd
