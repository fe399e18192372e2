import FrontEnd.Proofs.Checking.Arising
import FrontEnd.Proofs.Reading.Own
import FrontEnd.Proofs.Renaming.Shift

namespace FrontEnd

/-- A name that is qualified by the id of a unit, as `p` says of the id. -/
def Name.Numbered (p : Nat → Prop) (name : String) : Prop :=
  ∃ v n, p n ∧ name = v ++ "-" ++ toString n

namespace Name.Numbered

variable {p q : Nat → Prop} {name : String}

theorem mono (h : Numbered p name) (weaker : ∀ n, p n → q n) : Numbered q name := by
  obtain ⟨v, n, hn, rfl⟩ := h
  exact ⟨v, n, weaker n hn, rfl⟩

theorem meet (h : Numbered p name) (h' : Numbered q name) : ∃ n, p n ∧ q n := by
  obtain ⟨v, n, hn, rfl⟩ := h
  obtain ⟨v', n', hn', same⟩ := h'
  obtain rfl := Name.number_unique same
  exact ⟨n, hn, hn'⟩

theorem ne_main (h : Numbered p name) : name ≠ "main" := by
  obtain ⟨v, n, _, rfl⟩ := h
  intro same
  have dash : '-' ∈ (v ++ "-" ++ toString n).toList := by simp
  rw [same] at dash
  exact absurd dash (by decide)

theorem of_own {n : Nat} (h : Name.Own (toString n) name) (other : name ≠ "main") :
    Numbered (· = n) name := by
  obtain ⟨v, rfl⟩ := h
  refine ⟨v, n, rfl, ?_⟩
  rw [Name.qualify] at other ⊢
  split at other
  case isTrue main => exact absurd main other
  case isFalse notMain => rw [if_neg notMain]

end Name.Numbered

namespace Table

variable {α : Type} {t : List (String × α)} {key : String} {value : α}

theorem lookup_insert_self : (insert t key value).lookup key = some value := by
  simp [insert]

theorem lookup_insert_of_ne {other : String} (ne : other ≠ key) :
    (insert t key value).lookup other = t.lookup other := by
  rw [insert, List.lookup_cons, beq_false_of_ne ne]
  induction t with
  | nil => rfl
  | cons p t ih =>
    obtain ⟨k, v⟩ := p
    by_cases same : k = key
    · have skipped : other ≠ k := fun h => ne (h.trans same)
      rw [List.filter_cons_of_neg (by simpa using same), ih, List.lookup_cons,
        beq_false_of_ne skipped]
    · rw [List.filter_cons_of_pos (by simpa using same), List.lookup_cons, List.lookup_cons, ← ih]

end Table

namespace Scopes

variable {α : Type} {a b : Scopes α}

def bottom : List (Entry α) → List (Entry α)
  | [] => []
  | .frame :: es => bottom es
  | .binding name value :: es => if frames es = 0 then .binding name value :: es else bottom es

def outermost (s : Scopes α) : Scopes α :=
  ⟨bottom s.entries⟩

theorem outermost_of_closed (closed : a.depth = 0) : a.outermost = a := by
  obtain ⟨es⟩ := a
  cases es with
  | nil => rfl
  | cons e es =>
    cases e with
    | frame => exact absurd closed (Nat.succ_ne_zero _)
    | binding name value => exact congrArg Scopes.mk (if_pos closed)

theorem outermost_add_of_open (inner : a.depth ≠ 0) (name : String) (value : α) :
    (a.add name value).outermost = a.outermost :=
  congrArg Scopes.mk (if_neg inner)

theorem Extends.outermost_eq (h : a.enter.Extends b) : b.outermost = a.outermost := by
  obtain ⟨bs, entries⟩ := h
  obtain ⟨es⟩ := b
  dsimp only at entries
  subst entries
  induction bs with
  | nil => rfl
  | cons p bs ih =>
    have extends' : a.enter.Extends ⟨bs.map (fun p => .binding p.1 p.2) ++ a.enter.entries⟩ :=
      ⟨bs, rfl⟩
    have inner := extends'.depth_eq ▸ a.depth_enter_ne_zero
    exact (outermost_add_of_open inner p.1 p.2).trans ih

end Scopes

/-- Every type is registered under `main` or under a name of a unit that has an id. -/
def Session.Numbered (s : Session) : Prop :=
  ∀ p ∈ s.registry, p.1 = "main" ∨ Name.Numbered (· < s.nextId) p.1

/-- The units with ids in the first session find all types where they were. -/
structure Session.Extends (s s' : Session) : Prop where
  nextId : s.nextId ≤ s'.nextId
  lookup : ∀ {name}, Name.Numbered (· < s.nextId) name →
    s'.registry.lookup name = s.registry.lookup name

namespace Session

variable {s s' s'' : Session}

theorem Extends.trans (h : s.Extends s') (h' : s'.Extends s'') : s.Extends s'' where
  nextId := Nat.le_trans h.nextId h'.nextId
  lookup := fun numbered => (h'.lookup
    (numbered.mono fun _ lt => Nat.lt_of_lt_of_le lt h.nextId)).trans (h.lookup numbered)

theorem Extends.of_registry (registry : s'.registry = s.registry) (nextId : s.nextId ≤ s'.nextId) :
    s.Extends s' :=
  ⟨nextId, fun _ => by rw [registry]⟩

theorem Numbered.of_registry (h : s.Numbered) (registry : s'.registry = s.registry)
    (nextId : s.nextId ≤ s'.nextId) : s'.Numbered := by
  intro p mem
  rw [registry] at mem
  exact (h p mem).imp_right fun numbered =>
    numbered.mono fun _ lt => Nat.lt_of_lt_of_le lt nextId

theorem Numbered.of_lookup (h : s.Numbered) {name : String} {t : Ty} (other : name ≠ "main")
    (known : s.registry.lookup name = some t) : Name.Numbered (· < s.nextId) name :=
  (h _ (Table.mem_of_lookup known)).resolve_left other

theorem numbered_begin? (h : s.Numbered) {file : Path} (begins : s.begin? file = some s') :
    s'.Numbered ∧ s.Extends s' := by
  obtain rfl := begin?_eq_some begins
  exact ⟨h, .of_registry rfl (Nat.le_refl _)⟩

theorem Extends.finish (h : s.Extends s') (file : Path) : s.Extends (s'.finish file) :=
  ⟨h.nextId, h.lookup⟩

theorem Numbered.finish (h : s.Numbered) (file : Path) : (s.finish file).Numbered :=
  h

theorem Extends.lookup_some (h : s.Extends s') (numbered : s.Numbered) {name : String} {t : Ty}
    (other : name ≠ "main") (known : s.registry.lookup name = some t) :
    s'.registry.lookup name = some t := by
  rw [h.lookup (numbered.of_lookup other known)]
  exact known

end Session

/-- The types of a unit and of its modules, whose ids begin with `first`, are registered. -/
inductive Environment.Registered (first : Nat) (registry : List (String × Ty)) : Environment → Prop
  | intro {e : Environment}
      (types : ∀ {name t}, name ≠ "main" → e.types.get? name = some t →
        registry.lookup name = some t ∧ Name.Numbered (first ≤ ·) name)
      (modules : ∀ p ∈ e.modules, Registered first registry p.2.unit.env) :
      Registered first registry e

theorem Environment.Registered.mono {first first' : Nat} {registry registry' : List (String × Ty)}
    {e : Environment} (h : e.Registered first registry) (le : first' ≤ first)
    (kept : ∀ {name t}, name ≠ "main" → Name.Numbered (first ≤ ·) name →
      registry.lookup name = some t → registry'.lookup name = some t) :
    e.Registered first' registry' := by
  induction h with
  | intro types modules ih =>
    refine .intro (fun other found => ?_) ih
    obtain ⟨known, numbered⟩ := types other found
    exact ⟨kept other numbered known, numbered.mono fun _ => Nat.le_trans le⟩

/-- The tables of a unit that took the next id of the session `start`. -/
structure Tables.Registered (start : Session) (t : Tables) : Prop where
  numbered : t.session.Numbered
  begun : start.nextId < t.session.nextId
  extended : start.Extends t.session
  types : ∀ {name u}, name ≠ "main" → t.types.outermost.get? name = some u →
    t.session.registry.lookup name = some u ∧ Name.Numbered (· = start.nextId) name
  modules : ∀ p ∈ t.modules, p.2.unit.env.Registered (start.nextId + 1) t.session.registry

namespace Tables.Registered

variable {start : Session} {t : Tables}

theorem withSession (h : t.Registered start) {s : Session} (numbered : s.Numbered)
    (extended : t.session.Extends s) : Tables.Registered start { t with session := s } where
  numbered := numbered
  begun := Nat.lt_of_lt_of_le h.begun extended.nextId
  extended := h.extended.trans extended
  types := fun other found =>
    (h.types other found).imp_left (extended.lookup_some h.numbered other)
  modules := fun p mem => (h.modules p mem).mono (Nat.le_refl _) fun other _ =>
    extended.lookup_some h.numbered other

theorem withModule (h : t.Registered start) (name : String) (file : Path) {unit : CheckedUnit}
    (registered : unit.env.Registered (start.nextId + 1) t.session.registry) :
    Tables.Registered start
      { t with modules := Table.insert t.modules name ⟨name, file, unit⟩ } where
  numbered := h.numbered
  begun := h.begun
  extended := h.extended
  types := h.types
  modules := Table.forall_insert h.modules registered

theorem addInside (h : t.Registered start) (inner : t.types.depth ≠ 0) (name : String) (u : Ty) :
    Tables.Registered start { t with types := t.types.add name u } where
  numbered := h.numbered
  begun := h.begun
  extended := h.extended
  types := by
    intro name' u' other found
    rw [Scopes.outermost_add_of_open inner] at found
    exact h.types other found
  modules := h.modules

theorem addOutside (h : t.Registered start) (closed : t.types.depth = 0) {name : String}
    (own : Name.Own (toString start.nextId) name) (u : Ty) :
    Tables.Registered start
      { t with types := t.types.add name u, session := t.session.register name u } := by
  have mine : name ≠ "main" → Name.Numbered (· = start.nextId) name := .of_own own
  -- What other units have registered is not under this name.
  have kept {name' : String} {p : Nat → Prop} (numbered : Name.Numbered p name')
      (others : ∀ n, p n → n ≠ start.nextId) :
      (t.session.register name u).registry.lookup name' = t.session.registry.lookup name' := by
    refine Table.lookup_insert_of_ne ?_
    rintro rfl
    obtain ⟨n, hn, same⟩ := numbered.meet (mine numbered.ne_main)
    exact others n hn same
  refine ⟨?_, h.begun, ⟨h.extended.nextId, ?_⟩, ?_, ?_⟩
  · refine Table.forall_insert h.numbered ?_
    by_cases main : name = "main"
    · exact .inl main
    · exact .inr ((mine main).mono fun n same => same ▸ h.begun)
  · intro name' numbered
    rw [kept numbered fun _ => Nat.ne_of_lt]
    exact h.extended.lookup numbered
  · intro name' u' other found
    rw [Scopes.outermost_of_closed (show (t.types.add name u).depth = 0 from closed),
      Scopes.get?_add] at found
    split at found
    case isTrue same =>
      obtain rfl := Option.some.inj found
      exact same ▸ ⟨Table.lookup_insert_self, mine (same ▸ other)⟩
    case isFalse ne =>
      rw [← Scopes.outermost_of_closed closed] at found
      obtain ⟨known, numbered⟩ := h.types other found
      exact ⟨(Table.lookup_insert_of_ne fun same => ne same.symm).trans known, numbered⟩
  · intro p mem
    refine (h.modules p mem).mono (Nat.le_refl _) fun _ numbered known => ?_
    rw [kept numbered fun n lt => Nat.ne_of_gt lt]
    exact known

end Tables.Registered

open Build Check CheckState

def Importer.Registers (imp : Importer) : Prop :=
  ∀ source path typeArgs session r session', session.Numbered →
    imp source path typeArgs session = .ok (r, session') →
      session'.Numbered ∧ session.Extends session' ∧
        ∀ unit, r = .ok unit → unit.env.Registered session.nextId session'.registry

namespace Importer.Registers

variable {imp : Importer}

theorem imports (registers : imp.Registers) {start : Session} {token : Token} {name : String}
    {typeArgs : List Ty} {path : String} {s s' : CheckState} (hs : s.tables.Registered start)
    (h : Imports imp token name typeArgs path s s') : s'.tables.Registered start := by
  have call {session session' : Session} {source : String}
      {r : Except (List Diagnostic) CheckedUnit}
      (begins : s.session.begin? (importedFile s path) = some session)
      (checked : imp source (importedFile s path) typeArgs session = .ok (r, session')) :
      Tables.Registered start { s.tables with session := session'.finish (importedFile s path) } ∧
        ∀ unit, r = .ok unit → unit.env.Registered (start.nextId + 1) session'.registry := by
    obtain ⟨begun, extends₁⟩ := Session.numbered_begin? hs.numbered begins
    obtain ⟨numbered, extends₂, accepted⟩ := registers _ _ _ _ _ _ begun checked
    refine ⟨hs.withSession (numbered.finish _) ((extends₁.trans extends₂).finish _), ?_⟩
    intro unit same
    exact (accepted unit same).mono (Nat.le_trans hs.begun extends₁.nextId) fun _ _ known => known
  cases h with
  | cycle _ =>
    rw [tables_note]
    exact hs
  | unavailable begins _ =>
    obtain ⟨begun, extended⟩ := Session.numbered_begin? hs.numbered begins
    rw [tables_note]
    exact hs.withSession (begun.finish _) (extended.finish _)
  | failed begins _ checked =>
    rw [tables_foldl_note, tables_note]
    exact (call begins checked).1
  | loaded begins _ checked =>
    obtain ⟨registered, accepted⟩ := call begins checked
    exact registered.withModule name (importedFile s path) (accepted _ rfl)

theorem invariant (registers : imp.Registers) (start : Session) :
    Invariant imp imp (Name.Own (toString start.nextId)) (Tables.Registered start) where
  enter hs := ⟨hs.numbered, hs.begun, hs.extended, hs.types, hs.modules⟩
  leave inside hs _ := by
    refine ⟨hs.numbered, hs.begun, hs.extended, fun other found => ?_, hs.modules⟩
    exact hs.types other (inside.2.outermost_eq ▸ found)
  define {s} decl named hs := by
    by_cases closed : s.env.types.depth = 0
    · have defined : (s.define decl.name (.record decl)).tables =
          { s.tables with
            types := s.env.types.add decl.name (.record decl)
            session := s.session.register decl.name (.record decl) } := by
        simp [tables, CheckState.define, closed]
      rw [defined]
      exact hs.addOutside closed (named closed) (.record decl)
    · have defined : (s.define decl.name (.record decl)).tables =
          { s.tables with types := s.env.types.add decl.name (.record decl) } := by
        simp [tables, CheckState.define, closed]
      rw [defined]
      exact hs.addInside closed decl.name (.record decl)
  imports hs h := ⟨h, registers.imports hs h⟩

end Importer.Registers

section

variable (source : String) (path : Path) (typeArgs : List Ty) (session : Session)

theorem Build.lt_nextId_reading : session.nextId < (reading source path typeArgs session).nextId :=
  Program.nextId_read (.ofSource source path.text)
    ⟨toString session.nextId, typeArgs, session.nextId + 1, session.config.maxParseErrors⟩

theorem Build.id_reading :
    (reading source path typeArgs session).program.id = toString session.nextId :=
  Program.id_read (.ofSource source path.text) _

theorem Build.named_reading :
    (Item.top (reading source path typeArgs session).program.statements).Named
      (Name.Own (toString session.nextId)) :=
  Program.own_read (.ofSource source path.text) _

variable {source : String} {path : Path} {typeArgs : List Ty} {session : Session}

theorem Build.registered_begun (numbered : session.Numbered) :
    (begun source path typeArgs session).tables.Registered session where
  numbered := numbered.of_registry rfl (Nat.le_of_lt (lt_nextId_reading ..))
  begun := lt_nextId_reading ..
  extended := .of_registry rfl (Nat.le_of_lt (lt_nextId_reading ..))
  types := by
    intro name u other found
    cases found
  modules := by
    intro p mem
    cases mem

variable {imp : Importer}

theorem Importer.Registers.ends (registers : imp.Registers) (steady : imp.Steady)
    (total : imp.Total) (numbered : session.Numbered) {xs : List Stmt} {s : CheckState}
    (checked : Runs imp (topLevel (reading source path typeArgs session).program.statements)
      (begun source path typeArgs session) xs s) :
    s.tables.Registered session ∧ s.env.types.depth = 0 := by
  have ok := Lawful.any steady total
  have derived := Checks.of_runs ok checked
  have grown : Grows _ _ := derived.change steady
  have carried := derived.carry steady (registers.invariant session)
    (fun _ => named_reading source path typeArgs session) (registered_begun numbered)
  exact ⟨carried.2, grown.types.depth_eq⟩

theorem Importer.Registers.unitWith (registers : imp.Registers) (steady : imp.Steady)
    (total : imp.Total) : Importer.Registers (unitWith imp) := by
  intro source path typeArgs session r session' numbered built
  cases unitWith_eq_ok.mp built with
  | unreadable _ =>
    have later := Nat.le_of_lt (lt_nextId_reading source path typeArgs session)
    exact ⟨numbered.of_registry rfl later, .of_registry rfl later, nofun⟩
  | rejected _ checked _ =>
    obtain ⟨registered, _⟩ := registers.ends steady total numbered checked
    exact ⟨registered.numbered, registered.extended, nofun⟩
  | accepted _ checked _ =>
    obtain ⟨registered, closed⟩ := registers.ends steady total numbered checked
    refine ⟨registered.numbered, registered.extended, fun unit same => ?_⟩
    obtain rfl := Except.ok.inj same
    refine .intro (fun other found => ?_) fun p mem =>
      (registered.modules p mem).mono (Nat.le_succ _) fun _ _ known => known
    rw [← Scopes.outermost_of_closed closed] at found
    exact (registered.types other found).imp_right fun mine =>
      mine.mono fun _ same => Nat.le_of_eq same.symm

end

namespace Build

theorem within_registers (n : Nat) : Importer.Registers (within n) := by
  induction n with
  | zero =>
    intro _ _ _ session _ _ numbered built
    cases built
    exact ⟨numbered, .of_registry rfl (Nat.le_refl _), nofun⟩
  | succ n ih => exact ih.unitWith (within_steady_total n).1 (within_steady_total n).2

theorem unit_registers : Importer.Registers unit :=
  fun source path typeArgs session => within_registers _ source path typeArgs session

theorem file_registers {source : String} {path : Path} {session session' : Session}
    {r : Except (List Diagnostic) CheckedUnit} (numbered : session.Numbered)
    (built : file source path session = .ok (r, session')) :
    session'.Numbered ∧ session.Extends session' ∧
      ∀ unit, r = .ok unit → unit.env.Registered session.nextId session'.registry := by
  obtain ⟨inner, checked, rfl⟩ := file_eq_ok.mp built
  have begun : ((session.begin? path.normalize).getD session).Numbered ∧
      session.Extends ((session.begin? path.normalize).getD session) ∧
      ((session.begin? path.normalize).getD session).nextId = session.nextId := by
    cases begins : session.begin? path.normalize with
    | none => exact ⟨numbered, .of_registry rfl (Nat.le_refl _), rfl⟩
    | some begun =>
      obtain ⟨numbered, extended⟩ := Session.numbered_begin? numbered begins
      exact ⟨numbered, extended, by rw [Option.getD_some, Session.begin?_eq_some begins]⟩
  obtain ⟨ended, extended, accepted⟩ := unit_registers _ _ _ _ _ _ begun.1 checked
  rw [begun.2.2] at accepted
  exact ⟨ended.finish _, (begun.2.1.trans extended).finish _, accepted⟩

end Build

end FrontEnd
