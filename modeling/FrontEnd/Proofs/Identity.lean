import Mathlib.Data.List.Induction
import Mathlib.Data.List.Pairwise
import Mathlib.Data.List.Sort
import FrontEnd.Proofs.Log.Known
import FrontEnd.Proofs.Log.Modules

namespace FrontEnd

open Build UnitRun

def Label.records : Label → List Record
  | .token _ => []
  | .type t | .inferred t => t.records
  | .record decl => (Ty.record decl).records
  | .signature sig => (Ty.func sig).records

/-- The records that occur in a tree, in the types that it names and in those that were found. -/
def Program.records (p : Program) : List Record :=
  (Stmt.labelsOf p.statements).flatMap Label.records

/-- A record occurs in the tree or in the tables of a unit, or in those of a module of it. -/
inductive CheckedUnit.Mentions (r : Record) : CheckedUnit → Prop
  | program {u : CheckedUnit} (mem : r ∈ u.program.records) : Mentions r u
  | bound {u : CheckedUnit} {name t} (bound : .binding name t ∈ u.env.vars.entries)
      (mem : r ∈ t.records) : Mentions r u
  | type {u : CheckedUnit} {name t} (bound : .binding name t ∈ u.env.types.entries)
      (mem : r ∈ t.records) : Mentions r u
  | function {u : CheckedUnit} {p} (defined : p ∈ u.env.functions)
      (mem : r ∈ p.2.toStmt.labels.flatMap Label.records) : Mentions r u
  | module {u : CheckedUnit} {p} (imported : p ∈ u.env.modules) (inner : Mentions r p.2.unit) :
      Mentions r u

/-- A record occurs in a session: in the tree of a unit as it was read, in a unit that was accepted,
or in the registry, in the end or when a unit was begun. -/
inductive Session.Mentions (s : Session) (log : List UnitRun) (r : Record) : Prop
  | read {u} (mem : u ∈ log) (occurs : r ∈ u.reading.program.records)
  | accepted {u c} (mem : u ∈ log) (accepted : u.result = .ok c) (occurs : c.Mentions r)
  | before {u p} (mem : u ∈ log) (registered : p ∈ u.session.registry) (occurs : r ∈ p.2.records)
  | registered {p} (registered : p ∈ s.registry) (occurs : r ∈ p.2.records)

/-- A record comes from a declaration, given by the places of the unit in the log and of the
declaration in the unit. -/
def Record.ComesFrom (log : List UnitRun) (r : Record) (i j : Nat) : Prop :=
  ∃ u decl, log[i]? = some u ∧ u.declared[j]? = some decl ∧ r.From decl

inductive Session.History (config : Config) (loader : Loader) :
    List (String × Path) → List UnitRun → Session → Prop
  | start : History config loader [] [] (.start config loader)
  | call {calls log s source path inner r s'} (before : History config loader calls log s)
      (built : file source path s = .ok (r, s')) (logged : FileLogs source path s inner r s') :
      History config loader (calls ++ [(source, path)]) (log ++ inner) s'

/-- The ids of a session, its units and its records. -/
structure Session.Identity (s : Session) (log : List UnitRun) : Prop where
  /-- The units hand out all ids, one after another. -/
  ids : log.flatMap UnitRun.ids = List.range s.nextId
  program : ∀ u ∈ log, u.reading.program.id = toString u.session.nextId ∧
    ∀ c, u.result = .ok c → c.program.id = toString u.session.nextId
  /-- The first id is the unit's own, and others are those of its records. -/
  handed : ∀ u ∈ log, (u.session.nextId :: u.declared.map Record.id).Sublist u.ids
  different : (log.flatMap fun u => u.session.nextId :: u.declared.map Record.id).Nodup
  origin : ∀ r, s.Mentions log r → ∃ i j, r.ComesFrom log i j
  same : ∀ (r r' : Record) (i j i' j' : Nat), r.ComesFrom log i j → r'.ComesFrom log i' j' →
    r.id = r'.id → i = i' ∧ j = j'
  apart : log.Pairwise fun u v => List.Disjoint u.ids v.ids
  /-- Each import is a unit of its own. -/
  modules : ∀ u ∈ log, ∀ c, u.result = .ok c → c.env.modules.Pairwise fun p q =>
    ∃ v ∈ log, ∃ w ∈ log, v.result = .ok p.2.unit ∧ w.result = .ok q.2.unit ∧
      List.Disjoint v.ids w.ids
  /-- The entries that a unit changes are those of its declarations, which no other unit has. -/
  keys : ∀ u ∈ log, ∀ k ∈ u.changes, k ∈ u.names
  names : log.Pairwise fun u v => ∀ k ∈ u.names, k ∈ v.names → k = "main"

theorem Session.exists_history (config : Config) (loader : Loader) (calls : List (String × Path)) :
    ∃ log s, History config loader calls log s := by
  induction calls using List.reverseRecOn with
  | nil => exact ⟨[], _, .start⟩
  | append_singleton calls call ih =>
    obtain ⟨log, s, before⟩ := ih
    obtain ⟨⟨r, inner⟩, checked⟩ := unit_total call.1 call.2.normalize []
      ((s.begin? call.2.normalize).getD s)
    have built := file_eq_ok.mpr ⟨inner, checked, rfl⟩
    obtain ⟨units, logged⟩ := file_eq_ok_iff_logs.mp built
    exact ⟨log ++ units, _, before.call built logged⟩

section Known

variable {log : List UnitRun} {s : Session} {r : Record}

theorem Sources.Has.records {S : Sources} {ls : List Label} (h : S.Has ls)
    (mem : r ∈ ls.flatMap Label.records) : S.record r := by
  obtain ⟨l, hl, mem⟩ := List.mem_flatMap.mp mem
  have holds := h l hl
  cases l with
  | token t => exact nomatch mem
  | type t | inferred t => exact holds r mem
  | record decl => exact holds r mem
  | signature sig => exact holds r mem

theorem Sources.Unit.mentions {S : Sources} {u : CheckedUnit} (h : S.Unit u)
    (mentions : u.Mentions r) : S.record r := by
  induction mentions with
  | program mem => exact h.program.records mem
  | bound bound mem => exact h.env.vars _ _ bound r mem
  | type bound mem => exact h.env.types _ _ bound r mem
  | function defined mem => exact (h.env.functions _ defined).records mem
  | module imported _ ih => exact ih (h.env.module imported)

theorem Account.mentions {start : Session} (h : Account False log start log s)
    (mentions : s.Mentions log r) : (known False log).record r := by
  cases mentions with
  | read mem occurs => exact (h.units _ mem).program.records occurs
  | accepted mem accepted occurs =>
    have unit : (known False log).Outcome (.ok _) := accepted ▸ (h.units _ mem).result
    exact Sources.Unit.mentions unit occurs
  | before mem registered occurs => exact (h.units _ mem).registry _ registered r occurs
  | registered registered occurs => exact h.registry _ registered r occurs

end Known

section Account

variable {all log : List UnitRun} {source : String} {path : Path} {s s' : Session}
  {r : Except (List Diagnostic) CheckedUnit} {config : Config} {loader : Loader}
  {calls : List (String × Path)}

theorem Build.FileLogs.account (logged : FileLogs source path s log r s') (sub : log ⊆ all)
    (registry : ∀ p ∈ s.registry, p.2.Of (known False all).record) :
    Account False all s log s' := by
  obtain ⟨inner, logged, rfl⟩ := logged
  cases begins : s.begin? path.normalize with
  | none =>
    rw [begins] at logged
    have account := (Logs.sound logged sub nofun registry).2
    exact ⟨account.registry, account.units, account.le, account.ids⟩
  | some begun =>
    rw [begins, Session.begin?_eq_some begins] at logged
    have account := (Logs.sound logged sub nofun registry).2
    exact ⟨account.registry, account.units, account.le, account.ids⟩

namespace Session.History

theorem account (h : History config loader calls log s) (sub : log ⊆ all) :
    Account False all (.start config loader) log s := by
  induction h with
  | start => exact .of_nextId nofun rfl
  | call _ _ logged ih =>
    rw [List.append_subset] at sub
    have before := ih sub.1
    exact before.trans (logged.account sub.2 before.registry)

theorem modules (h : History config loader calls log s) :
    ∀ u ∈ log, ∀ c, u.result = .ok c → c.env.modules.Pairwise Module.Apart := by
  induction h with
  | start => exact nofun
  | call _ _ logged ih =>
    obtain ⟨inner, logged, _⟩ := logged
    exact List.forall_mem_append.mpr ⟨ih, logged.apart⟩

end Session.History

end Account

namespace UnitRun

theorem handed_sublist (u : UnitRun) :
    (u.session.nextId :: u.declared.map Record.id).Sublist u.ids := by
  have later : u.session.nextId < u.reading.nextId := lt_nextId_reading ..
  have increasing : (u.session.nextId :: u.declared.map Record.id).Pairwise (· < ·) := by
    refine List.pairwise_cons.mpr ⟨fun id mem => ?_, List.pairwise_map.mpr u.handed.increasing⟩
    obtain ⟨decl, hd, rfl⟩ := List.mem_map.mp mem
    exact (u.handed.inside decl hd).1
  have inside : u.session.nextId :: u.declared.map Record.id ⊆ u.ids := by
    intro id mem
    rw [UnitRun.ids, List.mem_range'_1]
    obtain rfl | mem := List.mem_cons.mp mem
    · omega
    · obtain ⟨decl, hd, rfl⟩ := List.mem_map.mp mem
      have bounds := u.handed.inside decl hd
      omega
  have distinct : (u.session.nextId :: u.declared.map Record.id).Nodup :=
    increasing.imp fun lt => lt.ne
  refine List.sublist_of_subperm_of_pairwise (r := (· ≤ ·)) (List.subperm_of_subset distinct inside)
    (increasing.imp fun lt => lt.le) ?_
  exact List.pairwise_le_range'

theorem nextId_mem_ids (u : UnitRun) : u.session.nextId ∈ u.ids :=
  u.handed_sublist.subset List.mem_cons_self

theorem id_mem_ids {u : UnitRun} {decl : Record} (declared : decl ∈ u.declared) : decl.id ∈ u.ids :=
  u.handed_sublist.subset (List.mem_cons_of_mem _ (List.mem_map_of_mem declared))

theorem names_disjoint {u v : UnitRun} (disjoint : List.Disjoint u.ids v.ids) {k : String}
    (hu : k ∈ u.names) (hv : k ∈ v.names) : k = "main" := by
  by_contra other
  obtain ⟨decl, hd, rfl⟩ := List.mem_map.mp hu
  obtain ⟨decl', hd', same⟩ := List.mem_map.mp hv
  have own := u.handed.own decl hd
  have own' := v.handed.own decl' hd'
  rw [same] at own'
  obtain ⟨n, rfl, equal⟩ := (Name.Numbered.of_own own other).meet (.of_own own' other)
  exact disjoint u.nextId_mem_ids (equal ▸ v.nextId_mem_ids)

end UnitRun

theorem index_eq_of_pairwise {α : Type} {R : α → α → Prop} {l : List α} (h : l.Pairwise R)
    {i j : Nat} {a b : α} (hi : l[i]? = some a) (hj : l[j]? = some b) (one : ¬ R a b)
    (other : ¬ R b a) : i = j := by
  obtain ⟨_, rfl⟩ := List.getElem?_eq_some_iff.mp hi
  obtain ⟨_, rfl⟩ := List.getElem?_eq_some_iff.mp hj
  obtain lt | same | gt := Nat.lt_trichotomy i j
  · exact absurd (List.pairwise_iff_getElem.mp h i j _ _ lt) one
  · exact same
  · exact absurd (List.pairwise_iff_getElem.mp h j i _ _ gt) other

theorem Record.ComesFrom.unique {log : List UnitRun} {r r' : Record} {i j i' j' : Nat}
    (apart : log.Pairwise fun u v => List.Disjoint u.ids v.ids) (h : r.ComesFrom log i j)
    (h' : r'.ComesFrom log i' j') (same : r.id = r'.id) : i = i' ∧ j = j' := by
  obtain ⟨u, decl, hu, hd, source⟩ := h
  obtain ⟨u', decl', hu', hd', source'⟩ := h'
  have id : decl.id = decl'.id := source.id.symm.trans (same.trans source'.id)
  have mem := id_mem_ids (List.mem_of_getElem? hd)
  have mem' := id_mem_ids (List.mem_of_getElem? hd')
  rw [← id] at mem'
  obtain rfl := index_eq_of_pairwise apart hu hu' (fun disjoint => disjoint mem mem')
    fun disjoint => disjoint mem' mem
  obtain rfl := Option.some.inj (hu.symm.trans hu')
  exact ⟨rfl, index_eq_of_pairwise u.handed.increasing hd hd' id.not_lt id.not_gt⟩

theorem Account.identity {start s : Session} {log : List UnitRun} (first : start.nextId = 0)
    (account : Account False log start log s)
    (modules : ∀ u ∈ log, ∀ c, u.result = .ok c → c.env.modules.Pairwise Module.Apart) :
    s.Identity log := by
  have ids : log.flatMap UnitRun.ids = List.range s.nextId := by
    rw [account.ids, first, Nat.sub_zero, List.range_eq_range']
  have distinct : (log.flatMap UnitRun.ids).Nodup := ids ▸ List.nodup_range
  have apart := (List.nodup_flatMap.mp distinct).2
  have disjoint {u v : UnitRun} (hu : u ∈ log) (hv : v ∈ log) (ne : u ≠ v) :
      List.Disjoint u.ids v.ids := by
    have : Std.Symm (Function.onFun List.Disjoint UnitRun.ids) := ⟨fun _ _ => List.disjoint_symm⟩
    exact apart.forall hu hv ne
  refine ⟨ids, fun u hu => ⟨id_reading .., (account.units u hu).id⟩, fun u _ => u.handed_sublist,
    ?_, ?_, fun _ _ _ _ _ _ h h' same => h.unique apart h' same, apart, ?_,
    fun u hu => (account.units u hu).changes, apart.imp fun disjoint _ => names_disjoint disjoint⟩
  · refine List.nodup_flatMap.mpr ⟨fun u hu => ?_, apart.imp fun {u v} disjoint => ?_⟩
    · exact ((List.nodup_flatMap.mp distinct).1 u hu).sublist u.handed_sublist
    · exact List.disjoint_of_subset_left u.handed_sublist.subset
        (List.disjoint_of_subset_right v.handed_sublist.subset disjoint)
  · intro r mentions
    obtain ⟨u, hu, decl, hd, source⟩ := (account.mentions mentions).resolve_left id
    obtain ⟨i, hi⟩ := List.mem_iff_getElem?.mp hu
    obtain ⟨j, hj⟩ := List.mem_iff_getElem?.mp hd
    exact ⟨i, j, u, decl, hi, hj, source⟩
  · intro u hu c accepted
    have unit : (known False log).Outcome (.ok c) := accepted ▸ (account.units u hu).result
    refine (modules u hu c accepted).imp_of_mem fun {p q} hp hq apart => ?_
    obtain ⟨v, hv, result⟩ := (Sources.Env.module unit.env hp).known
    obtain ⟨w, hw, result'⟩ := (Sources.Env.module unit.env hq).known
    refine ⟨v, hv, w, hw, result, result', disjoint hv hw ?_⟩
    rintro rfl
    have same := Except.ok.inj (result.symm.trans result')
    exact apart (by rw [same])

/-- Whatever files are built in a session, one after another, every id is handed out once, records
with the same id come from the same declaration, and different units enter types under different
names. -/
theorem Session.ids_identify (config : Config) (loader : Loader) (calls : List (String × Path)) :
    (∃ log s, History config loader calls log s) ∧
      ∀ log s, History config loader calls log s → s.Identity log :=
  ⟨exists_history config loader calls, fun _ _ history =>
    Account.identity rfl (history.account fun _ hu => hu) history.modules⟩

end FrontEnd
