import FrontEnd.Proofs.Log.Basic
import FrontEnd.Proofs.Reading.Declared
import FrontEnd.Proofs.Reading.Origins
import FrontEnd.Proofs.Sources.Plans

namespace FrontEnd

namespace Sources

structure Le (S S' : Sources) : Prop where
  place : ∀ p, S.place p → S'.place p
  record : ∀ r, S.record r → S'.record r
  unit : ∀ u, S.unit u → S'.unit u

variable {S S' : Sources}

theorem Has.mono {ls : List Label} (h : S.Has ls) (le : S.Le S') : S'.Has ls := by
  intro l hl
  have holds := h l hl
  cases l with
  | token t => exact le.place _ holds
  | type t | inferred t => exact Ty.Of.mono holds le.record
  | record decl => exact Ty.Of.mono holds le.record
  | signature sig => exact Ty.Of.mono holds le.record

theorem Env.mono {e : Environment} (h : S.Env e) (le : S.Le S') : S'.Env e := by
  induction h with
  | intro vars types functions units programs _ ih =>
    exact .intro (fun name t bound => (vars name t bound).mono le.record)
      (fun name t bound => (types name t bound).mono le.record)
      (fun p hp => (functions p hp).mono le) (fun p hp => le.unit _ (units p hp))
      (fun p hp => (programs p hp).mono le) ih

theorem Outcome.mono {r : Except (List Diagnostic) CheckedUnit} (h : S.Outcome r) (le : S.Le S') :
    S'.Outcome r := by
  cases r with
  | ok u => exact ⟨le.unit _ h.known, h.program.mono le, h.env.mono le⟩
  | error ds => exact fun d hd => le.place _ (h d hd)

end Sources

/-- A record comes from a declaration; its fields may have been resolved. -/
structure Record.From (r decl : Record) : Prop where
  kind : r.kind = decl.kind
  name : r.name = decl.name
  id : r.id = decl.id
  fields : r.fields.map Field.name = decl.fields.map Field.name

theorem Build.handed_reading (source : String) (path : Path) (typeArgs : List Ty)
    (session : Session) :
    Handed (toString session.nextId) (session.nextId + 1)
      (reading source path typeArgs session).nextId
      (reading source path typeArgs session).program.declared :=
  Program.handed_read (.ofSource source path.text)
    ⟨toString session.nextId, typeArgs, session.nextId + 1, session.config.maxParseErrors⟩

namespace UnitRun

def starts (u : UnitRun) : List Position :=
  (Cursor.ofSource u.source u.path.text).starts

def declared (u : UnitRun) : List Record :=
  u.reading.program.declared

def names (u : UnitRun) : List String :=
  u.declared.map Record.name

/-- Errors stand at tokens of units in the log, records come from declarations in them, unless they
may come from elsewhere, and the units that were accepted are in the log. -/
def sources (elsewhere : Prop) (log : List UnitRun) (key : String → Prop) : Sources where
  place := fun p => ∃ u ∈ log, p ∈ u.starts
  record := fun r => elsewhere ∨ ∃ u ∈ log, ∃ decl ∈ u.declared, r.From decl
  unit := fun c => ∃ u ∈ log, u.result = .ok c
  key := key
  fields := by
    rintro decl fs (other | ⟨u, hu, d, hd, source⟩) names
    · exact .inl other
    · exact .inr ⟨u, hu, d, hd, source.kind, source.name, source.id, names.trans source.fields⟩

/-- What is known about tokens and records does not depend on the names that are entered. -/
abbrev known (elsewhere : Prop) (log : List UnitRun) : Sources :=
  sources elsewhere log fun _ => True

variable {elsewhere : Prop} {log log' : List UnitRun}

theorem sources_le (sub : log ⊆ log') (key key' : String → Prop) :
    (sources elsewhere log key).Le (sources elsewhere log' key') where
  place := fun _ ⟨u, hu, hp⟩ => ⟨u, sub hu, hp⟩
  record := fun _ => Or.imp_right fun ⟨u, hu, hr⟩ => ⟨u, sub hu, hr⟩
  unit := fun _ ⟨u, hu, hc⟩ => ⟨u, sub hu, hc⟩

theorem handed (u : UnitRun) :
    Handed (toString u.session.nextId) (u.session.nextId + 1) u.reading.nextId u.declared :=
  Build.handed_reading u.source u.path u.typeArgs u.session

structure Known (elsewhere : Prop) (log : List UnitRun) (u : UnitRun) : Prop where
  registry : ∀ p ∈ u.session.registry, p.2.Of (known elsewhere log).record
  program : (known elsewhere log).Has (Stmt.labelsOf u.reading.program.statements)
  result : (known elsewhere log).Outcome u.result
  id : ∀ c, u.result = .ok c → c.program.id = toString u.session.nextId
  changes : ∀ k ∈ u.changes, k ∈ u.names

theorem given_reading {u : UnitRun} (hu : u ∈ log)
    (args : ∀ t ∈ u.typeArgs, t.Of (known elsewhere log).record) :
    (sources elsewhere log (· ∈ u.names)).Given (Stmt.labelsOf u.reading.program.statements) := by
  have placed := (Program.read_aside (.ofSource u.source u.path.text)
    ⟨toString u.session.nextId, u.typeArgs, u.session.nextId + 1,
      u.session.config.maxParseErrors⟩).2
  have types := Program.read_sieve (.ofSource u.source u.path.text)
    ⟨toString u.session.nextId, u.typeArgs, u.session.nextId + 1,
      u.session.config.maxParseErrors⟩ args
  intro l hl
  have place := placed l hl
  have of := types l hl
  cases l with
  | token t => exact ⟨⟨u, hu, place⟩, nofun⟩
  | type t | inferred t => exact ⟨of, nofun⟩
  | signature sig => exact ⟨of, nofun⟩
  | record decl =>
    have declared : decl ∈ u.declared := List.mem_filterMap.mpr ⟨.record decl, hl, rfl⟩
    refine ⟨Ty.of_record.mpr ⟨.inr ⟨u, hu, decl, declared, rfl, rfl, rfl, rfl⟩, of⟩, ?_⟩
    rintro _ ⟨rfl⟩
    exact List.mem_map_of_mem declared

end UnitRun

open UnitRun Build Check CheckState

/-- What a log says about what happened between two sessions, when `all` lists all units. -/
structure Account (elsewhere : Prop) (all : List UnitRun) (session : Session) (log : List UnitRun)
    (session' : Session) : Prop where
  registry : ∀ p ∈ session'.registry, p.2.Of (known elsewhere all).record
  units : ∀ u ∈ log, u.Known elsewhere all
  le : session.nextId ≤ session'.nextId
  ids : log.flatMap ids = List.range' session.nextId (session'.nextId - session.nextId)

namespace Account

variable {elsewhere : Prop} {all log log' : List UnitRun} {s t u : Session}

theorem of_nextId (registry : ∀ p ∈ t.registry, p.2.Of (known elsewhere all).record)
    (same : t.nextId = s.nextId) : Account elsewhere all s [] t :=
  ⟨registry, nofun, same.ge, by simp [same]⟩

theorem trans (h : Account elsewhere all s log t) (h' : Account elsewhere all t log' u) :
    Account elsewhere all s (log ++ log') u where
  registry := h'.registry
  units := List.forall_mem_append.mpr ⟨h.units, h'.units⟩
  le := h.le.trans h'.le
  ids := by
    have middle : t.nextId = s.nextId + (t.nextId - s.nextId) := by have := h.le; omega
    have whole : u.nextId - s.nextId = t.nextId - s.nextId + (u.nextId - t.nextId) := by
      have := h.le
      have := h'.le
      omega
    rw [List.flatMap_append, h.ids, h'.ids, whole, ← List.range'_append_1, ← middle]

end Account

/-- Logs in which all is known, as far as it was known before. -/
def UnitLog.Sound (elsewhere : Prop) (all : List UnitRun) (units : UnitLog) : Prop :=
  ∀ {source path typeArgs session log r session'},
    units source path typeArgs session log r session' → log ⊆ all →
    (∀ t ∈ typeArgs, t.Of (known elsewhere all).record) →
    (∀ p ∈ session.registry, p.2.Of (known elsewhere all).record) →
    (known elsewhere all).Outcome r ∧ Account elsewhere all session log session'

theorem Plan.Logs.known {elsewhere : Prop} {all : List UnitRun} {units : UnitLog}
    (sound : units.Sound elsewhere all) {key : String → Prop} {α : Type} {p : Plan α}
    {s s' : CheckState} {log : List UnitRun} {changes : Set String} {a : α} {Q : α → Prop}
    (h : p.Logs units s log changes a s') (sub : log ⊆ all)
    (meets : p.Meets (sources elsewhere all key) Q) (known : (sources elsewhere all key).State s) :
    Q a ∧ (sources elsewhere all key).State s' ∧ (∀ k ∈ changes, key k) ∧
      Account elsewhere all s.session log s'.session := by
  induction h with
  | done => exact ⟨meets, known, nofun, .of_nextId known.registry rfl⟩
  | step ran _ ih =>
    obtain ⟨R, does, rest⟩ := meets
    obtain ⟨hb, moves⟩ := does.run known (ran unit)
    obtain ⟨ha, state, keys, account⟩ := ih sub (rest _ hb) moves.state
    have first := Account.of_nextId moves.state.registry moves.nextId
    refine ⟨ha, state, fun k hk => ?_, first.trans account⟩
    obtain changed | hk := hk
    · exact moves.keys k changed
    · exact keys k hk
  | part _ _ ih ih' =>
    rw [List.append_subset] at sub
    obtain ⟨hr, state, keys, account⟩ := ih sub.1 (Plan.meets_of meets.1) known
    obtain ⟨ha, state', keys', account'⟩ := ih' sub.2 (meets.2 _ hr) state
    refine ⟨ha, state', fun k hk => ?_, account.trans account'⟩
    obtain hk | hk := hk
    · exact keys k hk
    · exact keys' k hk
  | noText _ _ ih => exact ih sub (meets.2 _ nofun) known
  | @ask _ _ _ _ s _ _ _ session' _ _ _ _ _ logged _ ih =>
    rw [List.append_subset] at sub
    obtain ⟨outcome, account⟩ := sound logged sub.1 meets.1 known.registry
    have outcome' := outcome.mono (sources_le (fun _ hu => hu) _ key)
    have state : (sources elsewhere all key).State { s with session := session' } :=
      ⟨known.env, account.registry, known.expected, known.errors⟩
    obtain ⟨ha, state', keys, account'⟩ := ih sub.2
      (meets.2 _ fun x same => Except.ok.inj same ▸ outcome') state
    exact ⟨ha, state', keys, account.trans account'⟩

namespace Build

variable {elsewhere : Prop} {all : List UnitRun}

theorem id_of_verdict {source : String} {path : Path} {typeArgs : List Ty} {session : Session}
    {xs : List Stmt} {s : CheckState} {c : CheckedUnit}
    (accepted : verdict source path typeArgs session xs s = .ok c) :
    c.program.id = toString session.nextId := by
  unfold verdict at accepted
  split at accepted
  · obtain rfl := Except.ok.inj accepted
    exact id_reading source path typeArgs session
  · cases accepted

theorem LogsWith.sound {units : UnitLog} (sound : units.Sound elsewhere all) :
    UnitLog.Sound elsewhere all (LogsWith units) := by
  intro source path typeArgs session log r session' logged sub args registry
  have later : session.nextId < (reading source path typeArgs session).nextId :=
    lt_nextId_reading source path typeArgs session
  cases logged with
  | unreadable errors =>
    rw [List.cons_subset] at sub
    have placed := (Program.read_aside (.ofSource source path.text)
      ⟨toString session.nextId, typeArgs, session.nextId + 1, session.config.maxParseErrors⟩).1
    have outcome :
        (known elsewhere all).Outcome (.error (reading source path typeArgs session).errors) :=
      fun d hd => ⟨_, sub.1, placed d hd⟩
    refine ⟨outcome, registry, fun u hu => ?_, later.le, by simp [ids, UnitRun.reading]⟩
    obtain rfl := List.mem_singleton.mp hu
    exact ⟨registry, (given_reading sub.1 args).has.mono (sources_le (fun _ h => h) _ _), outcome,
      nofun, nofun⟩
  | @checked log changes xs s readable logged =>
    rw [List.cons_subset] at sub
    let u : UnitRun :=
      ⟨source, path, typeArgs, session, changes, verdict source path typeArgs session xs s⟩
    have given := given_reading (u := u) sub.1 args
    have start : (sources elsewhere all (· ∈ u.names)).State (begun source path typeArgs session) :=
      ⟨.start, registry, nofun, nofun⟩
    obtain ⟨hxs, state, keys, account⟩ := logged.known sound sub.2 (Plan.meets_of given) start
    have outcome : (known elsewhere all).Outcome (verdict source path typeArgs session xs s) := by
      refine Sources.Outcome.mono ?_ (sources_le (fun _ h => h) (· ∈ u.names) _)
      unfold verdict
      split
      case isTrue clean => exact ⟨⟨u, sub.1, if_pos clean⟩, hxs, state.env⟩
      case isFalse => exact state.errors
    refine ⟨outcome, ?_⟩
    have head : Account elsewhere all session [u]
        { session with nextId := (reading source path typeArgs session).nextId } := by
      refine ⟨registry, fun v hv => ?_, later.le, by simp [u, ids, UnitRun.reading]⟩
      obtain rfl := List.mem_singleton.mp hv
      refine ⟨registry, given.has.mono (sources_le (fun _ h => h) _ _), outcome, ?_, keys⟩
      intro c accepted
      exact id_of_verdict accepted
    exact head.trans account

theorem LogsWithin.sound (n : Nat) : UnitLog.Sound elsewhere all (LogsWithin n) := by
  induction n with
  | zero =>
    rintro source path typeArgs session log r session' ⟨rfl, rfl, rfl⟩ _ _ registry
    exact ⟨nofun, .of_nextId registry rfl⟩
  | succ n ih =>
    intro source path typeArgs session log r session' logged
    have inner : ((LogsWithin n).Inside session).Sound elsewhere all := fun logged => ih logged.2
    exact LogsWith.sound inner logged

theorem Logs.sound : UnitLog.Sound elsewhere all Logs :=
  LogsWithin.sound _

end Build

end FrontEnd
