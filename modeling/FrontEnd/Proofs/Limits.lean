import FrontEnd.CommandLine
import FrontEnd.Proofs.Lockstep.Build

namespace FrontEnd

def Renaming.refl : Renaming where
  unit := fun u => u
  id := fun n => n
  name := fun v => v
  unit_injective := Function.injective_id
  id_injective := Function.injective_id
  plain := fun _ => rfl
  dashed := fun _ _ => rfl
  numeral := fun _ => rfl
  next := Translation.identity.next

/-- Two errors are the same, or say of the same import that it failed, perhaps with other counts of
errors. -/
def Diagnostic.Alike (d e : Diagnostic) : Prop :=
  d = e ∨ ∃ path m n position, d = ⟨.check (.importFailed path m), position⟩ ∧
    e = ⟨.check (.importFailed path n), position⟩

theorem Config.foldl_recorded_none (ds es : List Diagnostic) :
    ds.foldl (recorded none) es = es ++ ds := by
  induction ds generalizing es with
  | nil => simp
  | cons d ds ih =>
    have first : recorded none es d = es ++ [d] := rfl
    rw [List.foldl_cons, first, ih, List.append_assoc, List.singleton_append]

theorem Config.recorded_some (n : Nat) (es : List Diagnostic) (e : Diagnostic) :
    recorded (some n) es e = if es.length < n then es ++ [e] else es := by
  simp [recorded, accepts]

theorem Config.foldl_recorded_some {n : Nat} (ds : List Diagnostic) {es : List Diagnostic}
    (h : es.length ≤ n) : ds.foldl (recorded (some n)) es = (es ++ ds).take n := by
  induction ds generalizing es with
  | nil => simp [List.take_of_length_le h]
  | cons d ds ih =>
    rw [List.foldl_cons, recorded_some]
    split
    case isTrue more =>
      have fits : (es ++ [d]).length ≤ n := by
        rw [List.length_append, List.length_singleton]
        exact more
      rw [ih fits, List.append_assoc, List.singleton_append]
    case isFalse full =>
      have length : es.length = n := by omega
      rw [ih h, List.take_append_of_le_length (by omega), List.take_append_of_le_length (by omega)]

def Reports.limited {n : Nat} (some : 0 < n) : Reports where
  first := none
  second := .some n
  same := Diagnostic.Alike
  log := fun ds es => List.Forall₂ Diagnostic.Alike (ds.take n) es
  given := fun ds es => List.Forall₂ Diagnostic.Alike (ds.take n) (es.take n)
  same_refl := fun _ => .inl rfl
  log_nil := by simp
  log_recorded := by
    intro d e ds es same log
    have length := log.length_eq
    rw [List.length_take] at length
    have first : Config.recorded none ds d = ds ++ [d] := rfl
    rw [first, Config.recorded_some]
    split
    case isTrue more =>
      rw [List.take_of_length_le (by omega)] at log
      rw [List.take_of_length_le (by simp; omega)]
      exact List.rel_append log (.cons same .nil)
    case isFalse full =>
      rw [List.take_append_of_le_length (by omega)]
      exact log
  log_empty := by
    intro ds es log
    have length := log.length_eq
    rw [List.length_take] at length
    rw [← List.length_eq_zero_iff, ← List.length_eq_zero_iff]
    omega
  given_refl := fun ds => List.forall₂_same.mpr fun _ _ => .inl rfl
  given_log := by
    intro ds es log
    have length := log.length_eq
    rw [List.length_take] at length
    rwa [List.take_of_length_le (l := es) (by omega)]
  same_failed := fun _ path position => .inr ⟨path, _, _, position, rfl, rfl⟩
  log_given := by
    intro ds es ds' es' given log
    have length := log.length_eq
    rw [List.length_take] at length
    rw [Config.foldl_recorded_none, Config.foldl_recorded_some es (by omega), List.take_append,
      List.take_append, List.take_of_length_le (l := es') (by omega)]
    refine List.rel_append log ?_
    have left : n - es'.length = n - ds'.length := by omega
    have cut := List.forall₂_take (n - ds'.length) given
    rw [List.take_take, List.take_take, Nat.min_eq_left (by omega)] at cut
    rw [left]
    exact cut

/-- A build with a limit beside the same build without one. -/
def Comparison.limited {n : Nat} (some : 0 < n) : Comparison where
  names := .refl
  reports := .limited some
  rest := []
  unseen := fun _ => rfl

namespace Build

theorem accepts_eq_of_results {C : Comparison} {r r' : Except (List Diagnostic) CheckedUnit}
    (results : C.Results r r') (s t : Session) : accepts (.ok (r', t)) = accepts (.ok (r, s)) := by
  cases results with
  | failed given => rfl
  | checked recorded => rfl

theorem sessions_limited (config : Config) {n : Nat} (some : 0 < n) (loader : Loader) :
    (Comparison.limited some).Sessions (.start (config.withMaxCheckErrors none) loader)
      (.start (config.withMaxCheckErrors n) loader) :=
  ⟨rfl, rfl, rfl, rfl, rfl, rfl, rfl, nofun⟩

theorem accepts_limited (config : Config) {n : Nat} (some : 0 < n) (loader : Loader)
    (source : String) (path : Path) :
    accepts (file source path (.start (config.withMaxCheckErrors n) loader)) =
      accepts (file source path (.start (config.withMaxCheckErrors none) loader)) := by
  obtain ⟨⟨r, s⟩, all⟩ := file_total source path (.start (config.withMaxCheckErrors none) loader)
  obtain ⟨r', t, cut, results, _⟩ := (sessions_limited config some loader).file all
  rw [all, cut]
  exact accepts_eq_of_results results s t

/-- A command line that is understood comes to an end, with 0 if and only if there is a text and it
is accepted. -/
theorem run_code {loader : Loader} {args : List String} {path : Path} {config : Config}
    (parsed : CommandLine.parse args = .ok ⟨path, config⟩) :
    ∃ outcome, CommandLine.run loader args = .ok outcome ∧ (outcome.code = 0 ↔
      ∃ source, loader.read path = .ok source ∧
        accepts (file source path (.start config loader)) = true) := by
  have run : CommandLine.run loader args = CommandLine.check loader ⟨path, config⟩ := by
    rw [CommandLine.run, parsed]
  rw [run, CommandLine.check]
  cases loader.read path with
  | error reason => exact ⟨_, rfl, by simp⟩
  | ok source =>
    obtain ⟨⟨r, s⟩, built⟩ := file_total source path (.start config loader)
    simp only [built, Except.ok.injEq, exists_eq_left']
    cases r with
    | ok unit => exact ⟨_, rfl, by simp [accepts]⟩
    | error ds =>
      cases report : CommandLine.report loader ds with
      | ok out =>
        refine ⟨⟨1, out, ""⟩, ?_, by simp [accepts]⟩
        simp only [bind, Except.bind, report]
        rfl
      | error out =>
        refine ⟨⟨101, out, ""⟩, ?_, by simp [accepts]⟩
        simp only [bind, Except.bind, report]
        rfl

/-- A limit on errors changes no verdict, unless it is zero. -/
theorem limit_keeps_verdict {config : Config} (some : config.maxCheckErrors ≠ some 0)
    (loader : Loader) :
    (∀ source path, accepts (file source path (.start config loader)) =
      accepts (file source path (.start (config.withMaxCheckErrors none) loader))) ∧
    ∀ args path, CommandLine.parse args = .ok ⟨path, config⟩ →
      ∃ outcome, CommandLine.run loader args = .ok outcome ∧ (outcome.code = 0 ↔
        ∃ source, loader.read path = .ok source ∧
          accepts (file source path (.start (config.withMaxCheckErrors none) loader)) = true) := by
  have same : ∀ source path, accepts (file source path (.start config loader)) =
      accepts (file source path (.start (config.withMaxCheckErrors none) loader)) := by
    intro source path
    obtain ⟨reading, limit⟩ := config
    cases limit with
    | none => rfl
    | some n =>
      have pos : 0 < n := Nat.pos_of_ne_zero fun zero => some (congrArg Option.some zero)
      exact accepts_limited ⟨reading, n⟩ pos loader source path
  refine ⟨same, fun args path parsed => ?_⟩
  simp only [← same]
  exact run_code parsed

/-- Of the errors of a file and of the file that it imports, one is enough. -/
theorem limit_keeps_verdict_one :
    let loader := Loader.ofFiles
      [("main.cd", "import u, \"u.cd\"\nx := y"), ("u.cd", "a := b")]
    let args := ["main.cd", "--max-semantic-errors", "1"]
    ∃ outcome, CommandLine.run loader args = .ok outcome ∧ outcome.code ≠ 0 := by
  intro loader args
  have parsed : CommandLine.parse args =
      .ok ⟨⟨"main.cd"⟩, Config.default.withMaxCheckErrors (some 1)⟩ := by decide +kernel
  have text : loader.read ⟨"main.cd"⟩ = .ok "import u, \"u.cd\"\nx := y" := by
    decide +kernel
  have refused : accepts (file "import u, \"u.cd\"\nx := y" ⟨"main.cd"⟩
      (.start Config.default loader)) = false := by decide +kernel
  obtain ⟨outcome, ends, code⟩ := (limit_keeps_verdict (by decide) loader).2 args _ parsed
  refine ⟨outcome, ends, fun zero => ?_⟩
  obtain ⟨source, read, accepted⟩ := code.mp zero
  cases text.symm.trans read
  cases refused.symm.trans accepted

/-- With a limit of zero nothing is reported, and everything that can be read is accepted. -/
theorem limit_zero_accepts :
    let loader := Loader.ofFiles [("main.cd", "x := y")]
    accepts (file "x := y" ⟨"main.cd"⟩
      (.start (Config.default.withMaxCheckErrors (some 0)) loader)) = true ∧
    accepts (file "x := y" ⟨"main.cd"⟩ (.start Config.default loader)) = false ∧
    CommandLine.run loader ["main.cd", "--max-semantic-errors", "0"] = .ok ⟨0, "", ""⟩ := by
  decide +kernel

end Build

/-- Error `e` reads like error `d` and stands in the same place; where a failed import is reported,
its tip may give another count. -/
structure Diagnostic.Repeats (d e : Diagnostic) : Prop where
  name : e.cause.name = d.cause.name
  message : e.cause.message = d.cause.message
  position : e.position = d.position
  tip : e.cause.tip? = d.cause.tip? ∨ d.cause.name = "ImportFailed"

theorem Diagnostic.Alike.repeats {d e : Diagnostic} (h : d.Alike e) : d.Repeats e := by
  obtain rfl | ⟨path, m, n, position, rfl, rfl⟩ := h
  · exact ⟨rfl, rfl, rfl, .inl rfl⟩
  · exact ⟨rfl, rfl, rfl, .inr rfl⟩

/-- Two builds both accept a program, or the second reports the first `n` errors of the first. -/
inductive Truncates (n : Nat) :
    Except (List Diagnostic) CheckedUnit → Except (List Diagnostic) CheckedUnit → Prop
  | checked (unit unit' : CheckedUnit) : Truncates n (.ok unit) (.ok unit')
  | failed {ds es : List Diagnostic} (first : List.Forall₂ Diagnostic.Repeats (ds.take n) es) :
      Truncates n (.error ds) (.error es)

namespace Build

/-- A limit of at least one cuts off the end of what is reported, unless the text of the first file
has errors: then both builds report these. -/
theorem limit_truncates (config : Config) {n : Nat} (some : 0 < n) (loader : Loader)
    (source : String) (path : Path) :
    ∃ r s r' t,
      file source path (.start (config.withMaxCheckErrors none) loader) = .ok (r, s) ∧
      file source path (.start (config.withMaxCheckErrors n) loader) = .ok (r', t) ∧
      let unreadable := (reading source path.normalize [] (.start config loader)).errors
      (unreadable ≠ [] → r = .error unreadable ∧ r' = .error unreadable) ∧
      (unreadable = [] → Truncates n r r') := by
  obtain ⟨⟨r, s⟩, all⟩ := file_total source path (.start (config.withMaxCheckErrors none) loader)
  obtain ⟨r', t, cut, outcomes, _⟩ := (sessions_limited config some loader).file_outcomes all
  refine ⟨r, s, r', t, all, cut, ?_⟩
  have read : reading source path.normalize [] (.start (config.withMaxCheckErrors none) loader) =
      reading source path.normalize [] (.start config loader) := rfl
  rw [read] at outcomes
  cases outcomes with
  | unreadable errors => exact ⟨fun _ => ⟨rfl, rfl⟩, fun readable => absurd readable errors⟩
  | rejected readable log =>
    have first := log.imp fun _ _ => Diagnostic.Alike.repeats
    exact ⟨fun errors => absurd readable errors, fun _ => .failed first⟩
  | accepted readable _ =>
    exact ⟨fun errors => absurd readable errors, fun _ => .checked _ _⟩

/-- Of four errors, two of them in the file that is imported, the first two are reported. -/
theorem limit_truncates_two :
    let loader := Loader.ofFiles [("u.cd", "a := b\nc := d")]
    let source := "import u, \"u.cd\"\nx := y"
    ∃ ds es s t, file source ⟨"main.cd"⟩ (.start .default loader) = .ok (.error ds, s) ∧
      file source ⟨"main.cd"⟩ (.start (Config.default.withMaxCheckErrors (some 2)) loader) =
        .ok (.error es, t) ∧
      ds.length = 4 ∧ List.Forall₂ Diagnostic.Repeats (ds.take 2) es := by
  intro loader source
  have readable : (reading source (Path.normalize ⟨"main.cd"⟩) [] (.start .default loader)).errors =
      [] := by decide +kernel
  have four : errorCount (file source ⟨"main.cd"⟩ (.start .default loader)) = 4 := by
    decide +kernel
  obtain ⟨r, s, r', t, all, cut, -, truncates⟩ :=
    limit_truncates .default (n := 2) (by decide) loader source ⟨"main.cd"⟩
  have all : file source ⟨"main.cd"⟩ (.start .default loader) = .ok (r, s) := all
  cases truncates readable with
  | checked unit unit' =>
    rw [all] at four
    cases four
  | failed first =>
    rw [all] at four
    exact ⟨_, _, s, t, all, cut, four, first⟩

/-- The errors of a text that cannot be read are not cut off. -/
theorem limit_spares_reading :
    let built := file ") )" ⟨"main.cd"⟩ (.start .default (.ofFiles []))
    let limited := file ") )" ⟨"main.cd"⟩
      (.start (Config.default.withMaxCheckErrors (some 1)) (.ofFiles []))
    errorCount built = 2 ∧ errorCount limited = 2 ∧
      ∀ r s r' t, built = .ok (r, s) → limited = .ok (r', t) → ¬ Truncates 1 r r' := by
  intro built limited
  have all : errorCount built = 2 := by decide +kernel
  have cut : errorCount limited = 2 := by decide +kernel
  refine ⟨all, cut, fun r s r' t eq eq' truncates => ?_⟩
  rw [eq] at all
  rw [eq'] at cut
  cases truncates with
  | checked unit unit' => cases all
  | @failed ds es first =>
    have length := first.length_eq
    have two : es.length = 2 := cut
    rw [List.length_take] at length
    omega

end Build

end FrontEnd
