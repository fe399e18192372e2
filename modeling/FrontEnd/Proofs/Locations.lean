import FrontEnd.Proofs.Path
import FrontEnd.Proofs.Registry

namespace FrontEnd

namespace Path

/-- A place in the tree of directories: the names on the way to it from the root, the last one
first. -/
@[ext]
structure Location where
  names : List String
  proper : ∀ s ∈ names, (Component.name s).Written

/-- A name leads down, and a parent leads up; the root is its own parent. -/
def walkStep : List String → Component → List String
  | _, .root => []
  | names, .current => names
  | names, .parent => names.tail
  | names, .name s => s :: names

/-- A path starts at the root if it is absolute, and has no root and no current directory after
its first component. -/
theorem components_cases (p : Path) :
    p.isAbsolute = true ∧ (∃ cs, p.components = .root :: cs ∧ ∀ c ∈ cs, c.Written) ∨
      p.isAbsolute = false ∧ ∃ cs, (p.components = cs ∨ p.components = .current :: cs) ∧
        ∀ c ∈ cs, c.Written := by
  unfold components isAbsolute
  split
  case h_1 cs text =>
    exact .inl ⟨by simp [text], _, rfl, written_of_mem fun _ => Text.not_mem_of_mem_split⟩
  case h_2 notRoot =>
    have relative : (p.text.toList.head? == some '/') = false := by
      cases text : p.text.toList with
      | nil => rfl
      | cons c cs =>
        have : c ≠ '/' := fun root => notRoot cs (by rw [text, root])
        simpa using this
    refine .inr ⟨relative, ?_⟩
    split
    case h_1 pieces split =>
      exact ⟨_, .inr rfl, written_of_mem fun _ mem =>
        Text.not_mem_of_mem_split (split ▸ List.mem_cons_of_mem _ mem)⟩
    case h_2 => exact ⟨_, .inl rfl, written_of_mem fun _ => Text.not_mem_of_mem_split⟩

theorem written_of_mem_components {p : Path} {s : String} (h : .name s ∈ p.components) :
    (Component.name s).Written := by
  obtain ⟨_, cs, eq, written⟩ | ⟨_, cs, eq | eq, written⟩ := p.components_cases
  all_goals
    rw [eq] at h
    exact written _ (by simpa using h)

theorem proper_walk {cs : List Component} {names : List String}
    (written : ∀ s, .name s ∈ cs → (Component.name s).Written)
    (proper : ∀ s ∈ names, (Component.name s).Written) :
    ∀ s ∈ cs.foldl walkStep names, (Component.name s).Written := by
  induction cs generalizing names with
  | nil => exact proper
  | cons c cs ih =>
    refine ih (fun s mem => written s (List.mem_cons_of_mem _ mem)) ?_
    cases c with
    | root => exact nofun
    | current => exact proper
    | parent => exact fun s mem => proper s (List.mem_of_mem_tail mem)
    | name t => exact List.forall_mem_cons.mpr ⟨written t (by simp), proper⟩

def locate (p : Path) (dir : Location) : Location :=
  ⟨p.components.foldl walkStep dir.names,
    proper_walk (fun _ => written_of_mem_components) dir.proper⟩

/-- Both paths are absolute or both are relative, and they lead to the same place from every
directory that is deep enough. -/
def SameFile (p q : Path) : Prop :=
  p.isAbsolute = q.isAbsolute ∧
    ∃ n, ∀ dir : Location, n ≤ dir.names.length → p.locate dir = q.locate dir

def base (absolute : Bool) (ups : Nat) : List Component :=
  if absolute then [.root] else List.replicate ups .parent

/-- A normal path is made of names, and below them stands the root or any number of parents. -/
def Form (absolute : Bool) (stack : List Component) : Prop :=
  ∃ (ups : Nat) (names : List String), (∀ s ∈ names, (Component.name s).Written) ∧
    stack = names.map .name ++ base absolute ups

theorem Form.step {absolute : Bool} {stack : List Component} (h : Form absolute stack)
    {c : Component} (written : c.Written) :
    Form absolute (normalStep stack c) ∧ ∀ dir, (normalStep stack c).reverse.foldl walkStep dir =
      walkStep (stack.reverse.foldl walkStep dir) c := by
  obtain ⟨ups, names, proper, rfl⟩ := h
  cases c with
  | root | current => exact absurd written (by simp [Component.Written])
  | name s =>
    exact ⟨⟨ups, s :: names, List.forall_mem_cons.mpr ⟨written, proper⟩, rfl⟩, by simp [normalStep]⟩
  | parent =>
    cases names with
    | cons s names =>
      exact ⟨⟨ups, names, fun t mem => proper t (List.mem_cons_of_mem _ mem), rfl⟩,
        by simp [normalStep, walkStep]⟩
    | nil =>
      cases absolute with
      | true => exact ⟨⟨0, [], by simp, rfl⟩, fun _ => rfl⟩
      | false =>
        have up : normalStep (base false ups) .parent = .parent :: base false ups :=
          normalStep_parent fun _ => List.eq_of_mem_replicate
        rw [List.map_nil, List.nil_append, up]
        exact ⟨⟨ups + 1, [], by simp, rfl⟩, by simp⟩

theorem Form.steps {absolute : Bool} {stack cs : List Component} (h : Form absolute stack)
    (written : ∀ c ∈ cs, c.Written) :
    Form absolute (cs.foldl normalStep stack) ∧
      ∀ dir, (cs.foldl normalStep stack).reverse.foldl walkStep dir =
        cs.foldl walkStep (stack.reverse.foldl walkStep dir) := by
  induction cs generalizing stack with
  | nil => exact ⟨h, fun _ => rfl⟩
  | cons c cs ih =>
    obtain ⟨first, rest⟩ := List.forall_mem_cons.mp written
    obtain ⟨form, leads⟩ := h.step first
    obtain ⟨forms, lead⟩ := ih form rest
    exact ⟨forms, fun dir => by rw [List.foldl_cons, List.foldl_cons, lead, leads]⟩

theorem stack_form (p : Path) :
    Form p.isAbsolute (p.components.foldl normalStep []) ∧
      ∀ dir, (p.components.foldl normalStep []).reverse.foldl walkStep dir =
        p.components.foldl walkStep dir := by
  have root : Form true [.root] := ⟨0, [], nofun, rfl⟩
  have empty : Form false [] := ⟨0, [], nofun, rfl⟩
  obtain ⟨kind, cs, eq, written⟩ | ⟨kind, cs, eq | eq, written⟩ := p.components_cases
  · rw [kind, eq]
    exact root.steps written
  · rw [kind, eq]
    exact empty.steps written
  · rw [kind, eq, List.foldl_cons]
    exact empty.steps written

theorem components_normalize (p : Path) :
    p.normalize.components = (p.components.foldl normalStep []).reverse :=
  (normal_components p).components_ofComponents

theorem locate_normalize (p : Path) (dir : Location) : p.normalize.locate dir = p.locate dir := by
  apply Location.ext
  change p.normalize.components.foldl walkStep dir.names = p.components.foldl walkStep dir.names
  rw [components_normalize, p.stack_form.2]

theorem components_normalize_form (p : Path) :
    ∃ (ups : Nat) (names : List String), (∀ s ∈ names, (Component.name s).Written) ∧
      p.normalize.components = base p.isAbsolute ups ++ names.map .name := by
  obtain ⟨ups, names, proper, form⟩ := p.stack_form.1
  refine ⟨ups, names.reverse, by simpa using proper, ?_⟩
  rw [components_normalize, form, List.reverse_append, List.map_reverse, base]
  split <;> simp

theorem isAbsolute_iff_root_mem (p : Path) : p.isAbsolute = true ↔ .root ∈ p.components := by
  obtain ⟨kind, cs, eq, written⟩ | ⟨kind, cs, eq | eq, written⟩ := p.components_cases
  all_goals
    have below : .root ∉ cs := written .root
    simp [kind, eq, below]

theorem isAbsolute_normalize (p : Path) : p.normalize.isAbsolute = p.isAbsolute := by
  obtain ⟨ups, names, _, form⟩ := p.components_normalize_form
  rw [Bool.eq_iff_iff, isAbsolute_iff_root_mem, form]
  cases p.isAbsolute with
  | true | false => simp [base]

theorem walk_form (names dir : List String) (absolute : Bool) (ups : Nat) :
    (names.map Component.name ++ base absolute ups).reverse.foldl walkStep dir =
      names ++ if absolute then [] else dir.drop ups := by
  have up (ups : Nat) (dir : List String) :
      (List.replicate ups Component.parent).foldl walkStep dir = dir.drop ups := by
    induction ups generalizing dir with
    | zero => rfl
    | succ ups ih => rw [List.replicate_succ, List.foldl_cons, ih, walkStep, List.drop_tail]
  have down (dir : List String) :
      (names.map Component.name).reverse.foldl walkStep dir = names ++ dir := by
    induction names with
    | nil => rfl
    | cons s names ih => simp [← List.map_reverse, walkStep, ← ih]
  rw [List.reverse_append, List.foldl_append, down]
  cases absolute with
  | true => rfl
  | false => simp [base, up]

theorem exists_fresh (taken : List String) : ∃ s, (Component.name s).Written ∧ s ∉ taken := by
  obtain ⟨n, bound⟩ : ∃ n, ∀ s ∈ taken, s.length ≤ n := by
    induction taken with
    | nil => exact ⟨0, nofun⟩
    | cons s taken ih =>
      obtain ⟨n, bound⟩ := ih
      refine ⟨max s.length n, List.forall_mem_cons.mpr ⟨Nat.le_max_left _ _, fun t mem => ?_⟩⟩
      exact (bound t mem).trans (Nat.le_max_right _ _)
  refine ⟨String.ofList (List.replicate (n + 1) 'a'), ?_, fun mem => ?_⟩
  · have noDots : List.replicate (n + 1) 'a' ≠ ['.'] ∧ List.replicate (n + 1) 'a' ≠ ['.', '.'] := by
      simp [List.replicate_succ]
    simp [Component.Written, component?, noDots]
  · have : n + 1 ≤ n := by simpa using bound _ mem
    omega

theorem append_replicate_inj {s : String} {names names' : List String} {m n : Nat}
    (new : s ∉ names) (new' : s ∉ names') (some : 0 < m) (some' : 0 < n)
    (h : names ++ List.replicate m s = names' ++ List.replicate n s) : names = names' ∧ m = n := by
  have front {names : List String} {m : Nat} (new : s ∉ names) (some : 0 < m) :
      (names ++ List.replicate m s).takeWhile (· ≠ s) = names := by
    obtain ⟨m, rfl⟩ := Nat.exists_eq_succ_of_ne_zero some.ne'
    rw [List.takeWhile_append_of_pos (by simpa using fun t mem => ne_of_mem_of_not_mem mem new)]
    simp [List.replicate_succ]
  have same : names = names' := by
    rw [← front new some, ← front new' some', h]
  have lengths := congrArg List.length h
  simp only [same, List.length_append, List.length_replicate] at lengths
  exact ⟨same, by omega⟩

/-- Paths that lead to the same place from all deep directories have one normal path. From a deep
directory of names that neither path has, each place shows how far its path goes up and the names by
which it comes down. -/
theorem SameFile.normalize_eq {p q : Path} (h : p.SameFile q) : p.normalize = q.normalize := by
  obtain ⟨kind, n, same⟩ := h
  obtain ⟨ups, names, _, form⟩ := p.stack_form.1
  obtain ⟨ups', names', _, form'⟩ := q.stack_form.1
  obtain ⟨s, written, new⟩ := exists_fresh (names ++ names')
  obtain ⟨newHere, newThere⟩ : s ∉ names ∧ s ∉ names' := by simpa using new
  let depth := n + ups + ups' + 1
  let dir : Location :=
    ⟨List.replicate depth s, fun t mem => List.eq_of_mem_replicate mem ▸ written⟩
  have place {p : Path} {ups : Nat} {names : List String}
      (form : p.components.foldl normalStep [] = names.map .name ++ base p.isAbsolute ups) :
      (p.locate dir).names =
        names ++ if p.isAbsolute then [] else List.replicate (depth - ups) s := by
    rw [← locate_normalize]
    change p.normalize.components.foldl walkStep (List.replicate depth s) = _
    rw [components_normalize, form, walk_form, List.drop_replicate]
  have meet := congrArg Location.names (same dir (by simp [dir, depth]; omega))
  rw [place form, place form', kind] at meet
  have kept : p.components.foldl normalStep [] = q.components.foldl normalStep [] := by
    rw [form, form', kind]
    cases absolute : q.isAbsolute with
    | true =>
      have : names = names' := by simpa [absolute] using meet
      simp [this, base]
    | false =>
      rw [absolute] at meet
      obtain ⟨rfl, depths⟩ := append_replicate_inj newHere newThere (by omega) (by omega) meet
      rw [show ups = ups' by omega]
  rw [normalize, normalize, kept]

theorem normalize_eq_iff {p q : Path} : p.normalize = q.normalize ↔ p.SameFile q := by
  refine ⟨fun same => ⟨?_, 0, fun dir _ => ?_⟩, SameFile.normalize_eq⟩
  · rw [← isAbsolute_normalize, same, isAbsolute_normalize]
  · rw [← locate_normalize, same, locate_normalize]

theorem same_normalize_iff {p q : Path} : p.normalize.same q.normalize = true ↔ p.SameFile q := by
  rw [← normalize_eq_iff, same, beq_iff_eq]
  refine ⟨fun components => ?_, fun same => by rw [same]⟩
  rw [components_normalize, components_normalize] at components
  rw [normalize, normalize, components]

end Path

/-- A text that is added is read under every path to its file, and all other files are read as
before. -/
theorem Loader.read_append (files : List (String × String)) (p q : Path) (source : String) :
    (p.SameFile q → (ofFiles (files ++ [(q.text, source)])).read p = .ok source) ∧
      (¬ p.SameFile q → (ofFiles (files ++ [(q.text, source)])).read p =
        (ofFiles files).read p) := by
  have added : table (files ++ [(q.text, source)]) =
      Table.insert (table files) q.normalize.text source := by
    rw [table, List.foldl_append]
    rfl
  simp only [ofFiles, added, ← Path.normalize_eq_iff]
  refine ⟨fun same => ?_, fun other => ?_⟩
  · rw [same, Table.lookup_insert_self]
  · have differ : p.normalize.text ≠ q.normalize.text := fun text => other (congrArg Path.mk text)
    rw [Table.lookup_insert_of_ne differ]

theorem Session.begin?_after {s t : Session} {q : Path} (begun : s.begin? q.normalize = some t)
    (p : Path) : t.begin? p.normalize = none ↔ p.SameFile q ∨ s.begin? p.normalize = none := by
  have refused (s : Session) :
      s.begin? p.normalize = none ↔ s.importing.any p.normalize.same = true := by
    simp [begin?]
  rw [refused, refused, Session.begin?_eq_some begun, List.any_cons, Bool.or_eq_true,
    Path.same_normalize_iff]

namespace Path

/-- Normalizing gives a canonical form of paths: there is nothing left to normalize in it, it leads
where the path leads, and it is the same for two paths exactly if they are paths to one file. So a
file is found under all its paths and only under them, where texts are looked up and where cycles of
imports are. -/
theorem normalize_canonical (p q : Path) :
    p.normalize.normalize = p.normalize ∧
    (∃ (ups : Nat) (names : List String), (∀ s ∈ names, (Component.name s).Written) ∧
      p.normalize.components =
        (if p.isAbsolute then [.root] else List.replicate ups .parent) ++ names.map .name) ∧
    p.normalize.isAbsolute = p.isAbsolute ∧
    (∀ dir, p.normalize.locate dir = p.locate dir) ∧
    (p.normalize = q.normalize ↔ p.SameFile q) ∧
    (∀ files source,
      (p.SameFile q → (Loader.ofFiles (files ++ [(q.text, source)])).read p = .ok source) ∧
      (¬ p.SameFile q →
        (Loader.ofFiles (files ++ [(q.text, source)])).read p = (Loader.ofFiles files).read p)) ∧
    (∀ s t : Session, s.begin? q.normalize = some t →
      (t.begin? p.normalize = none ↔ p.SameFile q ∨ s.begin? p.normalize = none)) :=
  ⟨normalize_normalize p, components_normalize_form p, isAbsolute_normalize p, locate_normalize p,
    normalize_eq_iff, fun files source => Loader.read_append files p q source,
    fun _ _ begun => Session.begin?_after begun p⟩

/-- A file that is put on the chain under one path is read, and refused, under another one. -/
theorem normalize_canonical_spellings :
    SameFile ⟨"../lib/./x/../list"⟩ ⟨"..//lib/list/"⟩ ∧
      (Loader.ofFiles [("..//lib/list/", "x := 1")]).read ⟨"../lib/./x/../list"⟩ = .ok "x := 1" ∧
      ∃ t, (Session.start .default (.ofFiles [])).begin? (normalize ⟨"..//lib/list/"⟩) = some t ∧
        t.begin? (normalize ⟨"../lib/./x/../list"⟩) = none := by
  obtain ⟨-, -, -, -, canonical, read, refused⟩ :=
    normalize_canonical ⟨"../lib/./x/../list"⟩ ⟨"..//lib/list/"⟩
  have file : SameFile ⟨"../lib/./x/../list"⟩ ⟨"..//lib/list/"⟩ := canonical.mp (by decide +kernel)
  have begun :
      (Session.start .default (.ofFiles [])).begin? (normalize ⟨"..//lib/list/"⟩) = some _ :=
    rfl
  exact ⟨file, (read [] "x := 1").1 file, _, begun, (refused _ _ begun).mpr (.inl file)⟩

end Path

end FrontEnd
