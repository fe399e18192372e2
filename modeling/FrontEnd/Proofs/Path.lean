import FrontEnd.Path

namespace FrontEnd

namespace Text

variable {sep : Char}

theorem split_ne_nil (cs : List Char) : split sep cs ≠ [] := by
  induction cs with
  | nil => simp [split]
  | cons c cs ih =>
    simp only [split]
    split
    · simp
    · split <;> simp

theorem not_mem_of_mem_split {cs piece : List Char} (h : piece ∈ split sep cs) : sep ∉ piece := by
  induction cs generalizing piece with
  | nil => simp_all [split]
  | cons c cs ih =>
    simp only [split] at h
    split at h
    case isTrue => grind
    case isFalse => grind [split_ne_nil]

theorem split_of_not_mem {piece : List Char} (h : sep ∉ piece) : split sep piece = [piece] := by
  induction piece with
  | nil => rfl
  | cons c piece ih =>
    have ne : c ≠ sep := by grind
    have rest : split sep piece = [piece] := ih (by grind)
    simp only [split, if_neg ne, rest]

theorem split_append (cs ds : List Char) :
    split sep (cs ++ sep :: ds) = split sep cs ++ split sep ds := by
  induction cs with
  | nil => simp [split]
  | cons c cs ih =>
    rw [List.cons_append, split, split, ih]
    by_cases same : c = sep
    · rw [if_pos same, if_pos same, List.cons_append]
    · rw [if_neg same, if_neg same]
      cases pieces : split sep cs with
      | nil => exact absurd pieces (split_ne_nil cs)
      | cons piece pieces => rfl

theorem split_append_cons {piece : List Char} (h : sep ∉ piece) (cs : List Char) :
    split sep (piece ++ sep :: cs) = piece :: split sep cs := by
  rw [split_append, split_of_not_mem h, List.singleton_append]

theorem split_intercalate {pieces : List (List Char)} (some : pieces ≠ [])
    (h : ∀ piece ∈ pieces, sep ∉ piece) : split sep ([sep].intercalate pieces) = pieces := by
  induction pieces with
  | nil => exact absurd rfl some
  | cons piece pieces ih =>
    have first : sep ∉ piece := h piece (by simp)
    cases pieces with
    | nil => simpa using split_of_not_mem first
    | cons next pieces =>
      have rest := ih (by simp) fun p hp => h p (List.mem_cons_of_mem _ hp)
      rw [List.intercalate_cons_cons, List.append_assoc, List.singleton_append,
        split_append_cons first, rest]

end Text

namespace Path

/-- A component that a piece between slashes can stand for. -/
def Component.Written : Component → Prop
  | .parent => True
  | .name s => component? s.toList = some (.name s) ∧ '/' ∉ s.toList
  | _ => False

/-- What normal paths are made of, the last component first: names, below them the parents or the
root that the path starts with. -/
inductive Normal : List Component → Prop
  | empty : Normal []
  | root : Normal [.root]
  | parent {stack} (parents : ∀ c ∈ stack, c = .parent) : Normal (.parent :: stack)
  | name {s stack} (written : (Component.name s).Written) (below : Normal stack) :
      Normal (.name s :: stack)

theorem written_of_component? {piece : List Char} {c : Component} (noSlash : '/' ∉ piece)
    (h : component? piece = some c) : c.Written := by
  have whole := h
  unfold component? at h
  split at h
  · simp at h
  · split at h
    · cases h
      trivial
    · cases h
      exact ⟨by simpa using whole, by simpa using noSlash⟩

theorem normal_parents {stack : List Component} (h : ∀ c ∈ stack, c = .parent) : Normal stack := by
  cases stack with
  | nil => exact .empty
  | cons c stack =>
    obtain rfl := h c (by simp)
    exact .parent fun d hd => h d (List.mem_cons_of_mem _ hd)

theorem normalStep_parent {stack : List Component} (h : ∀ c ∈ stack, c = .parent) :
    normalStep stack .parent = .parent :: stack := by
  cases stack with
  | nil => rfl
  | cons c stack =>
    obtain rfl := h c (by simp)
    have noRoot : Component.root ∉ Component.parent :: stack := by
      intro hr
      exact absurd (h _ hr) (by simp)
    simp only [normalStep, if_neg noRoot]

theorem Normal.step {stack : List Component} {c : Component} (h : Normal stack)
    (written : c.Written) : Normal (normalStep stack c) := by
  cases c with
  | root | current => exact absurd written (by simp [Component.Written])
  | name s => exact .name written h
  | parent =>
    cases h with
    | empty => exact .parent (by simp)
    | root => exact .root
    | name _ below => exact below
    | @parent stack parents =>
      have all : ∀ c ∈ Component.parent :: stack, c = .parent := by simpa using parents
      rw [normalStep_parent all]
      exact .parent all

theorem Normal.steps {stack cs : List Component} (h : Normal stack)
    (written : ∀ c ∈ cs, c.Written) :
    Normal (cs.foldl normalStep stack) := by
  induction cs generalizing stack with
  | nil => exact h
  | cons c cs ih =>
    exact ih (h.step (written c (by simp))) fun d hd => written d (List.mem_cons_of_mem _ hd)

theorem written_of_mem {pieces : List (List Char)} (noSlash : ∀ piece ∈ pieces, '/' ∉ piece) :
    ∀ c ∈ pieces.filterMap component?, c.Written := by
  intro c hc
  obtain ⟨piece, hp, h⟩ := List.mem_filterMap.mp hc
  exact written_of_component? (noSlash piece hp) h

theorem normal_components (p : Path) : Normal (p.components.foldl normalStep []) := by
  unfold components
  split
  · exact Normal.root.steps (written_of_mem fun piece => Text.not_mem_of_mem_split)
  · split
    case h_1 cs _ pieces h =>
      have noSlash : ∀ piece ∈ pieces, '/' ∉ piece := fun piece hp =>
        Text.not_mem_of_mem_split (h ▸ List.mem_cons_of_mem _ hp)
      rw [List.foldl_cons]
      exact Normal.empty.steps (written_of_mem noSlash)
    case h_2 => exact Normal.empty.steps (written_of_mem fun piece => Text.not_mem_of_mem_split)

theorem Normal.foldl_reverse {stack : List Component} (h : Normal stack) :
    stack.reverse.foldl normalStep [] = stack := by
  induction stack with
  | nil => rfl
  | cons c stack ih =>
    rw [List.reverse_cons, List.foldl_append]
    cases h with
    | root => rfl
    | parent parents =>
      rw [ih (normal_parents parents)]
      exact normalStep_parent parents
    | name _ below =>
      rw [ih below]
      rfl

theorem Normal.cases {stack : List Component} (h : Normal stack) :
    (∀ c ∈ stack.reverse, c.Written) ∨
      ∃ names, stack.reverse = .root :: names ∧ ∀ c ∈ names, c.Written := by
  induction h with
  | empty => exact .inl (by simp)
  | root => exact .inr ⟨[], rfl, by simp⟩
  | @parent stack parents =>
    refine .inl fun c hc => ?_
    obtain h | rfl : c ∈ stack ∨ c = .parent := by simpa using hc
    · obtain rfl := parents c h
      trivial
    · trivial
  | @name s stack written _ ih =>
    obtain all | ⟨names, eq, all⟩ := ih
    · refine .inl fun c hc => ?_
      obtain h | rfl : c ∈ stack ∨ c = .name s := by simpa using hc
      · exact all c (by simpa using h)
      · exact written
    · refine .inr ⟨names ++ [.name s], by simp [eq], fun c hc => ?_⟩
      obtain h | rfl : c ∈ names ∨ c = .name s := by simpa using hc
      · exact all c h
      · exact written

section

variable {c : Component} {cs : List Component}

theorem Component.Written.noSlash (h : c.Written) : '/' ∉ c.text.toList := by
  cases c with
  | root | current => exact absurd h (by simp [Component.Written])
  | parent => decide
  | name s => exact h.2

theorem Component.Written.component? (h : c.Written) : component? c.text.toList = some c := by
  cases c with
  | root | current => exact absurd h (by simp [Component.Written])
  | parent => rfl
  | name s => exact h.1

theorem filterMap_component? (h : ∀ c ∈ cs, c.Written) :
    (cs.map fun c => c.text.toList).filterMap component? = cs := by
  induction cs with
  | nil => rfl
  | cons c cs ih =>
    have rest := ih fun d hd => h d (List.mem_cons_of_mem _ hd)
    rw [List.map_cons, List.filterMap_cons, (h c (by simp)).component?, rest]

theorem split_texts (some : cs ≠ []) (h : ∀ c ∈ cs, c.Written) :
    Text.split '/' (['/'].intercalate (cs.map fun c => c.text.toList)) =
      cs.map fun c => c.text.toList := by
  refine Text.split_intercalate (by simpa using some) fun piece hp => ?_
  obtain ⟨c, hc, rfl⟩ := List.mem_map.mp hp
  exact (h c hc).noSlash

theorem toList_ofComponents (notRoot : cs ≠ [.root]) :
    (ofComponents cs).text.toList = ['/'].intercalate (cs.map fun c => c.text.toList) := by
  have other : ofComponents cs = ⟨"/".intercalate (cs.map Component.text)⟩ := by
    unfold ofComponents
    split
    · exact absurd rfl notRoot
    · rfl
  rw [other, String.toList_intercalate, List.map_map]
  rfl

theorem components_ofComponents (h : ∀ c ∈ cs, c.Written) : (ofComponents cs).components = cs := by
  cases cs with
  | nil => rfl
  | cons c cs =>
    have notRoot : c :: cs ≠ [.root] := by
      intro eq
      obtain rfl := (List.cons.inj eq).1
      exact h .root (by simp)
    have pieces := split_texts (by simp) h
    have named := (h c (by simp)).component?
    have text := toList_ofComponents notRoot
    rw [List.map_cons] at text pieces
    -- The first piece is neither empty nor a dot, so the text starts like no other kind of path.
    have first : ∀ rest, (ofComponents (c :: cs)).text.toList ≠ '/' :: rest := by
      intro rest eq
      rw [← text, eq] at pieces
      simp only [Text.split, ↓reduceIte, List.cons.injEq] at pieces
      rw [← pieces.1] at named
      simp [Path.component?] at named
    have noDot : c.text.toList ≠ ['.'] := by
      intro eq
      rw [eq] at named
      simp [Path.component?] at named
    unfold components
    split
    case h_1 rest eq => exact absurd eq (first rest)
    case h_2 =>
      rw [text, pieces]
      split
      case h_1 eq => exact absurd (List.cons.inj eq).1 noDot
      case h_2 =>
        exact filterMap_component? h

theorem components_ofComponents_root (h : ∀ c ∈ cs, c.Written) :
    (ofComponents (.root :: cs)).components = .root :: cs := by
  cases cs with
  | nil => rfl
  | cons c cs =>
    have text : (ofComponents (.root :: c :: cs)).text.toList =
        '/' :: ['/'].intercalate ((c :: cs).map fun c => c.text.toList) := by
      rw [toList_ofComponents (by simp), List.map_cons, List.map_cons, List.intercalate_cons_cons]
      rfl
    have root : (ofComponents (.root :: c :: cs)).components =
        .root :: (Text.split '/' (['/'].intercalate ((c :: cs).map fun c =>
          c.text.toList))).filterMap component? := by
      unfold components
      rw [text]
      rfl
    rw [root, split_texts (by simp) h, filterMap_component? h]

end

theorem Normal.components_ofComponents {stack : List Component} (h : Normal stack) :
    (ofComponents stack.reverse).components = stack.reverse := by
  obtain all | ⟨names, eq, all⟩ := h.cases
  · exact Path.components_ofComponents all
  · rw [eq]
    exact components_ofComponents_root all

@[simp]
theorem normalize_normalize (p : Path) : p.normalize.normalize = p.normalize := by
  have normal := normal_components p
  have read : p.normalize.components = (p.components.foldl normalStep []).reverse :=
    normal.components_ofComponents
  calc p.normalize.normalize
      = ofComponents (p.normalize.components.foldl normalStep []).reverse := rfl
    _ = p.normalize := by rw [read, normal.foldl_reverse]; rfl

@[simp]
theorem same_self (p : Path) : p.same p = true := by
  simp [same]

end Path

end FrontEnd
