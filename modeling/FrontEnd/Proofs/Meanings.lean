import FrontEnd.Proofs.Sessions

namespace FrontEnd

mutual

/-- The references outside records. -/
def Ty.refs : Ty → List TypeRef
  | .pointer t => t.refs
  | .array t _ => t.refs
  | .func ⟨_, params, _, result⟩ => Ty.refsOf params ++ result.refs
  | .named ref => [ref]
  | _ => []

def Ty.refsOf : List Ty → List TypeRef
  | [] => []
  | t :: ts => t.refs ++ Ty.refsOf ts

end

mutual

theorem Ty.bind_congr {f g : TypeRef → Ty} (t : Ty) (h : ∀ ref ∈ t.refs, f ref = g ref) :
    t.bind f = t.bind g := by
  match t with
  | .pointer t => exact congrArg Ty.pointer (t.bind_congr h)
  | .array t n => exact congrArg (Ty.array · n) (t.bind_congr h)
  | .func ⟨_, params, _, result⟩ =>
    have given := Ty.bindAll_congr params fun ref mem => h ref (List.mem_append_left _ mem)
    have returned := result.bind_congr fun ref mem => h ref (List.mem_append_right _ mem)
    simp only [Ty.bind, given, returned]
  | .named ref => exact h ref List.mem_cons_self
  | .record _ | .void | .int _ | .uint _ | .float _ | .module _ | .todo => rfl

theorem Ty.bindAll_congr {f g : TypeRef → Ty} (ts : List Ty)
    (h : ∀ ref ∈ Ty.refsOf ts, f ref = g ref) : Ty.bindAll f ts = Ty.bindAll g ts := by
  match ts with
  | [] => rfl
  | t :: ts =>
    have first := t.bind_congr fun ref mem => h ref (List.mem_append_left _ mem)
    have rest := Ty.bindAll_congr ts fun ref mem => h ref (List.mem_append_right _ mem)
    rw [Ty.bindAll, Ty.bindAll, first, rest]

end

def CheckedUnit.resolver (unit : CheckedUnit) (s : Session) : Resolver :=
  ⟨unit.env.lookup s.registry, 0⟩

theorem Resolver.resolve_congr {f g : TypeRef → Option Ty} {t : Ty}
    (h : ∀ ref ∈ t.refs, f ref = g ref) :
    Resolver.resolve ⟨f, 0⟩ t = Resolver.resolve ⟨g, 0⟩ t := by
  refine t.bind_congr fun ref mem => ?_
  have same : Resolver.meaning? ⟨f, 0⟩ ref = Resolver.meaning? ⟨g, 0⟩ ref :=
    congrArg (Option.filter _) (h ref mem)
  dsimp only
  rw [same]
  cases Resolver.meaning? ⟨g, 0⟩ ref <;> rfl

theorem Environment.Registered.lookup {first : Nat} {registry : List (String × Ty)}
    {e : Environment} (h : e.Registered first registry) {ref : TypeRef} (noPath : ref.modules = [])
    (other : ref.name ≠ "main") : e.lookup registry ref = registry.lookup ref.name := by
  cases h with
  | intro types _ =>
    rw [Environment.lookup, noPath, Environment.type?]
    cases found : e.types.get? ref.name with
    | none => rfl
    | some t => exact (types other found).1.symm

variable {config : Config} {loader : Loader}

/-- A type in which every reference is looked up without a path, and under another name than `main`,
means the same to a unit of the session and to the units that it imports. -/
theorem Session.Used.types_mean_same {s : Session} {units : List CheckedUnit}
    (h : Session.Used config loader s units) {root unit module : CheckedUnit} (mem : root ∈ units)
    (uses : Relation.ReflTransGen CheckedUnit.Uses root unit) (imports : unit.Uses module) {t : Ty}
    (plain : ∀ ref ∈ t.refs, ref.modules = [] ∧ ref.name ≠ "main") :
    (unit.resolver s).resolve t = (module.resolver s).resolve t := by
  have outside := h.registered mem uses
  have inside := h.registered mem (uses.tail imports)
  refine Resolver.resolve_congr fun ref refers => ?_
  obtain ⟨noPath, other⟩ := plain ref refers
  rw [outside.lookup noPath other, inside.lookup noPath other]

/-- The fields of the types with this name in the modules of a unit: what refers to other types, and
whether it means the same to the unit. -/
def CheckedUnit.fieldMeanings (unit : CheckedUnit) (s : Session) (name : String) :
    List (List TypeRef × Bool) :=
  unit.env.modules.flatMap fun p =>
    match p.2.unit.env.types.get? name with
    | some (.record decl) => decl.fields.map fun f =>
      (f.ty.refs, ((unit.resolver s).resolve f.ty).agrees ((p.2.unit.resolver s).resolve f.ty))
    | _ => []

namespace Build

/-- A list that is declared in a module, and a type that its declaration refers to before it is
declared. -/
theorem types_mean_same_node :
    let source := "import u, \"u.cd\""
    let loader := Loader.ofFiles
      [("u.cd", "struct Node \x7b next *Node, leaf *Leaf \x7d\nstruct Leaf \x7b v i32 \x7d")]
    ∃ unit s module decl, file source ⟨"main.cd"⟩ (.start .default loader) = .ok (.ok unit, s) ∧
      unit.Uses module ∧ module.env.types.get? "Node-1" = some (.record decl) ∧
      decl.fields.map (·.ty.refs) = [[⟨"Node-1", []⟩], [⟨"Leaf-1", []⟩]] ∧
      ∀ f ∈ decl.fields, (unit.resolver s).resolve f.ty = (module.resolver s).resolve f.ty := by
  intro source loader
  have test : acceptsWith (fun unit => unit.env.modules.any fun p =>
      match p.2.unit.env.types.get? "Node-1" with
      | some (.record decl) => decl.fields.map (·.ty.refs) = [[⟨"Node-1", []⟩], [⟨"Leaf-1", []⟩]]
      | _ => false) (file source ⟨"main.cd"⟩ (.start .default loader)) = true := by
    decide +kernel
  obtain ⟨unit, s, accepted, found⟩ := exists_of_acceptsWith test
  obtain ⟨p, mem, found⟩ := List.any_eq_true.mp found
  split at found
  case h_2 => cases found
  case h_1 decl known =>
    have refs := of_decide_eq_true found
    refine ⟨unit, s, p.2.unit, decl, accepted, ⟨p, mem, rfl⟩, known, refs, fun f hf => ?_⟩
    have used := Session.Used.start.built accepted
    refine used.types_mean_same List.mem_cons_self .refl ⟨p, mem, rfl⟩ fun ref refers => ?_
    have listed : f.ty.refs ∈ decl.fields.map (·.ty.refs) := List.mem_map_of_mem hf
    rw [refs, List.mem_pair] at listed
    obtain own | own := listed
    · obtain rfl := List.mem_singleton.mp (own ▸ refers)
      decide
    · obtain rfl := List.mem_singleton.mp (own ▸ refers)
      decide

/-- A field that refers to a type through a module of its own unit, and one that refers to `main`,
mean something else to the unit that imports them. -/
theorem fields_misread :
    (match file "import u, \"u.cd\"" ⟨"main.cd"⟩ (.start .default (.ofFiles
        [("u.cd", "import w, \"w.cd\"\nstruct S \x7b p *w.T \x7d"),
          ("w.cd", "struct T \x7b i i32 \x7d")])) with
      | .ok (.ok unit, s) => unit.fieldMeanings s "S-1"
      | _ => []) = [([⟨"T-1", ["w-1"]⟩], false)] ∧
    (match file "import u, \"u.cd\"\nstruct main \x7b i i64 \x7d" ⟨"main.cd"⟩
        (.start .default (.ofFiles
          [("u.cd", "struct main \x7b i i32 \x7d\nstruct S \x7b p *main \x7d")])) with
      | .ok (.ok unit, s) => unit.fieldMeanings s "S-2"
      | _ => []) = [([⟨"main", []⟩], false)] := by
  decide +kernel

end Build

end FrontEnd
