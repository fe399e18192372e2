import FrontEnd.Proofs.Build
import FrontEnd.Proofs.Checking.Silent

namespace FrontEnd

open Check CheckState

/-- A name stands for the struct or union with the number. -/
def CheckState.Denotes (s : CheckState) (name : String) (id : Nat) : Prop :=
  ∃ decl, s.resolver.resolve (.named ⟨name, []⟩) = .record decl ∧ decl.id = id

def Ty.PointsTo (t : Ty) (id : Nat) : Prop :=
  ∃ decl, t = .pointer (.record decl) ∧ decl.id = id

/-- A field declared as a pointer to a name, taken from an object or through a pointer to it, points
to what the name stands for where the field is taken. -/
def FieldsFollowNames : Law := fun _ _ e s =>
  ∀ left right name decl f target, e.node = .binary .dot left right → right.name? = some name →
    s.context.object left.ty = .record decl →
    decl.field? (Name.bare name) = some ⟨f, .pointer (.named ⟨target, []⟩)⟩ →
    ∀ id, e.ty.PointsTo id ↔ s.Denotes target id

section

variable {imp : Importer} {s s' : CheckState} {token : Token}

theorem runs_resolveValue_of_known {t : Ty} (known : (s.resolver.resolve t).Known) :
    Runs imp (resolveValue t token) s (s.resolver.resolve t) s := by
  unfold resolveValue
  rw [runs_resolve_bind]
  split
  case h_1 ref named => exact absurd named (known ref)
  case h_2 => exact .ret

theorem runs_accessedType_of_object {object : Ty} {decl : Record}
    (isRecord : s.context.object object = .record decl) :
    Runs imp (accessedType object token) s (.record decl) s := by
  unfold accessedType
  rw [runs_resolve_bind]
  unfold Context.object at isRecord
  rw [context_resolve] at isRecord
  cases resolved : s.resolver.resolve object with
  | pointer target =>
    rw [resolved] at isRecord
    have isRecord : s.resolver.resolve target = .record decl := isRecord
    rw [← isRecord]
    apply runs_resolveValue_of_known
    rw [isRecord]
    exact nofun
  | record decl' =>
    rw [resolved] at isRecord
    obtain rfl := Ty.record.inj isRecord
    exact .ret
  | _ =>
    rw [resolved] at isRecord
    cases isRecord

theorem runs_recordField_pointer {decl : Record} {field : Expr} {name f : String} {target : Ty}
    (named : field.name? = some name)
    (declared : decl.field? (Name.bare name) = some ⟨f, .pointer target⟩) :
    Runs imp (recordField (.record decl) field token) s
      ({ field with ty := .pointer (s.resolver.resolve target) },
        .pointer (s.resolver.resolve target)) s := by
  simp only [recordField, named, Option.map_some, declared]
  have known : (s.resolver.resolve (.pointer target)).Known := nofun
  exact (runs_resolveValue_of_known known).bind .ret

theorem node_of_recordField {object : Ty} {field : Expr} {r : Expr × Ty}
    (h : Runs imp (recordField object field token) s r s') : r.1.node = field.node := by
  unfold recordField at h
  split at h
  · split at h
    · obtain ⟨_, _, _, h⟩ := runs_bind.mp h
      exact (runs_pure.mp h).1 ▸ rfl
    · split at h
      · obtain ⟨_, _, _, h⟩ := runs_bind.mp h
        exact (runs_pure.mp h).1 ▸ rfl
      · obtain ⟨_, _, _, h⟩ := runs_bind.mp h
        exact (runs_pure.mp h).1 ▸ rfl
  · exact (runs_pure.mp h).1 ▸ rfl
  · obtain ⟨_, _, _, h⟩ := runs_bind.mp h
    exact (runs_pure.mp h).1 ▸ rfl

theorem Checks.fieldsFollowNames {P : Law} {e e' : Expr} (h : Checks imp P (.node e) s e' s') :
    FieldsFollowNames e s e' s' := by
  intro left right name decl f target isAccess named isRecord declared id
  cases h with
  | @field _ field _ _ _ _ s₁ _ _ _ _ _ typed =>
    cases isAccess
    obtain ⟨ds, rfl⟩ := notes_fieldAccess.state typed
    have isRecord : s₁.context.object left.ty = .record decl := isRecord
    obtain ⟨object, s₂, accessed, taken⟩ := runs_bind.mp typed
    obtain ⟨rfl, rfl⟩ := accessed.unique (runs_accessedType_of_object isRecord)
    have named : field.name? = some name := by
      rw [← named, Expr.name?, Expr.name?, node_of_recordField taken]
    obtain ⟨same, _⟩ := taken.unique (runs_recordField_pointer named declared)
    obtain ⟨_, rfl⟩ := Prod.mk.inj same
    constructor
    · rintro ⟨found, pointer, rfl⟩
      exact ⟨found, Ty.pointer.inj pointer, rfl⟩
    · rintro ⟨found, meaning, rfl⟩
      exact ⟨found, congrArg Ty.pointer meaning, rfl⟩
  | member _ typed =>
    cases isAccess
    exact absurd isRecord nofun
  | binary notDot _ _ _ _ =>
    cases isAccess
    exact absurd rfl notDot
  | literal literal => simp [Expr.isLiteral, isAccess] at literal
  | _ => exact absurd isAccess (by simp [todo])

end

namespace Build

/-- In every unit that is accepted, a field declared as a pointer to a name points to the type
with a number exactly if the name stands for that type where the field is taken. -/
theorem fields_follow_names {n : Nat} {source : String} {path : Path} {typeArgs : List Ty}
    {session session' : Session} {unit : CheckedUnit}
    (accepted : within (n + 1) source path typeArgs session = .ok (.ok unit, session')) :
    ∃ s, Checks (within n) FieldsFollowNames
        (.top (reading source path typeArgs session).program.statements)
        (begun source path typeArgs session) unit.program.statements s ∧
      s.env = unit.env ∧ s.session = session' := by
  obtain ⟨steady, total⟩ := within_steady_total n
  have ok : Lawful (within n) FieldsFollowNames := by
    refine ⟨steady, total, fun e s e' s' h => ?_⟩
    have any : Lawful (within n) fun _ _ _ _ => True := ⟨steady, total, fun _ _ _ _ _ => trivial⟩
    obtain ⟨_, _, derived⟩ := total_expr any e s
    obtain ⟨rfl, rfl⟩ := h.unique derived.runs
    cases derived with
    | expr node _ => exact node.fieldsFollowNames
  cases unitWith_eq_ok.mp accepted with
  | accepted readable checked noErrors => exact ⟨_, Checks.of_runs ok checked, rfl, rfl⟩

theorem fields_follow_names_node :
    ∃ unit session,
      within 1 "struct Node \x7b next *Node \x7d; func f(n *Node) \x7b x := n.next \x7d"
        ⟨"main.cd"⟩ [] (.start .default (.ofFiles [])) = .ok (.ok unit, session) ∧
      ∃ s, Checks (within 0) FieldsFollowNames
          (.top (reading "struct Node \x7b next *Node \x7d; func f(n *Node) \x7b x := n.next \x7d"
            ⟨"main.cd"⟩ [] (.start .default (.ofFiles []))).program.statements)
          (begun "struct Node \x7b next *Node \x7d; func f(n *Node) \x7b x := n.next \x7d"
            ⟨"main.cd"⟩
            [] (.start .default (.ofFiles []))) unit.program.statements s ∧
        s.env = unit.env ∧ s.session = session := by
  refine exists_of_accepts ?_ fun accepted => fields_follow_names accepted
  decide +kernel

/-- Names are not lexically scoped: a field of the outer `S` points to `Node` 1 where it is
declared, and to `Node` 3, which has the name inside the function, where it is taken. -/
theorem field_not_lexically_scoped :
    (match file ("struct Node \x7b v i32 \x7d\nstruct S \x7b next *Node \x7d\nfunc f(s S) \x7b\n" ++
        " struct Node \x7b w i64 \x7d\n x := s.next\n\x7d") ⟨"main.cd"⟩
        (.start .default (.ofFiles [])) with
      | .ok (.ok ⟨⟨_, [.record _ outer, .record _ owner, .function _ _ [.record _ inner,
          .declare _ _ _ ⟨.binary .dot ⟨_, .record object, _⟩ _, .pointer (.record found), _⟩]]⟩,
            _⟩, _) =>
        match owner.field? "next" with
        | some ⟨_, .pointer (.named ref)⟩ =>
          some (object.id == owner.id, ref == ⟨outer.name, []⟩, outer.id, inner.id, found.id)
        | _ => none
      | _ => none) = some (true, true, 1, 3, 3) := by
  decide +kernel

end Build

end FrontEnd
