import FrontEnd.Proofs.Reading.Natural
import FrontEnd.Proofs.Syntax.Labels
import FrontEnd.Proofs.Ty.Records

namespace FrontEnd

namespace Position

open Classical in
/-- Moves a position aside unless it is one of `starts`. -/
noncomputable def aside (starts : List Position) (p : Position) : Position :=
  if p ∈ starts then p else { p with column := p.column + 1 }

variable {starts : List Position} {p : Position}

theorem aside_eq_self : p.aside starts = p ↔ p ∈ starts := by
  by_cases listed : p ∈ starts
  · simp [aside, listed]
  · have moved : { p with column := p.column + 1 } ≠ p := fun same =>
      Nat.succ_ne_self _ (congrArg Position.column same)
    simp [aside, listed, moved]

theorem line_aside : (p.aside starts).line = p.line := by
  unfold aside
  split <;> rfl

theorem offset_aside : (p.aside starts).offset = p.offset := by
  unfold aside
  split <;> rfl

end Position

namespace Ty

open Classical in
mutual

/-- Leaves out the records that are not as `D` says, on the outside or inside. -/
noncomputable def sieve (D : Record → Prop) : Ty → Ty
  | .pointer t => .pointer (t.sieve D)
  | .array t n => .array (t.sieve D) n
  | .func ⟨name, params, names, result⟩ =>
    .func ⟨name, sieveAll D params, names, result.sieve D⟩
  | .record decl => if (Ty.record decl).Of D then .record decl else .todo
  | t => t

noncomputable def sieveAll (D : Record → Prop) : List Ty → List Ty
  | [] => []
  | t :: ts => t.sieve D :: sieveAll D ts

end

variable {D : Record → Prop}

theorem sieveAll_eq_map (ts : List Ty) : sieveAll D ts = ts.map (sieve D) := by
  induction ts with
  | nil => rfl
  | cons t ts ih => rw [sieveAll, ih, List.map_cons]

mutual

theorem sieve_eq_self : ∀ t : Ty, t.sieve D = t ↔ t.Of D
  | .pointer t => by simp [sieve, sieve_eq_self t]
  | .array t _ => by simp [sieve, sieve_eq_self t]
  | .func ⟨_, params, _, result⟩ => by
    simp [sieve, sieveAll_eq_self params, sieve_eq_self result]
  | .record decl => by
    by_cases h : (Ty.record decl).Of D
    · simp only [sieve, h, if_true]
    · simp only [sieve, h, if_false, reduceCtorEq]
  | .void | .int _ | .uint _ | .float _ | .named _ | .module _ | .todo =>
    ⟨fun _ => nofun, fun _ => rfl⟩

theorem sieveAll_eq_self : ∀ ts : List Ty, sieveAll D ts = ts ↔ ∀ t ∈ ts, t.Of D
  | [] => by simp [sieveAll]
  | t :: ts => by simp [sieveAll, sieve_eq_self t, sieveAll_eq_self ts]

end

end Ty

namespace Translation

/-- All that does not stand at one of `starts` is moved aside. -/
noncomputable def aside (starts : List Position) : Translation :=
  { identity with
    span := fun s => ⟨s.start.aside starts, s.stop⟩
    place := Position.aside starts
    start_span := fun _ => rfl
    line := fun _ _ _ _ => by rw [Position.line_aside, Position.line_aside]
    offset := fun _ _ => by rw [Position.offset_aside, Position.offset_aside] }

/-- All types are put through a sieve. -/
noncomputable def sieve (D : Record → Prop) : Translation :=
  { identity with
    type := Ty.sieve D
    void := rfl
    int := fun _ => rfl
    uint := fun _ => rfl
    float := fun _ => rfl
    todo := rfl
    pointer := fun _ => rfl
    array := fun _ _ => rfl
    func := fun ⟨_, _, _, _⟩ => by simp [Ty.sieve, Ty.sieveAll_eq_map, identity]
    named := fun ⟨_, _⟩ => by simp [Ty.sieve, identity] }

end Translation

def Cursor.starts (c : Cursor) : List Position :=
  c.tokens.map Token.start

namespace Label

def StartsIn (starts : List Position) : Label → Prop
  | .token t => t.start ∈ starts
  | _ => True

def Of (D : Record → Prop) : Label → Prop
  | .token _ => True
  | .type t | .inferred t => t.Of D
  | .record decl => ∀ f ∈ decl.fields, f.ty.Of D
  | .signature sig => (Ty.func sig).Of D

end Label

namespace Program

variable (c : Cursor) (o : ReadOptions)

/-- Reading does not look at columns: were there an error or a token in the tree that stands
elsewhere, moving it aside would go unnoticed. -/
theorem read_aside :
    (∀ d ∈ (read c o).errors, d.position ∈ c.starts) ∧
      ∀ l ∈ Stmt.labelsOf (read c o).program.statements, l.StartsIn c.starts := by
  have still (t : Token) (ht : t ∈ c.tokens) : (Translation.aside c.starts).token t = t := by
    have start : t.start.aside c.starts = t.start :=
      Position.aside_eq_self.mpr (List.mem_map_of_mem ht)
    change (⟨t.kind, t.value, ⟨t.start.aside c.starts, t.span.stop⟩⟩ : Token) = t
    rw [start]
    rfl
  have options : (Translation.aside c.starts).options o = o := by
    obtain ⟨unit, typeArgs, nextId, maxErrors⟩ := o
    simp [Translation.options, Translation.aside, Translation.identity]
  have same :=
    (Translation.aside c.starts).read_options c trivial still (fun _ _ => trivial) (o := o)
  rw [options] at same
  constructor
  · have errors := congrArg ReadResult.errors same
    intro d hd
    have kept := List.map_inj_left.mp (errors.symm.trans (List.map_id _).symm) d hd
    exact Position.aside_eq_self.mp (congrArg Diagnostic.position kept)
  · have tree := congrArg (fun r => r.program.statements) same
    intro l hl
    have kept := (Translation.aside c.starts).tree.label_of_stmts tree.symm l hl
    cases l with
    | token t =>
      have start := congrArg Token.start (Label.token.inj kept)
      rw [show (Translation.aside c.starts).tree.token t = (Translation.aside c.starts).token t
        from rfl, Translation.start_token] at start
      exact Position.aside_eq_self.mp start
    | _ => trivial

theorem read_sieve {D : Record → Prop} (args : ∀ t ∈ o.typeArgs, t.Of D) :
    ∀ l ∈ Stmt.labelsOf (read c o).program.statements, l.Of D := by
  have still : (Translation.sieve D).Still := {}
  have options : (Translation.sieve D).options o = o := by
    obtain ⟨unit, typeArgs, nextId, maxErrors⟩ := o
    have all : typeArgs.map (Ty.sieve D) = typeArgs := by
      rw [← Ty.sieveAll_eq_map]
      exact (Ty.sieveAll_eq_self typeArgs).mpr args
    simp [Translation.options, Translation.sieve, Translation.identity, all]
  have same := still.read_options c trivial (o := o)
  rw [options] at same
  have tree := congrArg (fun r => r.program.statements) same
  intro l hl
  have kept := (Translation.sieve D).tree.label_of_stmts tree.symm l hl
  cases l with
  | token t => trivial
  | type t => exact (Ty.sieve_eq_self t).mp (Label.type.inj kept)
  | inferred t => exact (Ty.sieve_eq_self t).mp (Label.inferred.inj kept)
  | signature sig =>
    have func : (Ty.func sig).sieve D = .func ((Translation.sieve D).signature sig) :=
      (Translation.sieve D).func sig
    exact (Ty.sieve_eq_self _).mp (func.trans (congrArg Ty.func (Label.signature.inj kept)))
  | record decl =>
    have fields := congrArg Record.fields (Label.record.inj kept)
    intro f hf
    have field := List.map_inj_left.mp (fields.trans (List.map_id _).symm) f hf
    exact (Ty.sieve_eq_self f.ty).mp (congrArg Field.ty field)

end Program

end FrontEnd
