import FrontEnd.Proofs.Ty.Extent

namespace FrontEnd

/-- The types that are built from the primitive ones. A pointer may point to anything. -/
inductive Ty.Built : Ty → Prop
  | primitive {name t} (mem : (name, t) ∈ Ty.primitives) : Built t
  | pointer {t} : Built (.pointer t)
  | func {sig} : Built (.func sig)
  | array {t n} (element : Built t) : Built (.array t n)
  | record {decl} (fields : ∀ f ∈ decl.fields, Built f.ty) : Built (.record decl)

/-- The value that stands at a certain index in a value of the first type begins at this offset and
is of the second type. -/
inductive Ty.PartAt : Ty → Nat → Nat → Ty → Prop
  | element {t n i w} (inside : i < n) (size : t.size = .ok w) : PartAt (.array t n) i (i * w) t
  | field {decl l i f offset} (layout : decl.layout = .ok l) (field : decl.fields[i]? = some f)
      (start : l.offsets[i]? = some offset) : PartAt (.record decl) i offset f.ty

/-- A value of the second type is stored in a value of the first, at any depth, and begins at this
offset. -/
inductive Ty.StoredAt : Ty → Nat → Ty → Prop
  | self {t} : StoredAt t 0 t
  | part {t i offset u inner v} (part : PartAt t i offset u) (stored : StoredAt u inner v) :
      StoredAt t (offset + inner) v

namespace Layout

variable {a b n m : Nat}

/-- The alignments that there are. Of two of them, the larger is a multiple of the smaller unless
that is zero. -/
def IsGrain (a : Nat) : Prop :=
  a = 0 ∨ a.isPowerOfTwo

theorem IsGrain.max (ha : IsGrain a) (hb : IsGrain b) : IsGrain (max a b) := by
  rcases Nat.le_total a b with h | h
  · rwa [Nat.max_eq_right h]
  · rwa [Nat.max_eq_left h]

theorem Aligned.mono (aligned : Aligned n b) (le : a ≤ b) (ha : IsGrain a) (hb : IsGrain b) :
    Aligned n a := by
  obtain rfl | ⟨k, rfl⟩ := ha
  · exact .inl rfl
  obtain rfl | ⟨l, rfl⟩ := hb
  · exact absurd le (Nat.not_le.mpr (Nat.two_pow_pos k))
  · have divides := Nat.pow_dvd_pow 2 ((Nat.pow_le_pow_iff_right (by decide)).mp le)
    have multiple := aligned.resolve_left (Nat.ne_of_gt (Nat.two_pow_pos l))
    exact .inr (Nat.dvd_trans divides multiple)

theorem Aligned.add (hn : Aligned n a) (hm : Aligned m a) : Aligned (n + m) a := by
  obtain zero | divides := hn
  · exact .inl zero
  · exact hm.imp_right (Nat.dvd_add divides)

end Layout

namespace Ty

open Layout

variable {t u : Ty} {fs : List Field}
variable {f : Field} {cursor i offset offset' : Nat} {decl : Record}

theorem isGrain_grainOf (fields : ∀ f ∈ fs, IsGrain f.ty.grain) : IsGrain (grainOf fs) := by
  induction fs with
  | nil => exact .inl rfl
  | cons f fs ih =>
    obtain ⟨first, rest⟩ := List.forall_mem_cons.mp fields
    rw [grainOf_cons]
    exact first.max (ih rest)

theorem grain_record (decl : Record) : (Ty.record decl).grain = grainOf decl.fields := by
  cases decl
  rfl

theorem primitive_leaf {name : String} (mem : (name, t) ∈ primitives) :
    t.isLeaf = true ∧ t.isSized = true ∧ IsGrain t.grain := by
  have all : ∀ p ∈ primitives,
      p.2.isLeaf = true ∧ p.2.isSized = true ∧ p.2.grain ∈ [0, 2 ^ 0, 2 ^ 1, 2 ^ 2, 2 ^ 3] := by
    decide
  obtain ⟨leaf, sized, grain⟩ := all _ mem
  refine ⟨leaf, sized, ?_⟩
  rw [List.mem_cons] at grain
  refine grain.imp_right fun power => ?_
  simp only [List.mem_cons, List.not_mem_nil, or_false] at power
  obtain h | h | h | h := power
  · exact ⟨0, h⟩
  · exact ⟨1, h⟩
  · exact ⟨2, h⟩
  · exact ⟨3, h⟩

theorem Built.isGrain (h : t.Built) : IsGrain t.grain := by
  induction h with
  | primitive mem => exact (primitive_leaf mem).2.2
  | pointer | func => exact .inr ⟨3, rfl⟩
  | array _ ih => exact ih
  | @record decl _ ih =>
    rw [grain_record]
    exact isGrain_grainOf ih

theorem Built.sized (h : t.Built) : ∀ u ∈ t.stored, u.isSized = true := by
  induction h with
  | primitive mem =>
    obtain ⟨leaf, sized, -⟩ := primitive_leaf mem
    exact (forall_stored_leaf leaf).mpr sized
  | pointer | func => exact (forall_stored_leaf rfl).mpr rfl
  | array _ ih => exact forall_stored_array.mpr ⟨rfl, ih⟩
  | record _ ih => exact forall_stored_record.mpr ⟨rfl, ih⟩

theorem le_of_mem_fields {own : Field → Nat} {all : List Field → Nat}
    (cons : ∀ f fs, all (f :: fs) = max (own f) (all fs)) (mem : f ∈ fs) : own f ≤ all fs := by
  induction fs with
  | nil => cases mem
  | cons g fs ih =>
    rw [cons]
    obtain rfl | mem := List.mem_cons.mp mem
    · exact Nat.le_max_left _ _
    · exact Nat.le_trans (ih mem) (Nat.le_max_right _ _)

theorem grain_le_grainOf (mem : f ∈ fs) : f.ty.grain ≤ grainOf fs :=
  le_of_mem_fields grainOf_cons mem

theorem extent_le_widest (mem : f ∈ fs) : f.ty.extent ≤ widest fs :=
  le_of_mem_fields widest_cons mem

theorem stop_of_empty (empty : ∀ f ∈ fs, f.ty.grain = 0 ∧ f.ty.extent = 0) (cursor : Nat) :
    stop cursor fs = cursor := by
  induction fs generalizing cursor with
  | nil => rfl
  | cons f fs ih =>
    obtain ⟨⟨grain, extent⟩, rest⟩ := List.forall_mem_cons.mp empty
    rw [stop_cons, ih rest, grain, extent, roundUp, if_pos rfl]
    rfl

theorem widest_of_empty (empty : ∀ f ∈ fs, f.ty.extent = 0) : widest fs = 0 := by
  induction fs with
  | nil => rfl
  | cons f fs ih =>
    obtain ⟨extent, rest⟩ := List.forall_mem_cons.mp empty
    rw [widest_cons, ih rest, extent, Nat.max_self]

/-- What is rounded up is a multiple, also of zero, provided that it is zero then. -/
theorem dvd_roundUp {size grain : Nat} (empty : grain = 0 → size = 0) :
    grain ∣ roundUp size grain := by
  obtain zero | divides := aligned_roundUp size grain
  · rw [roundUp, if_pos zero, empty zero]
    exact Nat.dvd_zero _
  · exact divides

theorem grain_dvd_extent (t : Ty) : t.grain ∣ t.extent := by
  induction t using storage_induction with
  | leaf t leaf =>
    cases t with
    | array | record => cases leaf
    | _ => exact Nat.dvd_refl _
  | array t n ih => exact Nat.dvd_mul_right_of_dvd ih n
  | record decl ih =>
    have empty (zero : grainOf decl.fields = 0) (f : Field) (mem : f ∈ decl.fields) :
        f.ty.grain = 0 ∧ f.ty.extent = 0 := by
      have grain := Nat.le_zero.mp (zero ▸ grain_le_grainOf mem)
      exact ⟨grain, Nat.zero_dvd.mp (grain ▸ ih f mem)⟩
    obtain ⟨_ | _, name, fields, id⟩ := decl
    · exact dvd_roundUp fun zero => stop_of_empty (empty zero) 0
    · exact dvd_roundUp fun zero => widest_of_empty fun f mem => (empty zero f mem).2

/-- A field begins at a multiple of its alignment, not before the fields before it, and ends before
the fields after it. -/
theorem starts_spec (field : fs[i]? = some f) (start : (starts cursor fs)[i]? = some offset) :
    cursor ≤ offset ∧ Aligned offset f.ty.grain ∧ offset + f.ty.extent ≤ stop cursor fs := by
  induction fs generalizing cursor i with
  | nil => cases field
  | cons g fs ih =>
    have here := le_roundUp cursor g.ty.grain
    have next := le_stop (roundUp cursor g.ty.grain + g.ty.extent) fs
    rw [stop_cons]
    cases i with
    | zero =>
      obtain rfl : g = f := Option.some.inj field
      obtain rfl : roundUp cursor g.ty.grain = offset := Option.some.inj start
      exact ⟨here, aligned_roundUp _ _, next⟩
    | succ i =>
      obtain ⟨after, aligned, within⟩ := ih field start
      exact ⟨by omega, aligned, within⟩

theorem starts_ordered {j : Nat} {g : Field} (before : i < j) (first : fs[i]? = some f)
    (start : (starts cursor fs)[i]? = some offset) (second : fs[j]? = some g)
    (start' : (starts cursor fs)[j]? = some offset') : offset + f.ty.extent ≤ offset' := by
  induction fs generalizing cursor i j with
  | nil => cases first
  | cons h fs ih =>
    cases j with
    | zero => exact absurd before (Nat.not_lt_zero i)
    | succ j =>
      cases i with
      | zero =>
        obtain rfl : h = f := Option.some.inj first
        obtain rfl : roundUp cursor h.ty.grain = offset := Option.some.inj start
        have rest : fs[j]? = some g := second
        exact (starts_spec rest start').1
      | succ i => exact ih (Nat.lt_of_succ_lt_succ before) first start second start'

theorem starts_zero (field : fs[0]? = some f) (start : (starts cursor fs)[0]? = some offset) :
    offset = roundUp cursor f.ty.grain := by
  cases fs with
  | nil => cases field
  | cons g fs =>
    obtain rfl : g = f := Option.some.inj field
    exact (Option.some.inj start).symm

theorem starts_succ {g : Field} (first : fs[i]? = some f)
    (start : (starts cursor fs)[i]? = some offset) (second : fs[i + 1]? = some g)
    (start' : (starts cursor fs)[i + 1]? = some offset') :
    offset' = roundUp (offset + f.ty.extent) g.ty.grain := by
  induction fs generalizing cursor i with
  | nil => cases first
  | cons h fs ih =>
    cases i with
    | zero =>
      obtain rfl : h = f := Option.some.inj first
      obtain rfl : roundUp cursor h.ty.grain = offset := Option.some.inj start
      exact starts_zero second start'
    | succ i => exact ih first start second start'

theorem length_starts (cursor : Nat) (fs : List Field) : (starts cursor fs).length = fs.length := by
  induction fs generalizing cursor with
  | nil => rfl
  | cons f fs ih => rw [starts, List.length_cons, List.length_cons, ih]

theorem Built.measured (built : t.Built) : t.Measured :=
  Ty.measured built.sized

theorem Built.layout_eq {l : Layout} (built : (Ty.record decl).Built)
    (layout : decl.layout = .ok l) :
    l = decl.measures := by
  have sized := (forall_stored_record.mp built.sized).2
  exact ((Record.layout_eq_ok fun f mem => Ty.measured (sized f mem)).mp layout).2

theorem PartAt.field_of_record (part : (Ty.record decl).PartAt i offset u)
    (built : (Ty.record decl).Built) :
    ∃ f, decl.fields[i]? = some f ∧ decl.starts[i]? = some offset ∧ f.ty = u := by
  cases part with
  | field layout field start =>
    obtain rfl := built.layout_eq layout
    exact ⟨_, field, start, rfl⟩

theorem PartAt.built (part : t.PartAt i offset u) (built : t.Built) : u.Built := by
  cases part with
  | element inside size =>
    cases built with
    | primitive mem => cases (primitive_leaf mem).1
    | array element => exact element
  | field layout field start =>
    cases built with
    | primitive mem => cases (primitive_leaf mem).1
    | record fields => exact fields _ (List.mem_of_getElem? field)

theorem PartAt.fits (part : t.PartAt i offset u) (fits : t.Fits) : u.Fits := by
  cases part with
  | element inside size => exact (forall_stored_array.mp fits).2
  | field layout field start =>
    exact (forall_stored_record.mp fits).2 _ (List.mem_of_getElem? field)

theorem starts_record (field : decl.fields[i]? = some f) (start : decl.starts[i]? = some offset) :
    offset + f.ty.extent ≤ (Ty.record decl).extent ∧ Aligned offset f.ty.grain := by
  obtain ⟨_ | _, name, fields, id⟩ := decl
  · obtain ⟨-, aligned, within⟩ := starts_spec field start
    exact ⟨Nat.le_trans within (le_roundUp _ _), aligned⟩
  · obtain ⟨-, rfl⟩ : i < fields.length ∧ 0 = offset := by
      simpa [Record.starts, List.getElem?_replicate] using start
    refine ⟨?_, .inr (Nat.dvd_zero _)⟩
    rw [Nat.zero_add]
    exact Nat.le_trans (extent_le_widest (List.mem_of_getElem? field)) (le_roundUp _ _)

/-- What stands right inside a value begins at a multiple of its alignment, which is not above that
of the value, and ends within the value. -/
theorem PartAt.within (part : t.PartAt i offset u) (built : t.Built) :
    offset + u.extent ≤ t.extent ∧ Aligned offset u.grain ∧ u.grain ≤ t.grain := by
  have inner := part.built built
  cases part with
  | element inside size =>
    obtain ⟨-, rfl⟩ := inner.measured.size.mp size
    refine ⟨?_, .inr (Nat.dvd_mul_left_of_dvd u.grain_dvd_extent i), Nat.le_refl _⟩
    rw [extent, ← Nat.succ_mul, Nat.mul_comm u.extent]
    exact Nat.mul_le_mul_right _ inside
  | @field decl l i f offset layout field start =>
    obtain rfl := built.layout_eq layout
    obtain ⟨within, aligned⟩ := starts_record field start
    rw [grain_record]
    exact ⟨within, aligned, grain_le_grainOf (List.mem_of_getElem? field)⟩

theorem StoredAt.built (stored : t.StoredAt offset u) (built : t.Built) : u.Built := by
  induction stored with
  | self => exact built
  | part part _ ih => exact ih (part.built built)

theorem StoredAt.fits (stored : t.StoredAt offset u) (fits : t.Fits) : u.Fits := by
  induction stored with
  | self => exact fits
  | part part _ ih => exact ih (part.fits fits)

theorem StoredAt.within (stored : t.StoredAt offset u) (built : t.Built) :
    offset + u.extent ≤ t.extent ∧ Aligned offset u.grain ∧ u.grain ≤ t.grain := by
  induction stored with
  | self => exact ⟨by omega, .inr (Nat.dvd_zero _), Nat.le_refl _⟩
  | @part t i offset u inner v part stored ih =>
    have middle := part.built built
    obtain ⟨outer, start, coarse⟩ := part.within built
    obtain ⟨deep, aligned, fine⟩ := ih middle
    have start := start.mono fine (stored.built middle).isGrain middle.isGrain
    exact ⟨by omega, start.add aligned, Nat.le_trans fine coarse⟩

theorem starts_struct (struct : decl.kind = .struct) : decl.starts = starts 0 decl.fields := by
  rw [Record.starts, struct]

theorem length_record_starts (decl : Record) : decl.starts.length = decl.fields.length := by
  obtain ⟨_ | _, name, fields, id⟩ := decl
  · exact length_starts 0 fields
  · exact List.length_replicate

theorem exists_partAt (built : (Ty.record decl).Built) (fits : (Ty.record decl).Fits)
    (inside : i < decl.fields.length) :
    ∃ f offset, decl.fields[i]? = some f ∧ decl.starts[i]? = some offset ∧
      (Ty.record decl).PartAt i offset f.ty := by
  have sized := (forall_stored_record.mp built.sized).2
  have layout := (Record.layout_eq_ok fun f mem => Ty.measured (sized f mem)).mpr ⟨fits, rfl⟩
  have field := List.getElem?_eq_getElem inside
  have start := List.getElem?_eq_getElem ((length_record_starts decl).symm ▸ inside)
  exact ⟨_, _, field, start, .field layout field start⟩

theorem PartAt.ordered {j : Nat} {v : Ty} (built : t.Built)
    (struct : ∀ decl, t = .record decl → decl.kind = .struct) (first : t.PartAt i offset u)
    (second : t.PartAt j offset' v) (before : i < j) : offset + u.extent ≤ offset' := by
  have inner := first.built built
  cases t with
  | array e n =>
    cases first with
    | element _ size =>
      cases second with
      | element _ size' =>
        obtain ⟨-, rfl⟩ := inner.measured.size.mp size
        obtain ⟨-, rfl⟩ := inner.measured.size.mp size'
        rw [← Nat.succ_mul]
        exact Nat.mul_le_mul_right _ before
  | record decl =>
    obtain ⟨f, field, start, rfl⟩ := first.field_of_record built
    obtain ⟨g, field', start', rfl⟩ := second.field_of_record built
    rw [starts_struct (struct decl rfl)] at start start'
    exact starts_ordered before field start field' start'
  | _ => cases first

/-- The parts of a value are laid out as in C: each field of a record has its place; the fields of a
struct and the elements of an array come one after the other; a field of a struct begins at the
first multiple of its alignment from the end of the field before it on; the fields of a union all
begin at zero. -/
structure LaidOut (t : Ty) : Prop where
  complete : ∀ decl, t = .record decl → ∀ i < decl.fields.length, ∃ offset u, t.PartAt i offset u
  ordered : (∀ decl, t = .record decl → decl.kind = .struct) → ∀ i j offset offset' u v size,
    t.PartAt i offset u → u.size = .ok size → t.PartAt j offset' v → i < j →
      offset + size ≤ offset'
  least : ∀ decl, t = .record decl → decl.kind = .struct → ∀ i offset u alignment,
    t.PartAt i offset u → u.alignment = .ok alignment →
      IsLeast {next | (∀ j offset' v size, j + 1 = i → t.PartAt j offset' v →
        v.size = .ok size → offset' + size ≤ next) ∧ Aligned next alignment} offset
  overlaid : ∀ decl, t = .record decl → decl.kind = .union → ∀ i offset u,
    t.PartAt i offset u → offset = 0

theorem PartAt.le_of_least (built : (Ty.record decl).Built) (fits : (Ty.record decl).Fits)
    (struct : decl.kind = .struct) (part : (Ty.record decl).PartAt i offset u) {next : Nat}
    (after : ∀ j offset' v size, j + 1 = i → (Ty.record decl).PartAt j offset' v →
      v.size = .ok size → offset' + size ≤ next)
    (aligned : Aligned next u.grain) : offset ≤ next := by
  obtain ⟨f, field, start, rfl⟩ := part.field_of_record built
  cases i with
  | zero =>
    rw [starts_struct struct] at start
    rw [starts_zero field start]
    exact (isLeast_roundUp _ _).2 ⟨Nat.zero_le _, aligned⟩
  | succ j =>
    have inside : j < decl.fields.length :=
      Nat.lt_of_succ_lt (List.getElem?_eq_some_iff.mp field).1
    obtain ⟨g, offset', field', start', part'⟩ := exists_partAt built fits inside
    have size := (part'.built built).measured.size.mpr ⟨part'.fits fits, rfl⟩
    rw [starts_struct struct] at start start'
    rw [starts_succ field' start' field start]
    exact (isLeast_roundUp _ _).2 ⟨after j offset' _ _ rfl part' size, aligned⟩

theorem Built.laidOut (built : t.Built) (fits : t.Fits) : t.LaidOut where
  complete := by
    rintro decl rfl i inside
    obtain ⟨f, offset, -, -, part⟩ := exists_partAt built fits inside
    exact ⟨offset, f.ty, part⟩
  ordered := by
    intro struct i j offset offset' u v size first sized second before
    obtain ⟨-, rfl⟩ := (first.built built).measured.size.mp sized
    exact first.ordered built struct second before
  least := by
    rintro decl rfl struct i offset u alignment part computed
    obtain rfl := (part.built built).measured.grain computed
    refine ⟨⟨?_, (part.within built).2.1⟩, fun next h => ?_⟩
    · rintro j offset' v size rfl before sized
      obtain ⟨-, rfl⟩ := (before.built built).measured.size.mp sized
      refine before.ordered built ?_ part (Nat.lt_succ_self j)
      rintro _ ⟨⟩
      exact struct
    · exact part.le_of_least built fits struct h.1 h.2
  overlaid := by
    rintro decl rfl union i offset u part
    obtain ⟨f, -, start, -⟩ := part.field_of_record built
    rw [Record.starts, union] at start
    exact List.eq_of_mem_replicate (List.mem_of_getElem? start)

/-- Layouts are those of C. If a type is built from the primitive ones, and the sizes of everything
that its values store fit, then it has a size and an alignment, the size is a multiple of the
alignment, and everything that is stored in a value, at any depth, begins at a multiple of its
alignment wherever the value does, ends within the value, and is itself laid out as in C. -/
theorem laidOut_at_every_depth (built : t.Built) (fits : ∀ u ∈ t.stored, u.extent < Word.limit) :
    ∃ size alignment, t.size = .ok size ∧ t.alignment = .ok alignment ∧ alignment ∣ size ∧
      (alignment = 0 → size = 0) ∧
      ∀ offset u, t.StoredAt offset u →
        ∃ size' alignment', u.size = .ok size' ∧ u.alignment = .ok alignment' ∧
          (∀ base, Aligned base alignment → Aligned (base + offset) alignment') ∧
          offset + size' ≤ size ∧ u.LaidOut := by
  have divides := t.grain_dvd_extent
  refine ⟨t.extent, t.grain, built.measured.size.mpr ⟨fits, rfl⟩, built.measured.alignment fits,
    divides, fun zero => Nat.zero_dvd.mp (zero ▸ divides), fun offset u stored => ?_⟩
  have inner := stored.built built
  have innerFits := stored.fits fits
  obtain ⟨within, start, fine⟩ := stored.within built
  refine ⟨u.extent, u.grain, inner.measured.size.mpr ⟨innerFits, rfl⟩,
    inner.measured.alignment innerFits, fun base aligned => ?_, within, inner.laidOut innerFits⟩
  exact (aligned.mono fine inner.isGrain built.isGrain).add start

def pairDecl : Record :=
  ⟨.struct, "Pair", [⟨"tag", .uint 8⟩, ⟨"half", .int 16⟩], 1⟩

def bodyDecl : Record :=
  ⟨.union, "Body", [⟨"real", .float 64⟩, ⟨"pairs", .array (.record pairDecl) 3⟩], 2⟩

def packetDecl : Record :=
  ⟨.struct, "Packet", [⟨"flag", .int 1⟩, ⟨"none", .void⟩, ⟨"body", .record bodyDecl⟩,
    ⟨"last", .uint 32⟩], 3⟩

theorem primitive_named (name : String) (named : primitive? name = some t) : t.Built := by
  rw [primitive?, List.lookup_eq_some_iff] at named
  obtain ⟨before, after, split, -⟩ := named
  exact .primitive (split ▸ List.mem_append_right before List.mem_cons_self)

theorem built_pair : (Ty.record pairDecl).Built := by
  refine .record (List.forall_mem_cons.mpr ⟨?_, List.forall_mem_singleton.mpr ?_⟩)
  · exact primitive_named "u8" rfl
  · exact primitive_named "i16" rfl

theorem built_body : (Ty.record bodyDecl).Built := by
  refine .record (List.forall_mem_cons.mpr ⟨?_, List.forall_mem_singleton.mpr ?_⟩)
  · exact primitive_named "f64" rfl
  · exact .array built_pair

theorem built_packet : (Ty.record packetDecl).Built := by
  refine .record (List.forall_mem_cons.mpr ⟨?_, List.forall_mem_cons.mpr ⟨?_,
    List.forall_mem_cons.mpr ⟨?_, List.forall_mem_singleton.mpr ?_⟩⟩⟩)
  · exact primitive_named "bool" rfl
  · exact primitive_named "void" rfl
  · exact built_body
  · exact primitive_named "u32" rfl

theorem storedAt_packet : (Ty.record packetDecl).StoredAt 18 (.int 16) := by
  have body : (Ty.record packetDecl).PartAt 2 8 (.record bodyDecl) :=
    @PartAt.field packetDecl _ 2 ⟨"body", .record bodyDecl⟩ 8 rfl rfl rfl
  have pairs : (Ty.record bodyDecl).PartAt 1 0 (.array (.record pairDecl) 3) :=
    @PartAt.field bodyDecl _ 1 ⟨"pairs", .array (.record pairDecl) 3⟩ 0 rfl rfl rfl
  have pair : (Ty.array (.record pairDecl) 3).PartAt 2 (2 * 4) (.record pairDecl) :=
    .element (by decide) rfl
  have half : (Ty.record pairDecl).PartAt 1 2 (.int 16) :=
    @PartAt.field pairDecl _ 1 ⟨"half", .int 16⟩ 2 rfl rfl rfl
  exact .part body (.part pairs (.part pair (.part half .self)))

/-- The half word of the last pair is aligned in each packet that is, and within it. -/
theorem laidOut_at_every_depth_packet :
    (Ty.record packetDecl).StoredAt 18 (.int 16) ∧ (Ty.record packetDecl).size = .ok 32 ∧
      (∀ base, Aligned base 8 → Aligned (base + 18) 2) ∧ 18 + 2 ≤ 32 ∧
      (Ty.record packetDecl).LaidOut := by
  obtain ⟨size, alignment, sized, aligned, -, -, all⟩ :=
    laidOut_at_every_depth built_packet (by decide)
  obtain rfl : 32 = size := Except.ok.inj sized
  obtain rfl : 8 = alignment := Except.ok.inj aligned
  obtain ⟨size', alignment', sized', aligned', start, within, -⟩ := all 18 _ storedAt_packet
  obtain rfl : 2 = size' := Except.ok.inj sized'
  obtain rfl : 2 = alignment' := Except.ok.inj aligned'
  obtain ⟨-, -, -, -, -, -, whole⟩ := all 0 _ .self
  exact ⟨storedAt_packet, sized, start, within, whole⟩

end Ty

end FrontEnd
