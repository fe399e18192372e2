import FrontEnd.Ty.Layout
import Mathlib.Data.List.Forall2
import Mathlib.Order.Bounds.Defs

namespace FrontEnd

namespace Layout

/-- An address that is a multiple of an alignment; zero aligns nothing. -/
def Aligned (address alignment : Nat) : Prop :=
  alignment = 0 ∨ alignment ∣ address

def roundUp (address alignment : Nat) : Nat :=
  if alignment = 0 then address else (address + (alignment - 1)) / alignment * alignment

variable {address alignment : Nat}

theorem aligned_roundUp (address alignment : Nat) :
    Aligned (roundUp address alignment) alignment := by
  unfold Aligned roundUp
  split
  case isTrue zero => exact .inl zero
  case isFalse => exact .inr (Nat.dvd_mul_left _ _)

theorem le_roundUp (address alignment : Nat) : address ≤ roundUp address alignment := by
  unfold roundUp
  split
  case isTrue => exact Nat.le_refl _
  case isFalse =>
    have cut := Nat.div_add_mod' (address + (alignment - 1)) alignment
    have rest := Nat.mod_lt (address + (alignment - 1)) (Nat.pos_of_ne_zero ‹_›)
    omega

theorem roundUp_le {next : Nat} (after : address ≤ next) (aligned : Aligned next alignment) :
    roundUp address alignment ≤ next := by
  unfold roundUp
  split
  case isTrue => exact after
  case isFalse nonzero =>
    obtain ⟨k, rfl⟩ := aligned.resolve_left nonzero
    rw [Nat.mul_comm alignment k]
    refine Nat.mul_le_mul_right alignment (Nat.le_of_lt_succ ?_)
    rw [Nat.div_lt_iff_lt_mul (Nat.pos_of_ne_zero nonzero), Nat.succ_mul, Nat.mul_comm k]
    omega

theorem isLeast_roundUp (address alignment : Nat) :
    IsLeast {next | address ≤ next ∧ Aligned next alignment} (roundUp address alignment) :=
  ⟨⟨le_roundUp _ _, aligned_roundUp _ _⟩, fun _ h => roundUp_le h.1 h.2⟩

theorem padding_lt (address : Nat) (nonzero : alignment ≠ 0) :
    padding address alignment < alignment := by
  rw [padding, if_neg nonzero]
  exact Nat.mod_lt _ (Nat.pos_of_ne_zero nonzero)

theorem aligned_add_padding (address alignment : Nat) :
    Aligned (address + padding address alignment) alignment := by
  unfold Aligned padding
  split
  case isTrue zero => exact .inl zero
  case isFalse nonzero =>
    refine .inr (Nat.dvd_of_mod_eq_zero ?_)
    have rest := Nat.mod_lt address (Nat.pos_of_ne_zero nonzero)
    rw [Nat.add_mod, Nat.mod_mod, ← Nat.add_mod, ← Nat.mod_add_mod,
      Nat.add_sub_of_le (Nat.le_of_lt rest), Nat.mod_self]

theorem add_padding (address alignment : Nat) :
    address + padding address alignment = roundUp address alignment := by
  have aligned := aligned_add_padding address alignment
  refine Nat.le_antisymm ?_ (roundUp_le (Nat.le_add_right _ _) aligned)
  by_cases zero : alignment = 0
  · rw [padding, if_pos zero]
    exact le_roundUp _ _
  · -- Two multiples that are less than the alignment apart are the same.
    refine Nat.le_of_not_lt fun less => ?_
    have apart := Nat.dvd_sub (aligned.resolve_left zero)
      ((aligned_roundUp address alignment).resolve_left zero)
    have short := padding_lt address zero
    have after := le_roundUp address alignment
    exact absurd (Nat.le_of_dvd (by omega) apart) (by omega)

theorem sum_eq_ok {a b n : Nat} : sum a b = .ok n ↔ a + b < Word.limit ∧ n = a + b := by
  unfold sum
  split
  case isTrue fits => simp [fits, eq_comm]
  case isFalse large => simp [large]

theorem product_eq_ok {a b n : Nat} : product a b = .ok n ↔ a * b < Word.limit ∧ n = a * b := by
  unfold product
  split
  case isTrue fits => simp [fits, eq_comm]
  case isFalse large => simp [large]

theorem bind_eq_ok {α β : Type} {x : Except LayoutError α} {f : α → Except LayoutError β} {b : β} :
    x >>= f = .ok b ↔ ∃ a, x = .ok a ∧ f a = .ok b := by
  cases x with
  | error e => simp [bind, Except.bind]
  | ok a => simp [bind, Except.bind]

theorem pure_eq_ok {α : Type} {a b : α} : (pure a : Except LayoutError α) = .ok b ↔ b = a := by
  simp [pure, Except.pure, eq_comm]

theorem place_eq_ok {l l' : Layout} {size alignment : Nat} :
    l.place size alignment = .ok l' ↔
      roundUp l.size alignment + size < Word.limit ∧
        l' = ⟨roundUp l.size alignment + size, max l.alignment alignment,
          l.offsets ++ [roundUp l.size alignment]⟩ := by
  simp only [place, bind_eq_ok, sum_eq_ok, pure_eq_ok, add_padding]
  constructor
  · rintro ⟨offset, ⟨-, rfl⟩, stop, ⟨fits, rfl⟩, rfl⟩
    exact ⟨fits, rfl⟩
  · rintro ⟨fits, rfl⟩
    exact ⟨_, ⟨by omega, rfl⟩, _, ⟨fits, rfl⟩, rfl⟩

theorem close_eq_ok {l l' : Layout} :
    l.close = .ok l' ↔ roundUp l.size l.alignment < Word.limit ∧
      l' = { l with size := roundUp l.size l.alignment } := by
  simp only [close, bind_eq_ok, sum_eq_ok, pure_eq_ok, add_padding]
  constructor
  · rintro ⟨size, ⟨fits, rfl⟩, rfl⟩
    exact ⟨fits, rfl⟩
  · rintro ⟨fits, rfl⟩
    exact ⟨_, ⟨fits, rfl⟩, rfl⟩

end Layout

mutual

def Ty.grain : Ty → Nat
  | .int bits | .uint bits | .float bits => Layout.bytes bits
  | .pointer _ | .func _ => Layout.pointerSize
  | .array t _ => t.grain
  | .record ⟨_, _, fields, _⟩ => Ty.grainOf fields
  | .void | .named _ | .module _ | .todo => 0

def Ty.grainOf : List Field → Nat
  | [] => 0
  | ⟨_, t⟩ :: fields => max t.grain (Ty.grainOf fields)

end

mutual

/-- The size of a type by the rules of C, without a bound on numbers. The size of a record is
rounded up to a multiple of its alignment. -/
def Ty.extent : Ty → Nat
  | .int bits | .uint bits | .float bits => Layout.bytes bits
  | .pointer _ | .func _ => Layout.pointerSize
  | .array t n => t.extent * n
  | .record ⟨.struct, _, fields, _⟩ => Layout.roundUp (Ty.stop 0 fields) (Ty.grainOf fields)
  | .record ⟨.union, _, fields, _⟩ => Layout.roundUp (Ty.widest fields) (Ty.grainOf fields)
  | .void | .named _ | .module _ | .todo => 0

/-- Where fields end that are put one after the other, each at the next multiple of its
alignment. -/
def Ty.stop (cursor : Nat) : List Field → Nat
  | [] => cursor
  | ⟨_, t⟩ :: fields => Ty.stop (Layout.roundUp cursor t.grain + t.extent) fields

def Ty.widest : List Field → Nat
  | [] => 0
  | ⟨_, t⟩ :: fields => max t.extent (Ty.widest fields)

end

def Ty.starts (cursor : Nat) : List Field → List Nat
  | [] => []
  | f :: fields =>
    Layout.roundUp cursor f.ty.grain ::
      Ty.starts (Layout.roundUp cursor f.ty.grain + f.ty.extent) fields

def Record.starts (decl : Record) : List Nat :=
  match decl.kind with
  | .struct => Ty.starts 0 decl.fields
  | .union => List.replicate decl.fields.length 0

mutual

/-- The types whose values are stored in the values of a type: the type itself, the elements of an
array, be there any or none, and the fields of a record. -/
def Ty.stored : Ty → List Ty
  | .array t n => .array t n :: t.stored
  | .record ⟨kind, name, fields, id⟩ => .record ⟨kind, name, fields, id⟩ :: Ty.storedIn fields
  | t => [t]

def Ty.storedIn : List Field → List Ty
  | [] => []
  | ⟨_, t⟩ :: fields => t.stored ++ Ty.storedIn fields

end

namespace Ty

def isOpen : Ty → Bool
  | .named _ | .module _ | .todo => true
  | _ => false

/-- A type that has a size. The bits of a number are counted by a byte. -/
def isSized : Ty → Bool
  | .int bits | .uint bits | .float bits => bits < 256
  | .named _ | .module _ | .todo => false
  | _ => true

/-- A type whose values store no others than themselves. -/
def isLeaf : Ty → Bool
  | .array _ _ | .record _ => false
  | _ => true

mutual

@[elab_as_elim]
theorem storage_induction {P : Ty → Prop} (leaf : ∀ t, t.isLeaf = true → P t)
    (array : ∀ t n, P t → P (.array t n))
    (record : ∀ decl : Record, (∀ f ∈ decl.fields, P f.ty) → P (.record decl)) : ∀ t, P t
  | .array t n => array t n (storage_induction leaf array record t)
  | .record ⟨kind, name, fields, id⟩ =>
    record ⟨kind, name, fields, id⟩ (storage_induction_fields leaf array record fields)
  | .void | .int _ | .uint _ | .float _ | .pointer _ | .func _ | .named _ | .module _ | .todo =>
    leaf _ rfl

theorem storage_induction_fields {P : Ty → Prop} (leaf : ∀ t, t.isLeaf = true → P t)
    (array : ∀ t n, P t → P (.array t n))
    (record : ∀ decl : Record, (∀ f ∈ decl.fields, P f.ty) → P (.record decl)) :
    ∀ fs : List Field, ∀ f ∈ fs, P f.ty
  | [] => nofun
  | ⟨_, t⟩ :: fs => List.forall_mem_cons.mpr
    ⟨storage_induction leaf array record t, storage_induction_fields leaf array record fs⟩

end

variable {t u : Ty} {P : Ty → Prop}

theorem forall_stored_leaf (leaf : t.isLeaf = true) : (∀ u ∈ t.stored, P u) ↔ P t := by
  cases t with
  | array | record => cases leaf
  | _ => exact List.forall_mem_singleton

theorem forall_stored_array {n : Nat} :
    (∀ u ∈ (Ty.array t n).stored, P u) ↔ P (.array t n) ∧ ∀ u ∈ t.stored, P u :=
  List.forall_mem_cons

theorem forall_storedIn {fs : List Field} :
    (∀ u ∈ storedIn fs, P u) ↔ ∀ f ∈ fs, ∀ u ∈ f.ty.stored, P u := by
  induction fs with
  | nil => simp [storedIn]
  | cons f fs ih =>
    obtain ⟨name, t⟩ := f
    rw [storedIn, List.forall_mem_append, ih, List.forall_mem_cons]

theorem forall_stored_record {decl : Record} :
    (∀ u ∈ (Ty.record decl).stored, P u) ↔
      P (.record decl) ∧ ∀ f ∈ decl.fields, ∀ u ∈ f.ty.stored, P u := by
  obtain ⟨kind, name, fields, id⟩ := decl
  rw [stored, List.forall_mem_cons, forall_storedIn]

theorem mem_stored_self (t : Ty) : t ∈ t.stored := by
  cases t with
  | record decl =>
    cases decl
    exact List.mem_cons_self
  | _ => exact List.mem_cons_self

/-- The sizes of all that the values of a type store fit. -/
def Fits (t : Ty) : Prop :=
  ∀ u ∈ t.stored, u.extent < Word.limit

/-- Size and alignment come out as they are without a bound, the size exactly if everything fits. An
array can have an alignment though it is too large. -/
structure Measured (t : Ty) : Prop where
  size {n : Nat} : t.size = .ok n ↔ t.Fits ∧ n = t.extent
  alignment (fits : t.Fits) : t.alignment = .ok t.grain
  grain {a : Nat} (computed : t.alignment = .ok a) : a = t.grain

theorem grainOf_cons (f : Field) (fs : List Field) :
    grainOf (f :: fs) = max f.ty.grain (grainOf fs) := by
  cases f
  rfl

theorem stop_cons (cursor : Nat) (f : Field) (fs : List Field) :
    stop cursor (f :: fs) = stop (Layout.roundUp cursor f.ty.grain + f.ty.extent) fs := by
  cases f
  rfl

theorem widest_cons (f : Field) (fs : List Field) :
    widest (f :: fs) = max f.ty.extent (widest fs) := by
  cases f
  rfl

theorem le_stop (cursor : Nat) (fs : List Field) : cursor ≤ stop cursor fs := by
  induction fs generalizing cursor with
  | nil => exact Nat.le_refl _
  | cons f fs ih =>
    have next := ih (Layout.roundUp cursor f.ty.grain + f.ty.extent)
    have here := Layout.le_roundUp cursor f.ty.grain
    rw [stop_cons]
    omega

end Ty

namespace Layout

variable {fs : List Field}

theorem placeFields_cons (l : Layout) (f : Field) (fs : List Field) :
    l.placeFields (f :: fs) = (do
      let size ← f.ty.size
      let alignment ← f.ty.alignment
      (← l.place size alignment).placeFields fs) := by
  cases f
  rfl

theorem placeFields_eq_foldlM {sizes : List (Nat × Nat)}
    (known : List.Forall₂ (fun f p => f.ty.size = .ok p.1 ∧ f.ty.alignment = .ok p.2) fs sizes)
    (l : Layout) : l.placeFields fs = sizes.foldlM (fun l p => l.place p.1 p.2) l := by
  induction known generalizing l with
  | nil => rfl
  | cons first _ ih =>
    rw [placeFields_cons, first.1, first.2, List.foldlM_cons]
    exact bind_congr ih

theorem largestAlignment_cons (n : Nat) (f : Field) (fs : List Field) :
    largestAlignment n (f :: fs) = (do largestAlignment (max n (← f.ty.alignment)) fs) := by
  cases f
  rfl

theorem largestSize_cons (n : Nat) (f : Field) (fs : List Field) :
    largestSize n (f :: fs) = (do largestSize (max n (← f.ty.size)) fs) := by
  cases f
  rfl

theorem placeFields_eq_ok (measured : ∀ f ∈ fs, f.ty.Measured) {l l' : Layout}
    (below : l.size < Word.limit) :
    l.placeFields fs = .ok l' ↔
      (∀ f ∈ fs, f.ty.Fits) ∧ Ty.stop l.size fs < Word.limit ∧
        l' = ⟨Ty.stop l.size fs, max l.alignment (Ty.grainOf fs),
          l.offsets ++ Ty.starts l.size fs⟩ := by
  induction fs generalizing l with
  | nil => simp [placeFields, Ty.stop, Ty.grainOf, Ty.starts, below, eq_comm]
  | cons f fs ih =>
    obtain ⟨first, rest⟩ := List.forall_mem_cons.mp measured
    simp only [placeFields_cons, bind_eq_ok, first.size, place_eq_ok, Ty.stop_cons]
    constructor
    · rintro ⟨size, ⟨fits, rfl⟩, alignment, aligned, l₁, ⟨next, rfl⟩, placed⟩
      obtain rfl := first.grain aligned
      obtain ⟨all, last, rfl⟩ := (ih rest next).mp placed
      refine ⟨List.forall_mem_cons.mpr ⟨fits, all⟩, last, ?_⟩
      simp [Ty.grainOf_cons, Ty.starts, Nat.max_assoc]
    · rintro ⟨fits, last, rfl⟩
      obtain ⟨own, all⟩ := List.forall_mem_cons.mp fits
      have next := Nat.lt_of_le_of_lt (Ty.le_stop _ fs) last
      refine ⟨_, ⟨own, rfl⟩, _, first.alignment own, _, ⟨next, rfl⟩, (ih rest next).mpr ?_⟩
      refine ⟨all, last, ?_⟩
      simp [Ty.grainOf_cons, Ty.starts, Nat.max_assoc]

theorem largestSize_eq_ok (measured : ∀ f ∈ fs, f.ty.Measured) {n m : Nat} :
    largestSize n fs = .ok m ↔ (∀ f ∈ fs, f.ty.Fits) ∧ m = max n (Ty.widest fs) := by
  induction fs generalizing n with
  | nil => simp [largestSize, Ty.widest, eq_comm]
  | cons f fs ih =>
    obtain ⟨first, rest⟩ := List.forall_mem_cons.mp measured
    simp only [largestSize_cons, bind_eq_ok, first.size, ih rest, List.forall_mem_cons,
      Ty.widest_cons]
    constructor
    · rintro ⟨size, ⟨own, rfl⟩, all, rfl⟩
      exact ⟨⟨own, all⟩, Nat.max_assoc _ _ _⟩
    · rintro ⟨⟨own, all⟩, rfl⟩
      exact ⟨_, ⟨own, rfl⟩, all, (Nat.max_assoc _ _ _).symm⟩

theorem largestAlignment_of_fits (measured : ∀ f ∈ fs, f.ty.Measured) (fits : ∀ f ∈ fs, f.ty.Fits)
    (n : Nat) : largestAlignment n fs = .ok (max n (Ty.grainOf fs)) := by
  induction fs generalizing n with
  | nil => simp [largestAlignment, Ty.grainOf]
  | cons f fs ih =>
    obtain ⟨first, rest⟩ := List.forall_mem_cons.mp measured
    obtain ⟨own, all⟩ := List.forall_mem_cons.mp fits
    rw [largestAlignment_cons, bind_eq_ok]
    refine ⟨_, first.alignment own, ?_⟩
    rw [ih rest all, Ty.grainOf_cons, Nat.max_assoc]

theorem eq_of_largestAlignment (measured : ∀ f ∈ fs, f.ty.Measured) {n a : Nat}
    (computed : largestAlignment n fs = .ok a) : a = max n (Ty.grainOf fs) := by
  induction fs generalizing n with
  | nil => simpa [largestAlignment, Ty.grainOf, eq_comm] using computed
  | cons f fs ih =>
    obtain ⟨first, rest⟩ := List.forall_mem_cons.mp measured
    rw [largestAlignment_cons] at computed
    obtain ⟨b, aligned, computed⟩ := bind_eq_ok.mp computed
    rw [ih rest computed, first.grain aligned, Ty.grainOf_cons, Nat.max_assoc]

end Layout

namespace Record

variable {decl : Record} {l : Layout}

def measures (decl : Record) : Layout :=
  ⟨(Ty.record decl).extent, (Ty.record decl).grain, decl.starts⟩

theorem fits_iff : (Ty.record decl).Fits ↔
    (Ty.record decl).extent < Word.limit ∧ ∀ f ∈ decl.fields, f.ty.Fits := by
  exact Ty.forall_stored_record

/-- Of its fields a struct needs the sizes and the alignments only. -/
theorem layout_eq_ofFields {name : String} {fields : List Field} {id : Nat}
    {sizes : List (Nat × Nat)}
    (known : List.Forall₂ (fun f p => f.ty.size = .ok p.1 ∧ f.ty.alignment = .ok p.2) fields
      sizes) : layout ⟨.struct, name, fields, id⟩ = Layout.ofFields sizes :=
  congrArg (· >>= Layout.close) (Layout.placeFields_eq_foldlM known .empty)

theorem layout_struct_eq_ok {name : String} {fields : List Field} {id : Nat}
    (measured : ∀ f ∈ fields, f.ty.Measured) :
    layout ⟨.struct, name, fields, id⟩ = .ok l ↔
      (Ty.record ⟨.struct, name, fields, id⟩).Fits ∧ l = measures ⟨.struct, name, fields, id⟩ := by
  have below : Layout.empty.size < Word.limit := by decide
  rw [fits_iff]
  simp only [layout, Layout.bind_eq_ok, Layout.placeFields_eq_ok measured below,
    Layout.close_eq_ok]
  constructor
  · rintro ⟨placed, ⟨fits, -, rfl⟩, closes, rfl⟩
    rw [Layout.empty, Nat.zero_max] at closes
    exact ⟨⟨closes, fits⟩, by simp [measures, starts, Layout.empty, Ty.extent, Ty.grain]⟩
  · rintro ⟨⟨closes, fits⟩, rfl⟩
    have last := Nat.lt_of_le_of_lt (Layout.le_roundUp _ _) closes
    refine ⟨_, ⟨fits, last, rfl⟩, ?_⟩
    simpa [Layout.empty, measures, starts, Ty.extent, Ty.grain] using closes

theorem layout_union_eq_ok {name : String} {fields : List Field} {id : Nat}
    (measured : ∀ f ∈ fields, f.ty.Measured) :
    layout ⟨.union, name, fields, id⟩ = .ok l ↔
      (Ty.record ⟨.union, name, fields, id⟩).Fits ∧ l = measures ⟨.union, name, fields, id⟩ := by
  rw [fits_iff]
  simp only [layout, Layout.overlay, Layout.bind_eq_ok, Layout.largestSize_eq_ok measured,
    Layout.close_eq_ok]
  constructor
  · rintro ⟨alignment, aligned, size, ⟨fits, rfl⟩, closes, rfl⟩
    obtain rfl := Layout.eq_of_largestAlignment measured aligned
    rw [Nat.zero_max, Nat.zero_max] at closes
    exact ⟨⟨closes, fits⟩, by simp [measures, starts, Ty.extent, Ty.grain]⟩
  · rintro ⟨⟨closes, fits⟩, rfl⟩
    refine ⟨_, Layout.largestAlignment_of_fits measured fits 0, _, ⟨fits, rfl⟩, ?_⟩
    simpa [measures, starts, Ty.extent, Ty.grain] using closes

theorem layout_eq_ok (measured : ∀ f ∈ decl.fields, f.ty.Measured) :
    decl.layout = .ok l ↔ (Ty.record decl).Fits ∧ l = decl.measures := by
  obtain ⟨_ | _, name, fields, id⟩ := decl
  · exact layout_struct_eq_ok measured
  · exact layout_union_eq_ok measured

theorem size_eq (decl : Record) : (Ty.record decl).size = (do return (← decl.layout).size) := by
  obtain ⟨_ | _, name, fields, id⟩ := decl
  · simp only [Ty.size, layout, bind_assoc]
  · simp only [Ty.size, layout, bind_assoc]

theorem alignment_eq (decl : Record) :
    (Ty.record decl).alignment = (do return (← decl.layout).alignment) := by
  obtain ⟨_ | _, name, fields, id⟩ := decl
  · simp only [Ty.alignment, layout, bind_assoc]
  · simp only [Ty.alignment, layout, bind_assoc]

theorem measured (fields : ∀ f ∈ decl.fields, f.ty.Measured) : (Ty.record decl).Measured where
  size {n} := by
    simp only [size_eq, Layout.bind_eq_ok, Layout.pure_eq_ok, layout_eq_ok fields]
    constructor
    · rintro ⟨l, ⟨fits, rfl⟩, rfl⟩
      exact ⟨fits, rfl⟩
    · rintro ⟨fits, rfl⟩
      exact ⟨_, ⟨fits, rfl⟩, rfl⟩
  alignment fits := by
    rw [alignment_eq, Layout.bind_eq_ok]
    exact ⟨_, (layout_eq_ok fields).mpr ⟨fits, rfl⟩, rfl⟩
  grain computed := by
    rw [alignment_eq, Layout.bind_eq_ok] at computed
    obtain ⟨l, laid, computed⟩ := computed
    obtain ⟨-, rfl⟩ := (layout_eq_ok fields).mp laid
    exact (Layout.pure_eq_ok.mp computed)

end Record

namespace Ty

theorem bytes_lt {bits : Nat} (narrow : bits < 256) : Layout.bytes bits < Word.limit := by
  simp only [Layout.bytes, Word.limit]
  omega

theorem measured_leaf {t : Ty} (leaf : t.isLeaf = true) (sized : t.isSized = true) :
    t.Measured := by
  have fits : t.Fits := by
    refine (forall_stored_leaf leaf).mpr ?_
    cases t with
    | int bits | uint bits | float bits => exact bytes_lt (of_decide_eq_true sized)
    | void => exact (by decide : 0 < Word.limit)
    | pointer | func => exact (by decide : Layout.pointerSize < Word.limit)
    | array | record => cases leaf
    | named | module | todo => cases sized
  have size : t.size = .ok t.extent ∧ t.alignment = .ok t.grain := by
    cases t with
    | int | uint | float | void | pointer | func => exact ⟨rfl, rfl⟩
    | array | record => cases leaf
    | named | module | todo => cases sized
  refine ⟨?_, fun _ => size.2, ?_⟩
  · simp [size.1, fits, eq_comm]
  · simp [size.2, eq_comm]

theorem measured_array {t : Ty} (n : Nat) (element : t.Measured) : (Ty.array t n).Measured where
  size {m} := by
    have fits : (Ty.array t n).Fits ↔ t.extent * n < Word.limit ∧ t.Fits := forall_stored_array
    simp only [size, Layout.bind_eq_ok, element.size, Layout.product_eq_ok, fits, extent]
    constructor
    · rintro ⟨size, ⟨own, rfl⟩, all, rfl⟩
      exact ⟨⟨all, own⟩, rfl⟩
    · rintro ⟨⟨all, own⟩, rfl⟩
      exact ⟨_, ⟨own, rfl⟩, all, rfl⟩
  alignment fits := element.alignment (forall_stored_array.mp fits).2
  grain computed := element.grain computed

theorem measured {t : Ty} (sized : ∀ u ∈ t.stored, u.isSized = true) : t.Measured := by
  induction t using storage_induction with
  | leaf t leaf => exact measured_leaf leaf (sized t t.mem_stored_self)
  | array t n ih => exact measured_array n (ih (forall_stored_array.mp sized).2)
  | record decl ih =>
    exact Record.measured fun f mem => ih f mem ((forall_stored_record.mp sized).2 f mem)

end Ty

def LayoutError.isUnresolved : LayoutError → Bool
  | .unresolvedSize _ => true
  | .unresolvedAlignment _ => true
  | _ => false

namespace Layout

/-- If there is no result, it is because a number gets too large. -/
def Resolved {α : Type} (x : Except LayoutError α) : Prop :=
  ∀ e, x = .error e → e.isUnresolved = false

variable {α β : Type} {fs : List Field}

theorem resolved_ok {a : α} : Resolved (.ok a) :=
  nofun

theorem Resolved.bind {x : Except LayoutError α} {f : α → Except LayoutError β} (hx : Resolved x)
    (hf : ∀ a, Resolved (f a)) : Resolved (x >>= f) := by
  cases x with
  | error e =>
    intro e' h
    obtain rfl : e = e' := Except.error.inj h
    exact hx e rfl
  | ok a => exact hf a

theorem resolved_sum (a b : Nat) : Resolved (sum a b) := by
  intro e h
  unfold sum at h
  split at h
  · exact absurd h nofun
  · exact Except.error.inj h ▸ rfl

theorem resolved_product (a b : Nat) : Resolved (product a b) := by
  intro e h
  unfold product at h
  split at h
  · exact absurd h nofun
  · exact Except.error.inj h ▸ rfl

theorem resolved_place (l : Layout) (size alignment : Nat) : Resolved (l.place size alignment) :=
  (resolved_sum _ _).bind fun _ => (resolved_sum _ _).bind fun _ => resolved_ok

theorem resolved_close (l : Layout) : Resolved l.close :=
  (resolved_sum _ _).bind fun _ => resolved_ok

end Layout

/-- Nothing that the values of the type store is unresolved, and its size and its alignment are
known unless they get too large. -/
structure Ty.HasLayout (t : Ty) : Prop where
  closed : ∀ u ∈ t.stored, u.isOpen = false
  size : Layout.Resolved t.size
  alignment : Layout.Resolved t.alignment

namespace Layout

variable {fs : List Field}

theorem resolved_placeFields (known : ∀ f ∈ fs, f.ty.HasLayout) (l : Layout) :
    Resolved (l.placeFields fs) := by
  induction fs generalizing l with
  | nil => exact resolved_ok
  | cons f fs ih =>
    obtain ⟨first, rest⟩ := List.forall_mem_cons.mp known
    rw [placeFields_cons]
    exact first.size.bind fun size => first.alignment.bind fun alignment =>
      (resolved_place l size alignment).bind fun l => ih rest l

theorem resolved_largestAlignment (known : ∀ f ∈ fs, f.ty.HasLayout) (n : Nat) :
    Resolved (largestAlignment n fs) := by
  induction fs generalizing n with
  | nil => exact resolved_ok
  | cons f fs ih =>
    obtain ⟨first, rest⟩ := List.forall_mem_cons.mp known
    rw [largestAlignment_cons]
    exact first.alignment.bind fun _ => ih rest _

theorem resolved_largestSize (known : ∀ f ∈ fs, f.ty.HasLayout) (n : Nat) :
    Resolved (largestSize n fs) := by
  induction fs generalizing n with
  | nil => exact resolved_ok
  | cons f fs ih =>
    obtain ⟨first, rest⟩ := List.forall_mem_cons.mp known
    rw [largestSize_cons]
    exact first.size.bind fun _ => ih rest _

theorem resolved_layout {decl : Record} (known : ∀ f ∈ decl.fields, f.ty.HasLayout) :
    Resolved decl.layout := by
  obtain ⟨_ | _, name, fields, id⟩ := decl
  · exact (resolved_placeFields known .empty).bind resolved_close
  · exact (resolved_largestAlignment known 0).bind fun _ =>
      (resolved_largestSize known 0).bind fun _ => resolved_close _

end Layout

namespace Ty

theorem hasLayout_leaf {t : Ty} (leaf : t.isLeaf = true) (known : t.isOpen = false) :
    t.HasLayout := by
  have closed := (forall_stored_leaf (P := fun u => u.isOpen = false) leaf).mpr known
  cases t with
  | int | uint | float | void | pointer | func =>
    exact ⟨closed, Layout.resolved_ok, Layout.resolved_ok⟩
  | array | record => cases leaf
  | named | module | todo => cases known

theorem hasLayout_record {decl : Record} (known : ∀ f ∈ decl.fields, f.ty.HasLayout) :
    (Ty.record decl).HasLayout := by
  have resolved := Layout.resolved_layout known
  refine ⟨forall_stored_record.mpr ⟨rfl, fun f mem => (known f mem).closed⟩, ?_, ?_⟩
  · rw [Record.size_eq]
    exact resolved.bind fun _ => Layout.resolved_ok
  · rw [Record.alignment_eq]
    exact resolved.bind fun _ => Layout.resolved_ok

theorem hasLayout {t : Ty} (known : ∀ u ∈ t.stored, u.isOpen = false) : t.HasLayout := by
  induction t using storage_induction with
  | leaf t leaf => exact hasLayout_leaf leaf (known t t.mem_stored_self)
  | array t n ih =>
    have element := ih (forall_stored_array.mp known).2
    exact ⟨known, element.size.bind fun m => Layout.resolved_product m n, element.alignment⟩
  | record decl ih =>
    exact hasLayout_record fun f mem => ih f mem ((forall_stored_record.mp known).2 f mem)

theorem isOpen_of_isSized {t : Ty} (sized : t.isSized = true) : t.isOpen = false := by
  cases t with
  | named | module | todo => cases sized
  | _ => rfl

/-- Sizes are exact. If nothing that the values of a type store is unresolved, the size that is
computed is the size without a bound, provided that it and the sizes of everything that is stored
fit; if one of them does not fit, the computation fails for a sum or a product that is too large. -/
theorem size_exact {t : Ty} (sized : ∀ u ∈ t.stored, u.isSized = true) :
    ((∀ u ∈ t.stored, u.extent < Word.limit) → t.size = .ok t.extent) ∧
      ((∃ u ∈ t.stored, Word.limit ≤ u.extent) →
        t.size = .error .sumOverflow ∨ t.size = .error .productOverflow) ∧
      ∀ n, t.size = .ok n → n = t.extent ∧ n < Word.limit := by
  have computed : ∀ {n}, t.size = .ok n ↔ t.Fits ∧ n = t.extent := (measured sized).size
  refine ⟨fun fits => computed.mpr ⟨fits, rfl⟩, ?_, fun n ok => ?_⟩
  · rintro ⟨u, inside, large⟩
    have known := hasLayout fun u inner => isOpen_of_isSized (sized u inner)
    cases result : t.size with
    | ok n => exact absurd ((computed.mp result).1 u inside) (Nat.not_lt.mpr large)
    | error e =>
      cases e with
      | sumOverflow => exact .inl rfl
      | productOverflow => exact .inr rfl
      | unresolvedSize | unresolvedAlignment => cases known.size _ result
  · obtain ⟨fits, rfl⟩ := computed.mp ok
    exact ⟨rfl, fits t t.mem_stored_self⟩

def bytesAnd (n : Nat) (last : Ty) : Ty :=
  .record ⟨.struct, "S", [⟨"bytes", .array (.uint 8) n⟩, ⟨"last", last⟩], 1⟩

/-- Close to the bound there is room for one more byte. There is none for a word, which begins after
some padding, nor for an array without elements, the elements being too large. -/
theorem size_exact_boundary :
    (bytesAnd 18446744073709551607 (.uint 8)).size = .ok 18446744073709551608 ∧
      ∀ last ∈ [Ty.int 64, .array (.array (.int 17) 9223372036854775808) 0],
        (bytesAnd 18446744073709551607 last).size = .error .sumOverflow ∨
          (bytesAnd 18446744073709551607 last).size = .error .productOverflow := by
  refine ⟨(size_exact (by decide)).1 (by decide), List.forall_mem_cons.mpr ⟨?_, ?_⟩⟩
  · exact (size_exact (by decide)).2.1 (by decide)
  · exact List.forall_mem_singleton.mpr ((size_exact (by decide)).2.1 (by decide))

end Ty

end FrontEnd
