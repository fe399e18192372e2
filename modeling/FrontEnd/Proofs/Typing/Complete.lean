import FrontEnd.Proofs.Reading.Firm
import FrontEnd.Proofs.Syntax.Parts
import FrontEnd.Proofs.Typing.Soundness
import Mathlib.Logic.Relation

namespace FrontEnd

open Check CheckState

def Part.Complete : Part → Prop
  | .expr around e => e.ty.Complete ∨ (∃ name, e.node = .ident name ∧ e.ty = .module name) ∨
    e.node = .builtin "unreachable" [] [] ∧ e.ty = around.getD .void ∧ e.ty.firm = true
  | .stmt (.declare _ _ ty _) => ty.Complete
  | .stmt (.declareAll _ _ _ types _) => ∀ t ∈ types, t.Complete
  | .stmt (.record _ decl) => (Ty.record decl).firm = true
  | .stmt _ => True

def Ty.Defined (t : Ty) : Prop :=
  t.firm = true ∧ ∃ decl, t = .record decl

namespace Scopes

variable {α : Type} {p : Nat → α → Prop} {s : Scopes α}

def eachAt (p : Nat → α → Prop) : List (Entry α) → Prop
  | [] => True
  | .frame :: es => eachAt p es
  | .binding _ v :: es => p (frames es) v ∧ eachAt p es

/-- What holds of every value that is bound, with the depth of the scope that it is bound in. -/
def AllAt (p : Nat → α → Prop) (s : Scopes α) : Prop :=
  eachAt p s.entries

theorem AllAt.get? (h : s.AllAt p) {name : String} {value : α} (hv : s.get? name = some value) :
    ∃ depth, p depth value := by
  obtain ⟨⟨value, depth⟩, found, rfl⟩ := Option.map_eq_some_iff.mp hv
  clear hv
  obtain ⟨es⟩ := s
  refine ⟨depth, ?_⟩
  change eachAt p es at h
  change find? name es = _ at found
  induction es with
  | nil => simp [find?] at found
  | cons e es ih =>
    cases e with
    | frame => exact ih h found
    | binding n v =>
      simp only [find?] at found
      split at found
      · obtain ⟨rfl, rfl⟩ := Prod.mk.inj (Option.some.inj found)
        exact h.1
      · exact ih h.2 found

theorem AllAt.outside (h : s.AllAt p) (closed : s.depth = 0) : s.All (p 0) := by
  obtain ⟨es⟩ := s
  change eachAt p es at h
  change frames es = 0 at closed
  intro name value mem
  change _ ∈ es at mem
  induction es with
  | nil => exact absurd mem (by simp)
  | cons e es ih =>
    cases e with
    | frame => simp [frames] at closed
    | binding n v =>
      obtain ⟨rfl, rfl⟩ | mem := (List.mem_cons.mp mem).imp_left Entry.binding.inj
      · exact (closed : frames es = 0) ▸ h.1
      · exact ih h.2 closed mem

end Scopes

/-- A unit whose types are complete, as far as they are looked at, and whose modules are such
units. -/
inductive CheckedUnit.Complete : CheckedUnit → Prop
  | intro {unit : CheckedUnit} (parts : ∀ p ∈ unit.program.parts, p.Complete)
      (vars : unit.env.vars.All Ty.Complete)
      (types : ∀ name t, unit.env.types.get? name = some t → t.Defined)
      (modules : ∀ p ∈ unit.env.modules, CheckedUnit.Complete p.2.unit) : CheckedUnit.Complete unit

theorem CheckedUnit.Complete.holds {unit : CheckedUnit} (h : unit.Complete) :
    unit.env.Holds Ty.Defined := by
  induction h with
  | intro _ _ types _ ih => exact .intro types ih

/-- Of what is declared at the top, the types are complete; the types of parameters may hold unknown
references. -/
structure Context.Firm (Γ : Context) : Prop where
  vars : Γ.env.vars.AllAt fun depth t => t.firm = true ∧ (depth = 0 → t.Known)
  types : ∀ name t, Γ.env.types.get? name = some t → t.Defined
  modules : ∀ p ∈ Γ.env.modules, p.2.unit.Complete
  registry : ∀ p ∈ Γ.registry, p.2.Defined
  expected : ∀ t, Γ.expected = some t → t.firm = true

namespace Context.Firm

variable {Γ : Context} {t : Ty}

theorem start (id : String) (directory : Path) {registry : List (String × Ty)}
    (h : ∀ p ∈ registry, p.2.Defined) : (Context.start id directory registry).Firm :=
  ⟨trivial, nofun, nofun, h, nofun⟩

theorem holds (h : Γ.Firm) : Γ.env.Holds Ty.Defined :=
  .intro h.types fun p hp => (h.modules p hp).holds

theorem resolver (h : Γ.Firm) : Γ.resolver.Firm :=
  ⟨rfl, fun found => h.holds.lookup h.registry found⟩

theorem firm_resolve (h : Γ.Firm) (ht : t.firm = true) : (Γ.resolve t).firm = true :=
  h.resolver.firm_resolve ht

theorem declare (h : Γ.Firm) (name : String) (ht : t.firm = true)
    (known : Γ.env.vars.depth = 0 → t.Known) : (Γ.declare name t).Firm :=
  ⟨⟨⟨ht, known⟩, h.vars⟩, h.types, h.modules, h.registry, h.expected⟩

theorem declareEach (h : Γ.Firm) (names : List String) {types : List Ty}
    (ht : ∀ t ∈ types, t.firm = true ∧ (Γ.env.vars.depth = 0 → t.Known)) :
    (Γ.declareEach names types).Firm := by
  induction names generalizing Γ types with
  | nil => exact h
  | cons name names ih =>
    cases types with
    | nil => exact h
    | cons t types =>
      obtain ⟨first, rest⟩ := List.forall_mem_cons.mp ht
      exact ih (h.declare name first.1 first.2) rest

theorem enter (h : Γ.Firm) : Γ.enter.Firm :=
  ⟨h.vars, h.types, h.modules, h.registry, h.expected⟩

theorem enterFunction (h : Γ.Firm) {sig : Signature} (hs : (Ty.func sig).firm = true) :
    (Γ.enterFunction sig).Firm := by
  obtain ⟨params, result⟩ := Ty.firm_func.mp hs
  have inner := h.enter.declareEach sig.names fun t ht => ⟨params t ht, fun top => absurd top nofun⟩
  exact ⟨inner.vars, inner.types, inner.modules, inner.registry,
    fun t ht => Option.some.inj ht ▸ result⟩

theorem leave (h : Γ.Firm) {around : Context} (ha : around.Firm) : (Γ.leave around).Firm :=
  ⟨ha.vars, ha.types, h.modules, h.registry, h.expected⟩

theorem recordFunction (h : Γ.Firm) (f : FunctionDecl) : (Γ.recordFunction f).Firm :=
  ⟨h.vars, h.types, h.modules, h.registry, h.expected⟩

theorem addModule (h : Γ.Firm) {m : Module} {registry : List (String × Ty)}
    (hm : m.unit.Complete) (hr : ∀ p ∈ registry, p.2.Defined) : (Γ.addModule m registry).Firm :=
  ⟨h.vars, h.types, Table.forall_insert h.modules hm, hr, h.expected⟩

end Context.Firm

theorem Context.holds_redefine {Γ : Context} {D : Ty → Prop} (name : String) (t : Ty) {u : Ty}
    (hu : D u) (types : ∀ key v, Γ.env.types.get? key = some v → D v)
    (registry : ∀ p ∈ Γ.registry, D p.2) :
    (∀ key v, ((Γ.define name t).define name u).env.types.get? key = some v → D v) ∧
      ∀ p ∈ ((Γ.define name t).define name u).registry, D p.2 := by
  constructor
  · intro key v found
    rw [Context.define, Scopes.get?_add] at found
    split at found
    case isTrue => exact Option.some.inj found ▸ hu
    case isFalse other =>
      rw [Context.define, Scopes.get?_add, if_neg other] at found
      exact types key v found
  · intro p hp
    have same : ((Γ.define name t).define name u).registry =
        if Γ.env.types.depth = 0 then Table.insert (Table.insert Γ.registry name t) name u
        else Γ.registry := by
      unfold Context.define
      change (if Γ.env.types.depth = 0 then _ else _) = _
      by_cases top : Γ.env.types.depth = 0
      · simp only [if_pos top]
      · simp only [if_neg top]
    rw [same] at hp
    split at hp
    · obtain rfl | hp := List.mem_cons.mp hp
      · exact hu
      · obtain ⟨mem, other⟩ := List.mem_filter.mp hp
        obtain rfl | mem := List.mem_cons.mp mem
        · simp at other
        · exact registry p (List.mem_filter.mp mem).1
    · exact registry p hp

theorem Context.Firm.define {Γ : Context} (h : Γ.Firm) (name : String) (t : Ty) {u : Ty}
    (hu : u.Defined) : ((Γ.define name t).define name u).Firm :=
  have ⟨types, registry⟩ := Context.holds_redefine name t hu h.types h.registry
  ⟨h.vars, types, h.modules, registry, h.expected⟩

/-- The types that a context knows after a declaration are those that it knew before, and the one
that is declared. -/
theorem Context.holds_define {Γ : Context} {D : Ty → Prop} (name : String) (t : Ty)
    (h : Γ.env.Holds D) (hr : ∀ p ∈ Γ.registry, D p.2) :
    (Γ.define name t).env.Holds (fun u => u = t ∨ D u) ∧
      ∀ p ∈ (Γ.define name t).registry, p.2 = t ∨ D p.2 := by
  constructor
  · obtain ⟨types, modules⟩ := h
    refine .intro (fun key u found => ?_) fun p hp => (modules p hp).imp fun u => .inr
    rw [Context.define, Scopes.get?_add] at found
    split at found
    · exact .inl (Option.some.inj found).symm
    · exact .inr (types key u found)
  · unfold Context.define
    split
    · exact Table.forall_insert (fun p hp => .inr (hr p hp)) (.inl rfl)
    · exact fun p hp => .inr (hr p hp)

namespace Check

variable {imp : Importer} {s : CheckState} {token : Token} {ty : Ty}

theorem complete_of_isLiteral {e : Expr} (literal : e.isLiteral) (written : e.Written) :
    e.ty.Complete := by
  obtain ⟨node, ty, token⟩ := e
  cases node with
  | integer value => obtain rfl | rfl := written <;> exact ⟨rfl, nofun⟩
  | float value =>
    obtain rfl := written
    exact ⟨rfl, nofun⟩
  | string value =>
    obtain rfl := written
    exact ⟨rfl, nofun⟩
  | _ => simp [Expr.isLiteral] at literal

theorem firm_structNamed? {name : String} {module? : Option String} {r : String × Ty}
    (firm : s.context.Firm) (named : s.context.structNamed? name module? = some r) :
    r.2.firm = true := by
  cases module? with
  | none =>
    obtain rfl := Option.some.inj named
    exact firm.firm_resolve rfl
  | some module =>
    obtain ⟨m, isModule, found⟩ := Option.bind_eq_some_iff.mp named
    obtain ⟨t, declared, rfl⟩ := Option.map_eq_some_iff.mp found
    cases firm.modules _ (Table.mem_of_lookup isModule) with
    | intro _ _ types _ => exact (types _ t declared).1

section Silent

variable (u : s.Uncapped) (firm : s.context.Firm)

include u firm

theorem complete_identType {name : String} (typed : Runs imp (identType name token) s ty s) :
    ty.Complete := by
  obtain ⟨t, bound, _, rfl, known⟩ := (silent_identType u).mp typed
  obtain ⟨_, closed, _⟩ := firm.vars.get? bound
  exact ⟨firm.firm_resolve closed, known⟩

theorem complete_moduleMember {left right right' : Expr} {m : Module}
    (isModule : s.moduleOf? left = some m)
    (typed : Runs imp (moduleMember m right token) s (right', ty) s) :
    ty.Complete ∧ right'.ty = ty ∧ ∃ name, right'.node = .ident name := by
  obtain ⟨name, t, _, bound, ⟨rfl, rfl⟩⟩ := (silent_moduleMember u).mp typed
  obtain ⟨_, _, _, isModule⟩ := moduleOf?_eq_some isModule
  cases firm.modules _ (Table.mem_of_lookup isModule) with
  | intro _ vars _ _ =>
    exact ⟨firm.resolver.complete_resolve (vars.get? bound), rfl, _, rfl⟩

theorem complete_fieldAccess {object : Ty} {right right' : Expr} (closed : object.firm = true)
    (typed : Runs imp (fieldAccess object right token) s (right', ty) s) :
    ty.Complete ∧ right'.ty = ty ∧ ∃ name, right'.node = .ident name := by
  obtain ⟨t, accessed, field⟩ := silent_fieldAccess.mp typed
  have resolved : (s.resolver.resolve object).firm = true := firm.firm_resolve closed
  have reached : t.firm = true := by
    obtain ⟨target, pointer, rfl, _⟩ | ⟨_, rfl⟩ := (silent_accessedType u).mp accessed
    · rw [pointer] at resolved
      exact firm.firm_resolve resolved
    · exact resolved
  obtain ⟨decl, name, f, rfl, named, declared, known, ⟨rfl, rfl⟩⟩ | ⟨rfl, _⟩ :=
    (silent_recordField u).mp field
  · have stored := Ty.firm_record.mp reached f (List.mem_of_find?_eq_some declared)
    refine ⟨⟨firm.firm_resolve stored.1, known⟩, rfl, name, ?_⟩
    obtain ⟨node, _, _⟩ := right
    cases node <;> simp_all [Expr.name?]
  · exact absurd reached (by simp [Ty.firm])

theorem complete_binaryType {op : InfixOp} {left right : Ty} (hl : left.firm = true)
    (typed : Runs imp (binaryType op left right token) s ty s) : ty.Complete := by
  have resolver : s.resolver.Firm := firm.resolver
  obtain ⟨ok, _, _, rfl⟩ := (silent_binaryType u).mp typed
  have settled := Ty.settled_of_firm _ hl
  obtain ⟨numeric, same⟩ := resolver.clean.isNumeric_of_resolve settled ok
  rw [same, Ty.isTodo_of_settled settled]
  split
  · exact ⟨rfl, nofun⟩
  · exact Ty.complete_of_numeric numeric

theorem complete_unaryType {op : PrefixOp} {operand : Ty} (closed : operand.firm = true)
    (typed : Runs imp (unaryType op operand token) s ty s) : ty.Complete := by
  have resolver : s.resolver.Firm := firm.resolver
  have resolved := resolver.firm_resolve closed
  have sign (hop : op = .not ∨ op = .negate ∨ op = .identity) : ty.Complete := by
    obtain ⟨rfl, ok⟩ := (silent_unaryType_numeric u hop).mp typed
    obtain ⟨numeric, same⟩ :=
      resolver.clean.isNumeric_of_resolve (Ty.settled_of_firm _ closed) ok
    rw [same]
    exact Ty.complete_of_numeric numeric
  cases op with
  | not => exact sign (.inl rfl)
  | negate => exact sign (.inr (.inl rfl))
  | identity => exact sign (.inr (.inr rfl))
  | reference =>
    obtain rfl := silent_unaryType_reference.mp typed
    exact Ty.complete_pointer resolved
  | dereference =>
    obtain ⟨target, pointer, rfl, known⟩ | ⟨todo, _⟩ := (silent_unaryType_dereference u).mp typed
    · rw [pointer] at resolved
      exact ⟨resolver.firm_resolve resolved, known⟩
    · rw [todo] at resolved
      exact absurd resolved (by simp [Ty.firm])

theorem complete_indexType {base index : Ty} (closed : base.firm = true)
    (typed : Runs imp (indexType base index token) s ty s) : ty.Complete := by
  have resolved : (s.resolver.resolve base).firm = true := firm.firm_resolve closed
  obtain ⟨_, reached⟩ := (silent_indexType u).mp typed
  obtain ⟨element, form, rfl, known⟩ | ⟨todo, _⟩ := (silent_elementType u).mp reached
  · refine ⟨firm.firm_resolve ?_, known⟩
    obtain ⟨n, array⟩ | pointer := form
    · rw [array] at resolved
      exact resolved
    · rw [pointer] at resolved
      exact resolved
  · rw [todo] at resolved
    exact absurd resolved (by simp [Ty.firm])

theorem firm_calleeSignature {callee : Expr} {sig? : Option Signature}
    (closed : callee.ty.firm = true) (callable : Runs imp (calleeSignature callee token) s sig? s) :
    ∃ sig, sig? = some sig ∧ (Ty.func sig).firm = true := by
  have resolved : (s.resolver.resolve callee.ty).firm = true := firm.firm_resolve closed
  obtain ⟨sig, func, rfl⟩ | ⟨todo, _⟩ := (silent_calleeSignature u).mp callable
  · rw [func] at resolved
    exact ⟨sig, rfl, resolved⟩
  · rw [todo] at resolved
    exact absurd resolved (by simp [Ty.firm])

theorem complete_resolveAll {t : Ty} (closed : t.firm = true)
    (resolved : Runs imp (resolveAll t token) s ty s) : ty.Complete := by
  obtain ⟨rfl, refs⟩ := (silent_resolveAll u.room).mp resolved
  exact ⟨firm.firm_resolve closed, Ty.known_of_firstRef? refs⟩

theorem complete_resolveTypeArgs {ts us : List Ty} (closed : ∀ t ∈ ts, t.firm = true)
    (types : Runs imp (resolveTypeArgs token ts) s us s) :
    us.length = ts.length ∧ ∀ t ∈ us, t.Complete := by
  obtain ⟨rfl, refs⟩ := (silent_resolveTypeArgs u.room).mp types
  refine ⟨by simp, fun t ht => ?_⟩
  obtain ⟨v, hv, same⟩ := List.mem_map.mp ht
  exact ⟨same ▸ firm.firm_resolve (closed v hv), Ty.known_of_firstRef? (refs t ht)⟩

theorem complete_declaredAs {written value : Ty} {written? : Option Ty}
    (open? : written.isTodo = true ∨ written.firm = true) (closed : value.firm = true)
    (found : Runs imp (writtenType? written token) s written? s) (fits : s.Fits value written?) :
    (s.declaredAs written? value).Complete := by
  obtain ⟨_, rfl⟩ | ⟨notOpen, rfl, refs⟩ := (silent_writtenType? u).mp found
  · exact ⟨firm.firm_resolve closed, fits⟩
  · have written := open?.resolve_left (by simp [notOpen])
    exact ⟨firm.firm_resolve written, Ty.known_of_firstRef? refs⟩

theorem complete_declaredType {written value : Ty}
    (open? : written.isTodo = true ∨ written.firm = true) (closed : value.firm = true)
    (typed : Runs imp (declaredType written value token) s ty s) : ty.Complete := by
  obtain ⟨written?, found, fits, rfl⟩ := (silent_declaredType u).mp typed
  exact complete_declaredAs u firm open? closed found fits

theorem complete_declaredAll {names : List String} {written : Ty} {values types : List Ty}
    (open? : written.isTodo = true ∨ written.firm = true) (closed : ∀ t ∈ values, t.firm = true)
    (typed : Runs imp (declaredAll token names written values) s (ty, types) s) :
    ∀ t ∈ types, t.Complete := by
  obtain ⟨_, written?, found, fits, ⟨rfl, rfl⟩⟩ := (silent_declaredAll u).mp typed
  intro t ht
  obtain ⟨v, hv, rfl⟩ := List.mem_map.mp ht
  exact complete_declaredAs u firm open? (closed v hv) found (fits v hv)

end Silent

theorem stores_self (s : CheckState) (decl : Record) :
    s.stores decl.name (.record decl) = true := by
  obtain ⟨kind, name, fields, id⟩ := decl
  simp [CheckState.stores, Ty.storesWithin, Ty.storesWith]

theorem complete_fieldType {decl : Record} {t : Ty} (firm : s.context.Firm) (closed : t.firm = true)
    (storable : (s.define decl.name (.record decl)).Storable decl.name t) :
    ((s.define decl.name (.record decl)).context.fieldType t).Complete := by
  induction t using Ty.nested with
  | array t n ih => exact ih closed storable
  | named ref =>
    obtain ⟨_, known, apart⟩ := storable
    have holds := Context.holds_define decl.name (.record decl) firm.holds firm.registry
    rw [← context_define] at holds
    change ((s.define decl.name (.record decl)).resolver.resolve (.named ref)).Complete
    have resolved : (s.define decl.name (.record decl)).resolver.resolve (.named ref) =
        (s.define decl.name (.record decl)).resolver.meaning ref := rfl
    rw [resolved] at known apart ⊢
    unfold Resolver.meaning at known apart ⊢
    cases found : (s.define decl.name (.record decl)).resolver.meaning? ref with
    | none => simp [found, Ty.ref?] at known
    | some u =>
      rw [found] at apart
      have stands := (Option.filter_eq_some_iff.mp found).1
      obtain rfl | ⟨firm, _, rfl⟩ := holds.1.lookup holds.2 stands
      · simp [stores_self] at apart
      · exact ⟨firm, Ty.known_of_ref? rfl⟩
  | record _ | pointer _ | func _ | void | int _ | uint _ | float _ =>
    exact ⟨closed, Ty.known_of_ref? rfl⟩
  | module _ | todo => simp [Ty.firm] at closed

theorem firm_recordDecl {decl decl' : Record} {s' : CheckState} (firm : s.context.Firm)
    (closed : ∀ f ∈ decl.fields, f.ty.firm = true)
    (declared : Runs imp (recordDecl token decl) s decl' s') (q : s'.Quiet) :
    (Ty.record decl').firm = true ∧ s'.context.Firm := by
  obtain ⟨_, storable, rfl, rfl⟩ := clear_recordDecl declared q.clear
  have fields : (Ty.record ((s.define decl.name (.record decl)).context.fieldTypes decl)).firm =
      true := by
    refine Ty.firm_record.mpr fun f hf => ?_
    obtain ⟨g, hg, rfl⟩ := List.mem_map.mp hf
    exact complete_fieldType firm (closed g hg) (storable g hg)
  have same := context_define s decl.name (.record decl)
  rw [same, context_define, same]
  rw [same] at fields
  exact ⟨fields, firm.define _ (.record decl) ⟨fields, _, rfl⟩⟩

end Check

/-- A state inside a function with the result `around`. -/
structure CheckState.Firm (s : CheckState) (around : Option Ty) : Prop where
  context : s.context.Firm
  expected : s.expected = around

/-- Pruning changes nothing in what is left to check, and what is checked against is complete. -/
def Item.Pruned : Item → Prop
  | .expr e | .node e | .list e | .condition _ e => Translation.pruning.tree.expr e = e
  | .exprs es | .args _ es | .elements _ es => Translation.pruning.tree.exprs es = es
  | .values fs | .fields _ _ fs => Translation.pruning.tree.fields fs = fs
  | .builtin b ty _ es =>
    (b.typeArgs = 1 → ty.Complete) ∧ Translation.pruning.tree.exprs es = es
  | .guard _ e? | .result e? => ∀ e, e? = some e → Translation.pruning.tree.expr e = e
  | .body xs | .stmts xs | .top xs => Translation.pruning.tree.stmts xs = xs
  | .function sig _ _ xs =>
    (Ty.func sig).firm = true ∧ Translation.pruning.tree.stmts xs = xs
  | .stmt x => Translation.pruning.tree.stmt x = x
  | .clause x? => ∀ x, x? = some x → Translation.pruning.tree.stmt x = x
  | .branches _ bs => Translation.pruning.tree.branches bs = bs

def Item.Completed (s : CheckState) (around : Option Ty) : (i : Item) → i.Result → Prop
  | .expr _, e | .node _, e => e.ty.firm = true ∧ ∀ p ∈ e.parts around, p.Complete
  | .exprs _, es | .args _ _, es | .elements _ _, es =>
    (∀ e ∈ es, e.ty.firm = true) ∧ ∀ p ∈ Expr.partsOf around es, p.Complete
  | .values _, fs | .fields _ _ _, fs => ∀ p ∈ Expr.partsOfFields around fs, p.Complete
  | .builtin b _ _ _, (es, ty) =>
    (ty.Complete ∨ b = .unreachable ∧ es = [] ∧ ty = around.getD .void ∧ ty.firm = true) ∧
      ∀ p ∈ Expr.partsOf around es, p.Complete
  | .list _, e => (∀ t ∈ e.valueTypes, t.firm = true) ∧ ∀ p ∈ e.parts around, p.Complete
  | .condition _ _, e => ∀ p ∈ e.parts around, p.Complete
  | .guard _ _, e? | .result _, e? => ∀ p ∈ e?.elim [] (Expr.parts around), p.Complete
  | .body _, (xs, _) => ∀ p ∈ Stmt.reached around xs, p.Complete
  | .function sig _ _ _, xs => ∀ p ∈ Stmt.reached (some sig.result) xs, p.Complete
  | .stmt _, x => ∀ p ∈ x.parts around, p.Complete
  | .clause _, x? => ∀ p ∈ x?.elim [] (Stmt.parts around), p.Complete
  | .stmts _, xs => s.returns = false → ∀ p ∈ Stmt.reached around xs, p.Complete
  | .branches _ _, (bs, _) => ∀ p ∈ Stmt.reachedIn around bs, p.Complete
  | .top _, xs => ∀ p ∈ xs.flatMap (Stmt.parts around), p.Complete

def Importer.Completes (imp : Importer) : Prop :=
  ∀ {source path typeArgs session unit session'}, session.config.maxCheckErrors = none →
    (∀ t ∈ typeArgs, t.firm = true) → (∀ p ∈ session.registry, p.2.Defined) →
    imp source path typeArgs session = .ok (.ok unit, session') →
      unit.Complete ∧ ∀ p ∈ session'.registry, p.2.Defined

end FrontEnd
