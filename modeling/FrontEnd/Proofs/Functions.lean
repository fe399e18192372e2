import FrontEnd.Proofs.Build
import FrontEnd.Proofs.Registry

namespace FrontEnd

mutual

def Expr.functions : Expr → List FunctionDecl
  | ⟨node, _, _⟩ => node.functions

def Node.functions : Node → List FunctionDecl
  | .ident _ | .integer _ | .float _ | .string _ => []
  | .binary _ left right => left.functions ++ right.functions
  | .unary _ operand => operand.functions
  | .index base index => base.functions ++ index.functions
  | .call callee args => callee.functions ++ Expr.functionsOf args
  | .builtin _ _ args => Expr.functionsOf args
  | .structLit _ _ fields => Expr.functionsOfFields fields
  | .arrayLit _ elements => Expr.functionsOf elements
  | .comma items => Expr.functionsOf items
  | .function _ body => Stmt.functionsOf body

def Expr.functionsOf : List Expr → List FunctionDecl
  | [] => []
  | e :: es => e.functions ++ Expr.functionsOf es

def Expr.functionsOfFields : List FieldInit → List FunctionDecl
  | [] => []
  | ⟨_, e⟩ :: fs => e.functions ++ Expr.functionsOfFields fs

def Stmt.functions : Stmt → List FunctionDecl
  | .expression _ e => e.functions
  | .declare _ _ _ value => value.functions
  | .declareAll _ _ _ _ value => value.functions
  | .assign _ target value => value.functions ++ target.functions
  | .function token sig body => Stmt.functionsOf body ++ [⟨token, sig, body⟩]
  | .choose _ ⟨condition, body⟩ more otherwise =>
    condition.functions ++ Stmt.functionsOf body ++ Stmt.functionsOfBranches more ++
      match otherwise with
      | some xs => Stmt.functionsOf xs
      | none => []
  | .loop _ init condition post body =>
    (match init with
      | some x => x.functions
      | none => []) ++
    (match condition with
      | some e => e.functions
      | none => []) ++
    (match post with
      | some x => x.functions
      | none => []) ++ Stmt.functionsOf body
  | .return _ value =>
    match value with
    | some e => e.functions
    | none => []
  | .record _ _ | .break _ | .continue _ | .external _ _ | .importUnit _ _ _ _
  | .generic _ _ _ => []

def Stmt.functionsOf : List Stmt → List FunctionDecl
  | [] => []
  | x :: xs => x.functions ++ Stmt.functionsOf xs

def Stmt.functionsOfBranches : List Branch → List FunctionDecl
  | [] => []
  | ⟨condition, body⟩ :: bs =>
    condition.functions ++ Stmt.functionsOf body ++ Stmt.functionsOfBranches bs

end

theorem Stmt.functions_loop (token : Token) (init : Option Stmt) (condition : Option Expr)
    (post : Option Stmt) (body : List Stmt) :
    (Stmt.loop token init condition post body).functions =
      init.elim [] Stmt.functions ++ condition.elim [] Expr.functions ++
        post.elim [] Stmt.functions ++ Stmt.functionsOf body := by
  cases init <;> cases condition <;> cases post <;> rfl

theorem Stmt.functions_return (token : Token) (value : Option Expr) :
    (Stmt.return token value).functions = value.elim [] Expr.functions := by
  cases value <;> rfl

theorem Stmt.mem_functionsOf {f : FunctionDecl} {xs : List Stmt} :
    f ∈ Stmt.functionsOf xs ↔ ∃ x ∈ xs, f ∈ x.functions := by
  induction xs with
  | nil => simp [Stmt.functionsOf]
  | cons x xs ih => simp [Stmt.functionsOf, ih]

def Item.functions : (i : Item) → i.Result → List FunctionDecl
  | .expr _, e | .node _, e | .list _, e | .condition _ _, e => e.functions
  | .exprs _, es | .args _ _, es | .elements _ _, es => Expr.functionsOf es
  | .values _, fs | .fields _ _ _, fs => Expr.functionsOfFields fs
  | .builtin _ _ _ _, (es, _) => Expr.functionsOf es
  | .guard _ _, e? | .result _, e? => e?.elim [] Expr.functions
  | .body _, (xs, _) => Stmt.functionsOf xs
  | .stmt _, x => x.functions
  | .clause _, x? => x?.elim [] Stmt.functions
  | .function _ _ _ _, xs | .stmts _, xs | .top _, xs => Stmt.functionsOf xs
  | .branches _ _, (bs, _) => Stmt.functionsOfBranches bs

namespace Table

/-- The table after functions have been recorded one after the other. -/
def record (t : List (String × FunctionDecl)) (fs : List FunctionDecl) :
    List (String × FunctionDecl) :=
  fs.foldl (fun t f => insert t f.sig.name f) t

theorem lookup_record (t : List (String × FunctionDecl)) (fs : List FunctionDecl) (name : String) :
    (record t fs).lookup name = t.lookup name ∨
      ∃ f ∈ fs, f.sig.name = name ∧ (record t fs).lookup name = some f := by
  induction fs generalizing t with
  | nil => exact .inl rfl
  | cons f fs ih =>
    obtain same | ⟨g, hg, named, found⟩ := ih (insert t f.sig.name f)
    · by_cases hf : f.sig.name = name
      · refine .inr ⟨f, List.mem_cons_self, hf, same.trans ?_⟩
        rw [← hf, lookup_insert_self]
      · exact .inl (same.trans (lookup_insert_of_ne (Ne.symm hf)))
    · exact .inr ⟨g, List.mem_cons_of_mem f hg, named, found⟩

end Table

open Check CheckState

namespace CheckState

variable {s t u : CheckState} {fs gs : List FunctionDecl}

/-- All functions that are recorded between two states are among `fs`. -/
def Records (fs : List FunctionDecl) (s t : CheckState) : Prop :=
  ∃ recorded, recorded ⊆ fs ∧ t.env.functions = Table.record s.env.functions recorded

theorem Records.of_eq (h : t.env.functions = s.env.functions) : Records fs s t :=
  ⟨[], List.nil_subset _, h⟩

theorem Records.refl (s : CheckState) : Records fs s s :=
  .of_eq rfl

theorem Records.mono (h : Records fs s t) (sub : fs ⊆ gs) : Records gs s t := by
  obtain ⟨recorded, among, same⟩ := h
  exact ⟨recorded, List.Subset.trans among sub, same⟩

theorem Records.trans (h : Records fs s t) (h' : Records gs t u) : Records (fs ++ gs) s u := by
  obtain ⟨first, among, same⟩ := h
  obtain ⟨second, among', same'⟩ := h'
  refine ⟨first ++ second, List.append_subset.mpr ⟨List.subset_append_of_subset_left _ among,
    List.subset_append_of_subset_right _ among'⟩, ?_⟩
  rw [same', same, Table.record, Table.record, Table.record, List.foldl_append]

theorem Records.after (same : t.env.functions = s.env.functions) (h : Records fs t u) :
    Records fs s u := by
  obtain ⟨recorded, among, eq⟩ := h
  exact ⟨recorded, among, same ▸ eq⟩

theorem Records.before (h : Records fs s t) (same : u.env.functions = t.env.functions) :
    Records fs s u := by
  obtain ⟨recorded, among, eq⟩ := h
  exact ⟨recorded, among, same.trans eq⟩

theorem records_recordFunction (s : CheckState) (f : FunctionDecl) :
    Records [f] s (s.recordFunction f) :=
  ⟨[f], List.Subset.refl _, rfl⟩

theorem functions_note (s : CheckState) (d : Diagnostic) :
    (s.note d).env.functions = s.env.functions := by
  obtain ⟨ds, h⟩ := note_eq_notes s d
  rw [h]
  rfl

theorem functions_noteUnless (s : CheckState) (ok : Prop) [Decidable ok] (d : Diagnostic) :
    (s.noteUnless ok d).env.functions = s.env.functions := by
  obtain ⟨ds, h⟩ := noteUnless_eq_notes s ok d
  rw [h]
  rfl

theorem functions_declareEach (s : CheckState) (names : List String) (types : List Ty) :
    (s.declareEach names types).env.functions = s.env.functions :=
  s.declareEach_same (·.env.functions) (fun _ _ _ => rfl) names types

theorem functions_leaveFunction (s around : CheckState) (sig : Signature) (name : String)
    (token : Token) : (s.leaveFunction around sig name token).env.functions = s.env.functions :=
  functions_noteUnless { s with returns := around.returns } _ _

end CheckState

namespace Check

variable {imp : Importer} {s s' : CheckState}

theorem Notes.functions {α : Type} {m : Check α} (hm : Notes m) {a : α} (h : Runs imp m s a s') :
    s'.env.functions = s.env.functions := by
  obtain ⟨ds, rfl⟩ := hm.state h
  rfl

theorem functions_checkReturn {token : Token} {got : Ty} {u : Unit}
    (h : Runs imp (checkReturn token got) s u s') : s'.env.functions = s.env.functions := by
  obtain ⟨_, rfl⟩ | ⟨expected, s₁, _, fits, rfl⟩ := runs_checkReturn.mp h
  · exact functions_note s _
  · have same := notes_expectEqual.functions fits
    exact same

theorem functions_recordDecl {token : Token} {decl decl' : Record}
    (h : Runs imp (recordDecl token decl) s decl' s') : s'.env.functions = s.env.functions := by
  obtain ⟨fields?, s₁, resolved, h'⟩ := runs_recordDecl.mp h
  have first := (notes_resolveFields _ _).functions resolved
  obtain ⟨_, _, rfl⟩ | ⟨fields, _, _, rfl⟩ := h'
  · exact first
  · exact first

theorem functions_foldl_note (s : CheckState) (ds : List Diagnostic) :
    (ds.foldl note s).env.functions = s.env.functions := by
  induction ds generalizing s with
  | nil => rfl
  | cons d ds ih => exact (ih (s.note d)).trans (functions_note s d)

theorem functions_imports {token : Token} {name : String} {typeArgs : List Ty} {path : String}
    (h : Imports imp token name typeArgs path s s') : s'.env.functions = s.env.functions := by
  cases h with
  | cycle _ => exact functions_note s _
  | unavailable _ _ => exact functions_note _ _
  | failed _ _ _ => exact (functions_foldl_note _ _).trans (functions_note _ _)
  | loaded _ _ _ => rfl

end Check

namespace Checks

variable {imp : Importer} {P : Law} {s s' : CheckState}

theorem records {i : Item} {r : i.Result} (steady : imp.Steady) (h : Checks imp P i s r s') :
    Records (i.functions r) s s' := by
  induction h with
  | expr _ _ ih => exact ih
  | ident typed => exact .of_eq (notes_identType.functions typed)
  | literal _ => exact .refl _
  | member _ typed => exact .of_eq (notes_moduleMember.functions typed)
  | field _ _ typed ih =>
    exact (ih.before (notes_fieldAccess.functions typed)).mono (List.subset_append_left _ _)
  | misplaced _ _ ihv iht =>
    exact ((ihv.trans iht).before (functions_note _ _)).mono
      (List.append_subset.mpr ⟨List.subset_append_right _ _, List.subset_append_left _ _⟩)
  | binary _ _ _ _ typed ih₁ ih₂ =>
    exact (ih₁.trans ih₂).before (notes_binaryType.functions typed)
  | unary _ typed ih => exact ih.before (notes_unaryType.functions typed)
  | index _ _ typed ih₁ ih₂ => exact (ih₁.trans ih₂).before (notes_indexType.functions typed)
  | call _ callable _ typed ih ihs =>
    exact ((ih.before (notes_calleeSignature.functions callable)).trans
      (ihs.after (functions_noteUnless _ _ _))).before (notes_resolveValue.functions typed)
  | uncallable _ notCallable _ ih ihs =>
    exact (ih.before (notes_calleeSignature.functions notCallable)).trans ihs
  | builtin known types _ ih =>
    exact (ih.after ((notes_resolveTypeArgs _).functions types)).after
      (notes_builtin?.functions known)
  | unknown notKnown _ ih => exact ih.after (notes_builtin?.functions notKnown)
  | structLit struct _ ih => exact ih.after (notes_literalRecord.functions struct)
  | structless notStruct _ ih => exact ih.after (notes_literalRecord.functions notStruct)
  | arrayLit array _ ih =>
    exact (ih.after (functions_noteUnless _ _ _)).after (notes_resolveAll.functions array)
  | arrayless _ resolved _ ih => exact ih.after (notes_resolveAll.functions resolved)
  | comma _ ih => exact ih.before (functions_note _ _)
  | lambda _ ih => exact ih
  | exprsNil | argsNil | elementsNil | valuesNil | fieldsNil => exact .refl _
  | exprsCons _ _ ih ihs | argsMore _ _ ih ihs | valuesCons _ _ ih ihs => exact ih.trans ihs
  | argsCons _ fits _ ih ihs | elementsCons _ fits _ ih ihs =>
    exact (ih.before (notes_expectEqual.functions fits)).trans ihs
  | fieldsCons _ fits _ ih ihs =>
    exact ((ih.after (functions_noteUnless _ _ _)).before
      (notes_checkField.functions fits)).trans ihs
  | sizeof | unreachable => exact .refl _
  | print _ _ ih => exact ih
  | cast _ typed ih =>
    simpa [Item.functions, Expr.functionsOf] using ih.before (notes_castType.functions typed)
  | alloc _ typed ih =>
    simpa [Item.functions, Expr.functionsOf] using ih.before (notes_expectInteger.functions typed)
  | free _ typed ih =>
    simpa [Item.functions, Expr.functionsOf] using ih.before (notes_expectPointer.functions typed)
  | realloc _ typed _ sized ih ihn =>
    simpa [Item.functions, Expr.functionsOf] using
      ((ih.before (notes_expectPointer.functions typed)).trans ihn).before
        (notes_expectInteger.functions sized)
  | codeless => exact .of_eq (functions_note _ _)
  | asm code _ ih => exact ih.after (notes_checkAssembly.functions code)
  | commas _ ih | single _ _ ih => exact ih
  | condition _ typed ih => exact ih.before (notes_checkCondition.functions typed)
  | unguarded | nothing => exact .refl _
  | guarded _ ih | something _ ih => exact ih
  | body inner left ih =>
    obtain ⟨_, rfl⟩ := inner.left_body steady left
    exact ih
  | @function sig _ _ _ s _ s₁ _ _ inner left ih =>
    obtain rfl := inner.left_function steady left
    exact (ih.after (functions_declareEach s.enter sig.names sig.params)).before
      (functions_leaveFunction _ _ _ _ _)
  | absent => exact .refl _
  | present _ ih => exact ih
  | expression _ ih => exact ih
  | declare _ typed ih =>
    have same := notes_declaredType.functions typed
    exact ih.before same
  | declareAll _ typed ih =>
    exact (ih.before (notes_declaredAll.functions typed)).before (functions_declareEach _ _ _)
  | assign _ _ fits ihv iht =>
    exact (ihv.trans iht).before (notes_checkAssignment.functions fits)
  | record declared => exact .of_eq (functions_recordDecl declared)
  | define _ ih => exact (Records.after rfl ih).trans (records_recordFunction _ _)
  | choose _ _ _ ihe ihx ihm =>
    exact ((ihe.trans ihx).trans ihm).mono (List.subset_append_left _ _)
  | chooseElse _ _ _ _ ihe ihx ihm ihy => exact ((ihe.trans ihx).trans ihm).trans ihy
  | loop before guard after inner leftLoop leftScope ihi ihe ihp ihx =>
    obtain rfl := Checks.left_loop steady before guard after inner leftLoop leftScope
    rw [Item.functions, Stmt.functions_loop]
    exact ((ihi.trans ihe).trans ihp).trans ihx
  | returned _ fits ih =>
    rw [Item.functions, Stmt.functions_return]
    exact ih.before (functions_checkReturn fits)
  | breaks inLoop | continues inLoop => exact .of_eq (notes_checkInLoop.functions inLoop)
  | external | generic => exact .refl _
  | importUnit types imported =>
    exact .of_eq ((functions_imports (runs_importUnit.mp imported)).trans
      ((notes_resolveTypeArgs _).functions types))
  | branchesNil => exact .refl _
  | branchesCons _ _ _ ihe ihx ihs => exact (ihe.trans ihx).trans ihs
  | stmtsNil _ | dead _ => exact .refl _
  | stmtsCons _ _ _ ih ihs => exact ih.trans ihs
  | topNil => exact .refl _
  | topCons _ _ ih ihs => exact ih.trans ihs

end Checks

def Stmt.binds (id : String) : Stmt → List String
  | .declare _ name _ _ => [name]
  | .declareAll _ names _ _ _ => names
  | .function _ sig _ => [sig.name]
  | .external _ sig => [Name.qualify sig.name id]
  | _ => []

namespace CheckState

variable {s : CheckState} {name : String}

theorem get?_declare_of_ne {other : String} (ne : name ≠ other) (ty : Ty) :
    (s.declare other ty).env.vars.get? name = s.env.vars.get? name :=
  Scopes.get?_add.trans (if_neg (Ne.symm ne))

theorem get?_declareEach_of_notMem {names : List String} (notIn : name ∉ names) (types : List Ty) :
    (s.declareEach names types).env.vars.get? name = s.env.vars.get? name := by
  induction names generalizing s types with
  | nil => rfl
  | cons other names ih =>
    rw [List.mem_cons, not_or] at notIn
    cases types with
    | nil => rfl
    | cons ty types => exact (ih notIn.2 types).trans (get?_declare_of_ne notIn.1 ty)

end CheckState

namespace Check

variable {imp : Importer} {s s' : CheckState}

theorem vars_recordDecl {token : Token} {decl decl' : Record}
    (h : Runs imp (recordDecl token decl) s decl' s') : s'.env.vars = s.env.vars := by
  obtain ⟨fields?, s₁, resolved, h'⟩ := runs_recordDecl.mp h
  have first := ((notes_resolveFields _ _).keeps resolved).vars
  obtain ⟨_, _, rfl⟩ | ⟨fields, _, _, rfl⟩ := h'
  · exact first
  · exact first

end Check

namespace Checks

variable {imp : Importer} {P : Law} {s s' : CheckState}

theorem get?_of_notMem_binds {x x' : Stmt} (steady : imp.Steady)
    (h : Checks imp P (.stmt x) s x' s') {name : String} (notIn : name ∉ x'.binds s.env.id) :
    s'.env.vars.get? name = s.env.vars.get? name := by
  have same (vars : s'.env.vars = s.env.vars) : s'.env.vars.get? name = s.env.vars.get? name := by
    rw [vars]
  have ne {other : String} (binds : x'.binds s.env.id = [other]) : name ≠ other := by
    rw [binds] at notIn
    exact fun eq => notIn (List.mem_singleton.mpr eq)
  cases h with
  | expression value => exact same (Keeps.vars (value.change steady))
  | declare given typed =>
    have kept := Keeps.trans (given.change steady) (notes_declaredType.keeps typed)
    refine (get?_declare_of_ne (ne rfl) _).trans ?_
    rw [kept.vars]
  | declareAll given typed =>
    have kept := Keeps.trans (given.change steady) (notes_declaredAll.keeps typed)
    refine (get?_declareEach_of_notMem notIn _).trans ?_
    rw [kept.vars]
  | assign given targets fits =>
    exact same ((Keeps.trans (given.change steady) (targets.change steady)).trans
      (notes_checkAssignment.keeps fits)).vars
  | record declared => exact same (vars_recordDecl declared)
  | define inner =>
    have kept : Keeps _ _ := inner.change steady
    exact (congrArg (Scopes.get? · name) kept.vars).trans (get?_declare_of_ne (ne rfl) _)
  | choose condition taken others =>
    exact same ((Keeps.trans (condition.change steady) (taken.change steady)).trans
      (others.change steady)).vars
  | chooseElse condition taken others otherwise =>
    exact same (((Keeps.trans (condition.change steady) (taken.change steady)).trans
      (others.change steady)).trans (otherwise.change steady)).vars
  | loop before guard after inner leftLoop leftScope =>
    obtain rfl := Checks.left_loop steady before guard after inner leftLoop leftScope
    rfl
  | returned given fits =>
    exact same (Keeps.trans (given.change steady) (keeps_checkReturn fits)).vars
  | breaks inLoop | continues inLoop => exact same (notes_checkInLoop.keeps inLoop).vars
  | external => exact get?_declare_of_ne (ne rfl) _
  | importUnit types imported =>
    exact same (((notes_resolveTypeArgs _).keeps types).trans
      (keeps_imports steady (runs_importUnit.mp imported))).vars
  | generic => rfl

theorem top_append {xs ys zs : List Stmt} (h : Checks imp P (.top xs) s (ys ++ zs) s') :
    ∃ xs₁ xs₂ t, Checks imp P (.top xs₁) s ys t ∧ Checks imp P (.top xs₂) t zs s' := by
  induction ys generalizing xs s with
  | nil => exact ⟨[], xs, s, .topNil, h⟩
  | cons y ys ih =>
    cases h with
    | topCons first rest =>
      obtain ⟨xs₁, xs₂, t, before, after⟩ := ih rest
      exact ⟨_, xs₂, t, .topCons first before, after⟩

theorem top_get?_of_notMem_binds {xs xs' : List Stmt} (steady : imp.Steady)
    (h : Checks imp P (.top xs) s xs' s') {name : String}
    (notIn : ∀ x ∈ xs', name ∉ x.binds s.env.id) :
    s'.env.vars.get? name = s.env.vars.get? name := by
  induction xs generalizing s xs' with
  | nil =>
    cases h with
    | topNil => rfl
  | cons x xs ih =>
    cases h with
    | topCons first rest =>
      have id : _ = s.env.id := (first.change steady).stays.id
      rw [ih rest (fun y hy => id ▸ notIn y (List.mem_cons_of_mem _ hy))]
      exact first.get?_of_notMem_binds steady (notIn _ List.mem_cons_self)

/-- Right after it is declared a function is known under its name, with its type and with its
body. -/
theorem known_of_function {x : Stmt} {token : Token} {sig : Signature} {body : List Stmt}
    (steady : imp.Steady) (h : Checks imp P (.stmt x) s (.function token sig body) s') :
    s'.env.vars.get? sig.name = some (.func sig) ∧
      s'.env.function? sig.name = some ⟨token, sig, body⟩ := by
  cases h with
  | define inner =>
    have kept : Keeps _ _ := inner.change steady
    refine ⟨?_, Table.lookup_insert_self⟩
    refine (congrArg (Scopes.get? · _) kept.vars).trans ?_
    exact Scopes.get?_add.trans (if_pos rfl)

/-- The last statement at the top that binds a name decides its type. If it is a function, the one
that is recorded under the name is this one, or one that is declared inside a later statement. -/
theorem known_of_last {xs before after : List Stmt} {token : Token} {sig : Signature}
    {body : List Stmt} (steady : imp.Steady)
    (h : Checks imp P (.top xs) s (before ++ .function token sig body :: after) s')
    (last : ∀ x ∈ after, sig.name ∉ x.binds s.env.id) :
    s'.env.vars.get? sig.name = some (.func sig) ∧
      ∃ f, s'.env.function? sig.name = some f ∧ f.sig.name = sig.name ∧
        (f = ⟨token, sig, body⟩ ∨ f ∈ Stmt.functionsOf after) := by
  obtain ⟨xs₁, xs₂, t, start, rest⟩ := h.top_append
  have id : t.env.id = s.env.id := (start.change steady).stays.id
  cases rest with
  | @topCons _ _ _ _ t₁ _ _ first rest =>
    have id₁ : t₁.env.id = s.env.id := (first.change steady).stays.id.trans id
    obtain ⟨typed, recorded⟩ := first.known_of_function steady
    refine ⟨(rest.top_get?_of_notMem_binds steady (id₁ ▸ last)).trans typed, ?_⟩
    obtain ⟨fs, among, same⟩ := rest.records steady
    have found := Table.lookup_record t₁.env.functions fs sig.name
    rw [← same] at found
    obtain old | ⟨f, hf, named, new⟩ := found
    · exact ⟨_, old.trans recorded, rfl, .inl rfl⟩
    · exact ⟨f, new, named, .inr (among hf)⟩

end Checks

namespace Build

/-- In an accepted unit, the last statement at the top that binds a name decides what is known of
it. If the statement declares a function, then its type stands under the name, and recorded under
the name is the function itself unless one of that name is declared inside a later statement. -/
theorem function_of_last_binding {source : String} {path : Path} {session session' : Session}
    {u : CheckedUnit} (built : file source path session = .ok (.ok u, session'))
    {before after : List Stmt} {token : Token} {sig : Signature} {body : List Stmt}
    (split : u.program.statements = before ++ .function token sig body :: after)
    (last : ∀ x ∈ after, sig.name ∉ x.binds u.env.id) :
    u.env.vars.get? sig.name = some (.func sig) ∧
    (∃ f, u.env.function? sig.name = some f ∧ f.sig.name = sig.name ∧
      (f = ⟨token, sig, body⟩ ∨ ∃ x ∈ after, f ∈ x.functions)) ∧
    ((∀ x ∈ after, ∀ f ∈ x.functions, f.sig.name ≠ sig.name) →
      u.env.function? sig.name = some ⟨token, sig, body⟩) := by
  obtain ⟨_, built, -⟩ := file_eq_ok.mp built
  have steady := (within_steady_total ((session.begin? path.normalize).getD session).loader.size).1
  have total := (within_steady_total ((session.begin? path.normalize).getD session).loader.size).2
  have ok := Lawful.any steady total
  cases unitWith_eq_ok.mp built with
  | accepted readable checked noErrors =>
    obtain rfl := split
    have derived := Checks.of_runs ok checked
    have id := (derived.change steady).stays.id
    obtain ⟨typed, f, found, named, which⟩ := derived.known_of_last steady (id ▸ last)
    rw [Stmt.mem_functionsOf] at which
    refine ⟨typed, ⟨f, found, named, which⟩, fun other => ?_⟩
    obtain rfl | ⟨x, hx, hf⟩ := which
    · exact found
    · exact absurd named (other x hx f hf)

/-- Whether a unit begins with a function whose name is bound by no other statement at the top and
has no other function inside a later one. -/
def beginsWithLast (u : CheckedUnit) : Bool :=
  match u.program.statements with
  | .function _ sig _ :: after =>
    after.all fun x =>
      !(x.binds u.env.id).contains sig.name && x.functions.all (·.sig.name ≠ sig.name)
  | _ => false

/-- A function inside one of the same name comes before the end of that one. -/
theorem function_of_last_binding_itself :
    ∃ u session' token sig body after,
      file ("func f() i32 \x7b\n func f() \x7b\n \x7d\n return 1\n\x7d\n" ++
        "func g() \x7b\n func h() \x7b\n \x7d\n\x7d") ⟨"main.cd"⟩
        (.start .default (.ofFiles [])) = .ok (.ok u, session') ∧
      u.program.statements = .function token sig body :: after ∧
      (∀ x ∈ after, sig.name ∉ x.binds u.env.id) ∧
      (∀ x ∈ after, ∀ f ∈ x.functions, f.sig.name ≠ sig.name) ∧
      u.env.vars.get? sig.name = some (.func sig) ∧
      u.env.function? sig.name = some ⟨token, sig, body⟩ := by
  have accepted : acceptsWith beginsWithLast (file
      ("func f() i32 \x7b\n func f() \x7b\n \x7d\n return 1\n\x7d\n" ++
        "func g() \x7b\n func h() \x7b\n \x7d\n\x7d") ⟨"main.cd"⟩
      (.start .default (.ofFiles []))) = true := by
    decide +kernel
  obtain ⟨u, session', built, test⟩ := exists_of_acceptsWith accepted
  unfold beginsWithLast at test
  split at test
  case h_1 token sig body after split =>
    simp only [List.all_eq_true, Bool.and_eq_true, Bool.not_eq_true', List.contains_eq_mem,
      decide_eq_false_iff_not, decide_eq_true_eq] at test
    have last : ∀ x ∈ after, sig.name ∉ x.binds u.env.id := fun x hx => (test x hx).1
    have other : ∀ x ∈ after, ∀ f ∈ x.functions, f.sig.name ≠ sig.name :=
      fun x hx => (test x hx).2
    obtain ⟨typed, -, recorded⟩ := function_of_last_binding built
      (show u.program.statements = [] ++ .function token sig body :: after from split) last
    exact ⟨u, session', token, sig, body, after, built, split, last, other, typed, recorded other⟩
  case h_2 => exact absurd test (by simp)

/-- Functions are not recorded by scopes: after `g`, the function `f` that is declared inside has
taken the place of the one at the top, whose type still stands under the name. -/
theorem function_replaced_inside :
    (match file "func f() i32 \x7b\n return 1\n\x7d\nfunc g() \x7b\n func f() \x7b\n \x7d\n\x7d"
        ⟨"main.cd"⟩ (.start .default (.ofFiles [])) with
      | .ok (.ok ⟨⟨_, [.function _ sig _, last]⟩, env⟩, _) =>
        some (sig.name, last.binds env.id, sig.result.text,
          (env.vars.get? sig.name).map Ty.text == some (Ty.func sig).text,
          (env.function? sig.name).map (·.sig.result.text))
      | _ => none) = some ("f-0", ["g-0"], "i32", true, some "void") := by
  decide +kernel

end Build

end FrontEnd
