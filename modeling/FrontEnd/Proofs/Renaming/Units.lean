import FrontEnd.Environment
import FrontEnd.Proofs.Renaming.Types
import FrontEnd.Syntax.Printer

namespace FrontEnd

namespace Scopes

variable {α β : Type}

def Entry.map (f : String → String) (g : α → β) : Entry α → Entry β
  | .frame => .frame
  | .binding name value => .binding (f name) (g value)

def map (f : String → String) (g : α → β) (s : Scopes α) : Scopes β :=
  ⟨s.entries.map (Entry.map f g)⟩

variable {f : String → String} {g : α → β}

theorem frames_map (es : List (Entry α)) : frames (es.map (Entry.map f g)) = frames es := by
  induction es with
  | nil => rfl
  | cons e es ih =>
    cases e with
    | frame => exact congrArg (· + 1) ih
    | binding => exact ih

theorem depth_map (s : Scopes α) : (s.map f g).depth = s.depth :=
  frames_map s.entries

theorem find?_map (hf : Function.Injective f) (name : String) (es : List (Entry α)) :
    find? (f name) (es.map (Entry.map f g)) = (find? name es).map (Prod.map g id) := by
  induction es with
  | nil => rfl
  | cons e es ih =>
    cases e with
    | frame => exact ih
    | binding n v =>
      rw [List.map_cons, Entry.map, find?, find?, if_congr hf.eq_iff rfl rfl, frames_map, ih]
      split
      · rfl
      · rfl

theorem get?_map (hf : Function.Injective f) (s : Scopes α) (name : String) :
    (s.map f g).get? (f name) = (s.get? name).map g := by
  rw [get?, map, find?_map hf, get?]
  cases find? name s.entries <;> rfl

theorem depthOf?_map (hf : Function.Injective f) (s : Scopes α) (name : String) :
    (s.map f g).depthOf? (f name) = s.depthOf? name := by
  rw [depthOf?, map, find?_map hf, depthOf?]
  cases find? name s.entries <;> rfl

theorem contains_map (hf : Function.Injective f) (s : Scopes α) (name : String) :
    (s.map f g).contains (f name) = s.contains name := by
  rw [contains, get?_map hf, Option.isSome_map, contains]

theorem leave_map {s s' : Scopes α} (h : s.leave = .ok s') :
    (s.map f g).leave = .ok (s'.map f g) := by
  have below : ∀ es : List (Entry α), belowFrame? (es.map (Entry.map f g)) =
      (belowFrame? es).map (List.map (Entry.map f g)) := by
    intro es
    induction es with
    | nil => rfl
    | cons e es ih =>
      cases e with
      | frame => rfl
      | binding => exact ih
  unfold leave at h ⊢
  rw [map, below]
  cases inner : belowFrame? s.entries with
  | none =>
    rw [inner] at h
    cases h
  | some es =>
    rw [inner] at h
    cases h
    rfl

end Scopes

theorem Table.insert_map {α β : Type} {f : String → String} (hf : Function.Injective f) (g : α → β)
    (t : List (String × α)) (key : String) (value : α) :
    Table.insert (t.map fun p => (f p.1, g p.2)) (f key) (g value) =
      (Table.insert t key value).map fun p => (f p.1, g p.2) := by
  simp [Table.insert, List.filter_map, Function.comp_def, hf.eq_iff]

namespace Renaming

variable (ρ : Renaming)

theorem paramsText_signature (sig : Signature) :
    (ρ.map.signature sig).paramsText = sig.paramsText := by
  simp [Signature.paramsText, Translation.signature, List.zip_map, Function.comp_def, ρ.bare_name,
    ρ.text_type]

theorem resultText_signature (sig : Signature) :
    (ρ.map.signature sig).resultText = sig.resultText := by
  simp [Signature.resultText, Translation.signature, ρ.text_type]

theorem declText_signature (sig : Signature) : (ρ.map.signature sig).declText = sig.declText := by
  rw [Signature.declText, paramsText_signature, resultText_signature, Signature.declText]
  simp [Translation.signature, ρ.bare_name]

theorem declText_record (decl : Record) : (ρ.map.record decl).declText = decl.declText := by
  simp [Record.declText, Translation.record, Translation.field, Function.comp_def, ρ.bare_name,
    ρ.text_type]

mutual

theorem text_expr : ∀ e : Expr, (ρ.map.tree.expr e).text = e.text
  | ⟨.ident name, _, _⟩ => ρ.bare_name name
  | ⟨.integer _, _, _⟩ | ⟨.float _, _, _⟩ | ⟨.string _, _, _⟩ => rfl
  | ⟨.binary _ left right, _, _⟩ => by
    rw [Relabelling.expr, Expr.text, Expr.text, text_expr left, text_expr right]
  | ⟨.unary _ operand, _, _⟩ => by rw [Relabelling.expr, Expr.text, Expr.text, text_expr operand]
  | ⟨.index base index, _, _⟩ => by
    rw [Relabelling.expr, Expr.text, Expr.text, text_expr base, text_expr index]
  | ⟨.call callee args, _, _⟩ => by
    rw [Relabelling.expr, Expr.text, Expr.text, text_expr callee, texts_exprs args]
  | ⟨.builtin _ typeArgs args, _, _⟩ => by
    have types : Ty.texts (typeArgs.map ρ.map.tree.type) = Ty.texts typeArgs := by
      rw [← ρ.texts_types typeArgs, ρ.types_eq_map]
      rfl
    rw [Relabelling.expr, Expr.text, Expr.text, types, texts_exprs args]
  | ⟨.structLit name none fields, _, _⟩ => by
    have bare : Name.bare (ρ.map.tree.name name) = Name.bare name := ρ.bare_name name
    simp only [Relabelling.expr, Expr.text, Option.map_none, bare, fieldsText_fields fields]
  | ⟨.structLit name (some m) fields, _, _⟩ => by
    have bare (n : String) : Name.bare (ρ.map.tree.name n) = Name.bare n := ρ.bare_name n
    simp only [Relabelling.expr, Expr.text, Option.map_some, bare, fieldsText_fields fields]
  | ⟨.arrayLit ty elements, _, _⟩ => by
    have type : (ρ.map.tree.type ty).text = ty.text := ρ.text_type ty
    rw [Relabelling.expr, Expr.text, Expr.text, type, texts_exprs elements]
  | ⟨.comma items, _, _⟩ => by rw [Relabelling.expr, Expr.text, Expr.text, texts_exprs items]
  | ⟨.function sig body, _, _⟩ => by
    have params : (ρ.map.tree.signature sig).paramsText = sig.paramsText :=
      ρ.paramsText_signature sig
    have result : (ρ.map.tree.signature sig).resultText = sig.resultText :=
      ρ.resultText_signature sig
    rw [Relabelling.expr, Expr.text, Expr.text, texts_stmts body, params, result]

theorem texts_exprs : ∀ es : List Expr, Expr.texts (ρ.map.tree.exprs es) = Expr.texts es
  | [] => rfl
  | e :: es => by rw [Relabelling.exprs, Expr.texts, Expr.texts, text_expr e, texts_exprs es]

theorem fieldsText_fields :
    ∀ fs : List FieldInit, Expr.fieldsText (ρ.map.tree.fields fs) = Expr.fieldsText fs
  | [] => rfl
  | ⟨_, value⟩ :: fs => by
    rw [Relabelling.fields, Expr.fieldsText, Expr.fieldsText, text_expr value, fieldsText_fields fs]

theorem text_stmt : ∀ x : Stmt, (ρ.map.tree.stmt x).text = x.text
  | .expression _ e => by rw [Relabelling.stmt, Stmt.text, Stmt.text, text_expr e]
  | .declare _ name ty value => by
    have bare : Name.bare (ρ.map.tree.name name) = Name.bare name := ρ.bare_name name
    have type : (ρ.map.tree.type ty).text = ty.text := ρ.text_type ty
    rw [Relabelling.stmt, Stmt.text, Stmt.text, bare, type, text_expr value]
  | .declareAll _ names ty _ value => by
    have bare : (names.map ρ.map.tree.name).map Name.bare = names.map Name.bare := by
      simp [Translation.tree, Function.comp_def, ρ.bare_name]
    have type : (ρ.map.tree.type ty).text = ty.text := ρ.text_type ty
    rw [Relabelling.stmt, Stmt.text, Stmt.text, bare, type, text_expr value]
  | .assign _ target value => by
    rw [Relabelling.stmt, Stmt.text, Stmt.text, text_expr target, text_expr value]
  | .record _ decl => ρ.declText_record decl
  | .function _ sig body => by
    have decl : (ρ.map.tree.signature sig).declText = sig.declText := ρ.declText_signature sig
    rw [Relabelling.stmt, Stmt.text, Stmt.text, decl, texts_stmts body]
  | .choose _ ⟨condition, body⟩ more none => by
    rw [Relabelling.stmt, Stmt.text, Stmt.text, text_expr condition, texts_stmts body,
      branchesText_branches more]
  | .choose _ ⟨condition, body⟩ more (some otherwise) => by
    rw [Relabelling.stmt, Stmt.text, Stmt.text, text_expr condition, texts_stmts body,
      branchesText_branches more, texts_stmts otherwise]
  | .loop _ init condition post body => by
    have first := optionText_stmt init
    have guard := optionText_expr condition
    have last := optionText_stmt post
    have inner := texts_stmts body
    rw [ρ.map.tree.stmt_loop]
    cases init <;> cases condition <;> cases post <;> simp_all [Stmt.text]
  | .return _ none => rfl
  | .return _ (some value) => by rw [Relabelling.stmt, Stmt.text, Stmt.text, text_expr value]
  | .break _ | .continue _ => rfl
  | .external _ sig => by
    have decl : (ρ.map.tree.signature sig).declText = sig.declText := ρ.declText_signature sig
    rw [Relabelling.stmt, Stmt.text, Stmt.text, decl]
  | .importUnit _ name typeArgs _ => by
    have bare : Name.bare (ρ.map.tree.name name) = Name.bare name := ρ.bare_name name
    have types : Ty.texts (typeArgs.map ρ.map.tree.type) = Ty.texts typeArgs := by
      rw [← ρ.texts_types typeArgs, ρ.types_eq_map]
      rfl
    rw [Relabelling.stmt, Stmt.text, Stmt.text, bare, types]
  | .generic _ _ _ => rfl

theorem optionText_expr :
    ∀ e? : Option Expr, (e?.map ρ.map.tree.expr).map Expr.text = e?.map Expr.text
  | none => rfl
  | some e => congrArg some (text_expr e)

theorem optionText_stmt :
    ∀ x? : Option Stmt, (x?.map ρ.map.tree.stmt).map Stmt.text = x?.map Stmt.text
  | none => rfl
  | some x => congrArg some (text_stmt x)

theorem texts_stmts : ∀ xs : List Stmt, Stmt.texts (ρ.map.tree.stmts xs) = Stmt.texts xs
  | [] => rfl
  | x :: xs => by rw [Relabelling.stmts, Stmt.texts, Stmt.texts, text_stmt x, texts_stmts xs]

theorem branchesText_branches :
    ∀ bs : List Branch, Stmt.branchesText (ρ.map.tree.branches bs) = Stmt.branchesText bs
  | [] => rfl
  | ⟨condition, body⟩ :: bs => by
    rw [Relabelling.branches, Stmt.branchesText, Stmt.branchesText, text_expr condition,
      texts_stmts body, branchesText_branches bs]

end

def function (f : FunctionDecl) : FunctionDecl :=
  ⟨f.token, ρ.map.signature f.sig, ρ.map.tree.stmts f.body⟩

mutual

def environment (ρ : Renaming) : Environment → Environment
  | ⟨id, directory, vars, types, functions, modules⟩ =>
    ⟨ρ.unit id, directory, vars.map ρ.name ρ.type, types.map ρ.name ρ.type,
      functions.map fun p => (ρ.name p.1, ρ.function p.2), ρ.modules modules⟩

def modules (ρ : Renaming) : List (String × Module) → List (String × Module)
  | [] => []
  | (key, ⟨name, path, ⟨program, env⟩⟩) :: ms =>
    (ρ.name key, ⟨ρ.name name, path, ⟨ρ.map.program program, ρ.environment env⟩⟩) :: ρ.modules ms

end

def checkedUnit (u : CheckedUnit) : CheckedUnit :=
  ⟨ρ.map.program u.program, ρ.environment u.env⟩

def module (m : Module) : Module :=
  ⟨ρ.name m.name, m.path, ρ.checkedUnit m.unit⟩

theorem modules_eq_map (ms : List (String × Module)) :
    ρ.modules ms = ms.map fun p => (ρ.name p.1, ρ.module p.2) := by
  induction ms with
  | nil => rfl
  | cons p ms ih =>
    obtain ⟨key, ⟨name, path, ⟨program, env⟩⟩⟩ := p
    rw [modules, ih, List.map_cons]
    rfl

section Environment

variable (e : Environment)

@[simp]
theorem environment_id : (ρ.environment e).id = ρ.unit e.id := by
  cases e
  rfl

@[simp]
theorem environment_directory : (ρ.environment e).directory = e.directory := by
  cases e
  rfl

@[simp]
theorem environment_vars : (ρ.environment e).vars = e.vars.map ρ.name ρ.type := by
  cases e
  rfl

@[simp]
theorem environment_types : (ρ.environment e).types = e.types.map ρ.name ρ.type := by
  cases e
  rfl

@[simp]
theorem environment_functions :
    (ρ.environment e).functions = e.functions.map fun p => (ρ.name p.1, ρ.function p.2) := by
  cases e
  rfl

@[simp]
theorem environment_modules :
    (ρ.environment e).modules = e.modules.map fun p => (ρ.name p.1, ρ.module p.2) := by
  cases e
  rw [← modules_eq_map]
  rfl

theorem module?_environment (name : String) :
    (ρ.environment e).module? (ρ.name name) = (e.module? name).map ρ.module := by
  rw [Environment.module?, environment_modules]
  exact Table.lookup_map ρ.name_injective ρ.module e.modules name

section Lookup

variable {ρ} {registry registry' : List (String × Ty)}
  (h : ∀ name, registry'.lookup (ρ.name name) = (registry.lookup name).map ρ.type)
include h

theorem type?_environment (name : String) :
    (ρ.environment e).type? registry' (ρ.name name) = (e.type? registry name).map ρ.type := by
  rw [Environment.type?, Environment.type?, environment_types, Scopes.get?_map ρ.name_injective, h,
    Option.map_or]

theorem typeThrough?_environment (name : String) (modules : List String) :
    Environment.typeThrough? registry' (ρ.name name) (modules.map ρ.name) (ρ.environment e) =
      (Environment.typeThrough? registry name modules e).map ρ.type := by
  induction modules generalizing e with
  | nil =>
    rw [List.map_nil, Environment.typeThrough?, Environment.typeThrough?, environment_id,
      ← name_requalify]
    exact type?_environment e h _
  | cons module modules ih =>
    rw [List.map_cons, Environment.typeThrough?, Environment.typeThrough?, environment_id,
      ← name_requalify, module?_environment]
    cases e.module? (Name.requalify module e.id) with
    | none => rfl
    | some m => exact ih m.unit.env

theorem lookup_environment (ref : TypeRef) :
    (ρ.environment e).lookup registry' (ρ.ref ref) = (e.lookup registry ref).map ρ.type := by
  obtain ⟨name, modules⟩ := ref
  cases modules with
  | nil => exact type?_environment e h name
  | cons module modules =>
    have found := ρ.module?_environment e module
    simp only [Environment.lookup, Renaming.ref, List.map_cons, found]
    cases e.module? module with
    | none => rfl
    | some m => exact typeThrough?_environment m.unit.env h name modules

end Lookup

end Environment

mutual

theorem length_declared : ∀ e : Environment, (ρ.environment e).declared.length = e.declared.length
  | ⟨_, _, _, types, _, modules⟩ => by
    have values : (types.map ρ.name ρ.type).values = types.values.map ρ.type := by
      obtain ⟨entries⟩ := types
      simp only [Scopes.values, Scopes.map, List.filterMap_map, List.map_filterMap]
      congr 1
      funext entry
      cases entry <;> rfl
    rw [environment, Environment.declared, Environment.declared, List.length_append,
      List.length_append, values, List.length_map, length_declaredIn modules]

theorem length_declaredIn : ∀ ms : List (String × Module),
    (Module.declaredIn (ρ.modules ms)).length = (Module.declaredIn ms).length
  | [] => rfl
  | (_, ⟨_, _, ⟨_, env⟩⟩) :: ms => by
    rw [modules, Module.declaredIn, Module.declaredIn, List.length_append, List.length_append,
      length_declared env, length_declaredIn ms]

end

end Renaming

end FrontEnd
