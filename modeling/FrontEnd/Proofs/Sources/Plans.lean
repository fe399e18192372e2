import FrontEnd.Proofs.Sources.Types

namespace FrontEnd

open Check CheckState

namespace Sources

variable (S : Sources)

/-- What is known about an item that is to be checked. -/
def Takes : Item → Prop
  | .expr e | .node e | .list e => S.Given e.labels
  | .exprs es => S.Given (Expr.labelsOf es)
  | .args params es => (∀ t ∈ params, t.Of S.record) ∧ S.Given (Expr.labelsOf es)
  | .elements element es => element.Of S.record ∧ S.Given (Expr.labelsOf es)
  | .values fs => S.Given (Expr.labelsOfFields fs)
  | .fields decl _ fs => (Ty.record decl).Of S.record ∧ S.Given (Expr.labelsOfFields fs)
  | .builtin _ ty token es =>
    ty.Of S.record ∧ S.place token.start ∧ S.Given (Expr.labelsOf es)
  | .condition token e => S.place token.start ∧ S.Given e.labels
  | .guard token e? => S.place token.start ∧ S.Given (e?.elim [] Expr.labels)
  | .result e? => S.Given (e?.elim [] Expr.labels)
  | .body xs | .stmts xs | .top xs => S.Given (Stmt.labelsOf xs)
  | .function sig _ token xs =>
    (Ty.func sig).Of S.record ∧ S.place token.start ∧ S.Given (Stmt.labelsOf xs)
  | .stmt x => S.Given x.labels
  | .clause x? => S.Given (x?.elim [] Stmt.labels)
  | .branches token bs => S.place token.start ∧ S.Given (Stmt.labelsOfBranches bs)

def Gives : (i : Item) → i.Result → Prop
  | .expr _, e | .node _, e | .list _, e | .condition _ _, e => S.Has e.labels
  | .exprs _, es | .args _ _, es | .elements _ _, es => S.Has (Expr.labelsOf es)
  | .values _, fs | .fields _ _ _, fs => S.Has (Expr.labelsOfFields fs)
  | .builtin _ _ _ _, r => S.Has (Expr.labelsOf r.1) ∧ r.2.Of S.record
  | .guard _ _, e? | .result _, e? => S.Has (e?.elim [] Expr.labels)
  | .body _, r => S.Has (Stmt.labelsOf r.1)
  | .function _ _ _ _, xs | .stmts _, xs | .top _, xs => S.Has (Stmt.labelsOf xs)
  | .stmt _, x => S.Has x.labels
  | .clause _, x? => S.Has (x?.elim [] Stmt.labels)
  | .branches _ _, r => S.Has (Stmt.labelsOfBranches r.1)

def Outcome : Except (List Diagnostic) CheckedUnit → Prop
  | .ok u => S.Unit u
  | .error ds => ∀ d ∈ ds, S.place d.position

end Sources

namespace Plan

variable {S : Sources} {α β : Type} {Q : α → Prop} {R : β → Prop} {token : Token}
variable {f : α → Plan β} {file : Path}

/-- Every step of a plan keeps what is known, and if the parts and the imported units are as they
should be, the result is as `Q` says. -/
def Meets (S : Sources) (Q : α → Prop) : Plan α → Prop
  | done a => Q a
  | step m next => ∃ R, S.Does m.check R ∧ ∀ b, R b → (next b).Meets S Q
  | part i _ next => S.Takes i ∧ ∀ r, S.Gives i r → (next r).Meets S Q
  | ask _ typeArgs next =>
    (∀ t ∈ typeArgs, t.Of S.record) ∧
      ∀ r, (∀ x, r = .ok x → S.Outcome x) → (next r).Meets S Q

theorem Meets.pure {a : α} (h : Q a) : (pure a : Plan α).Meets S Q :=
  h

theorem Meets.bind {p : Plan α} (hp : p.Meets S Q) (hf : ∀ a, Q a → (f a).Meets S R) :
    (p >>= f).Meets S R := by
  change (p.bind f).Meets S R
  induction p with
  | done a => exact hf a hp
  | step m next ih =>
    obtain ⟨P, does, rest⟩ := hp
    exact ⟨P, does, fun b hb => ih b (rest b hb)⟩
  | part i sure next ih => exact ⟨hp.1, fun r hr => ih r (hp.2 r hr)⟩
  | ask file typeArgs next ih => exact ⟨hp.1, fun r hr => ih r (hp.2 r hr)⟩

theorem Meets.ite {c : Prop} [Decidable c] {p q : Plan α} (hp : p.Meets S Q) (hq : q.Meets S Q) :
    (if c then p else q).Meets S Q := by
  split
  · exact hp
  · exact hq

theorem Meets.note {m : Check α} {h : Notes m} (does : S.Does m Q)
    (rest : ∀ a, Q a → (f a).Meets S R) : (note m h >>= f).Meets S R :=
  ⟨Q, does, rest⟩

theorem Meets.change {m : Check α} {h : Tame m} (does : S.Does m Q)
    (rest : ∀ a, Q a → (f a).Meets S R) : (change m h >>= f).Meets S R :=
  ⟨Q, does, rest⟩

theorem Meets.check {i : Item} {sure : i.isSure = true} {f : i.Result → Plan β} (takes : S.Takes i)
    (rest : ∀ r, S.Gives i r → (f r).Meets S R) : (check i sure >>= f).Meets S R :=
  ⟨takes, rest⟩

theorem Meets.error {e : CheckError} {f : Unit → Plan β} (placed : S.place token.start)
    (rest : (f ()).Meets S R) : (error e token >>= f).Meets S R :=
  .note (Sources.does_error placed) fun _ _ => rest

theorem meets_begins : (begins file).Meets S fun _ => True :=
  ⟨_, Sources.does_begins, fun _ _ => trivial⟩

theorem meets_finishes : (finishes file).Meets S fun _ => True :=
  ⟨_, Sources.does_finishes, fun _ _ => trivial⟩

theorem meets_imported {typeArgs : List Ty} (ht : ∀ t ∈ typeArgs, t.Of S.record) :
    (imported file typeArgs).Meets S fun r => ∀ x, r = .ok x → S.Outcome x :=
  ⟨ht, fun _ hr => hr⟩

theorem meets_fail {fault : Fault} : (fail fault : Plan α).Meets S Q :=
  ⟨Q, Sources.does_throw, fun _ hb => hb⟩

open Sources

theorem meets_builtinCall {b : Builtin} {ty : Ty} {es : List Expr} (ht : ty.Of S.record)
    (placed : S.place token.start) (he : S.Given (Expr.labelsOf es)) :
    (builtinCall b ty token es).Meets S fun r => S.Has (Expr.labelsOf r.1) ∧ r.2.Of S.record := by
  obtain _ | ⟨e, _ | ⟨e', es⟩⟩ := es
  case nil =>
    cases b with
    | sizeof => exact ⟨has_nil, Ty.of_int⟩
    | print | println => exact ⟨has_nil, Ty.of_void⟩
    | unreachable =>
      refine .change does_setReturns fun _ _ => ?_
      refine .note does_get fun s known => ?_
      refine ⟨has_nil, ?_⟩
      cases expected : s.expected with
      | none => exact Ty.of_void
      | some t => exact known.expected t expected
    | asm => exact .error placed <| ⟨has_nil, Ty.of_todo⟩
    | _ => exact meets_fail
  case cons.nil =>
    have given : S.Given e.labels := by
      rw [Expr.labelsOf, given_append] at he
      exact he.1
    have alone {e : Expr} (h : S.Has e.labels) : S.Has (Expr.labelsOf [e]) := by
      simpa [Expr.labelsOf] using h
    cases b with
    | cast =>
      refine .check given fun e he => ?_
      exact .note (does_castType placed ht he.ty) fun _ ht => ⟨alone he, ht⟩
    | alloc =>
      exact .check given fun e he =>
        .note (does_expectInteger placed he.ty) fun _ _ => ⟨alone he, ht⟩
    | free =>
      exact .check given fun e he =>
        .note (does_expectPointer placed he.ty) fun _ _ => ⟨alone he, Ty.of_void⟩
    | print | println => exact .check given fun e he => ⟨alone he, Ty.of_void⟩
    | asm =>
      exact .note (does_checkAssembly placed) fun _ _ =>
        .check given fun e he => ⟨alone he, ht⟩
    | _ => exact meets_fail
  case cons.cons =>
    cases b with
    | realloc =>
      simp only [Expr.labelsOf, given_append] at he
      obtain ⟨first, second, rest⟩ := he
      refine .check first fun e he => .note (does_resolve he.ty) fun pointer hp =>
        .note (does_expectPointer placed hp) fun _ _ => .check second fun e' he' =>
          .note (does_expectInteger placed he'.ty) fun _ _ => ⟨?_, hp⟩
      simp only [Expr.labelsOf, has_append]
      exact ⟨he, he', rest.has⟩
    | print | println =>
      exact .check he fun es hes => ⟨hes, Ty.of_void⟩
    | asm =>
      exact .note (does_checkAssembly placed) fun _ _ =>
        .check he fun es hes => ⟨hes, ht⟩
    | _ => exact meets_fail

theorem given_expr {node : Node} {t : Ty} (h : S.Given (Expr.labels ⟨node, t, token⟩)) :
    S.place token.start ∧ S.Given node.labels := by
  rw [Expr.labels, given_token, given_inferred] at h
  exact ⟨h.1, h.2.2⟩

theorem has_expr {node : Node} {t : Ty} (placed : S.place token.start) (ht : t.Of S.record)
    (inner : S.Has node.labels) : S.Has (Expr.labels ⟨node, t, token⟩) := by
  rw [Expr.labels, has_token, has_inferred]
  exact ⟨placed, ht, inner⟩

theorem meets_expr {e : Expr} (he : S.Given e.labels) :
    (expr e).Meets S fun e => S.Has e.labels := by
  obtain ⟨node, t, token⟩ := e
  obtain ⟨placed, inner⟩ := given_expr he
  cases node with
  | ident name =>
    exact .note (does_identType placed) fun ty ht => .pure (has_expr placed ht has_nil)
  | integer value | float value | string value => exact he.has
  | binary op left right =>
    obtain ⟨hl, hr⟩ := given_append.mp inner
    have operator {op : InfixOp} {left right : Expr} {ty : Ty} (hl : S.Has left.labels)
        (hr : S.Has right.labels) (ht : ty.Of S.record) :
        S.Has (Expr.labels ⟨.binary op left right, ty, token⟩) :=
      has_expr placed ht (has_append.mpr ⟨hl, hr⟩)
    cases op
    case dot =>
      refine .note does_moduleOf? fun m? hm => ?_
      cases m? with
      | some m =>
        exact .note (does_moduleMember placed (hm m rfl) hr.has) fun r hr =>
          .pure (operator (hl.has.withType Ty.of_module) hr.1 hr.2)
      | none =>
        exact .check hl fun left hl => .note (does_fieldAccess placed hl.ty hr.has) fun r hr =>
          .pure (operator hl hr.1 hr.2)
    case assign =>
      exact .check hr fun right hr => .check hl fun left hl =>
        .error placed (.pure (operator hl hr Ty.of_todo))
    all_goals
      exact .check hl fun left hl => .check hr fun right hr =>
        .note (does_binaryType placed hl.ty hr.ty) fun ty ht => .pure (operator hl hr ht)
  | unary op operand =>
    exact .check inner fun operand inner => .note (does_unaryType placed inner.ty) fun ty ht =>
      .pure (has_expr placed ht inner)
  | index base index =>
    obtain ⟨hb, hi⟩ := given_append.mp inner
    exact .check hb fun base hb => .check hi fun index hi =>
      .note (does_indexType placed hb.ty hi.ty) fun ty ht =>
        .pure (has_expr placed ht (has_append.mpr ⟨hb, hi⟩))
  | call callee args =>
    obtain ⟨hc, ha⟩ := given_append.mp inner
    have called {callee : Expr} {args : List Expr} {ty : Ty} (hc : S.Has callee.labels)
        (ha : S.Has (Expr.labelsOf args)) (ht : ty.Of S.record) :
        S.Has (Expr.labels ⟨.call callee args, ty, token⟩) :=
      has_expr placed ht (has_append.mpr ⟨hc, ha⟩)
    refine .check hc fun callee hc => .note (does_calleeSignature placed hc.ty) fun sig? hs => ?_
    cases sig? with
    | none => exact .check ha fun args ha => .pure (called hc ha Ty.of_todo)
    | some sig =>
      obtain ⟨params, result⟩ := Ty.of_func.mp (hs sig rfl)
      have rest : Meets S (fun e : Expr => S.Has e.labels) (do
          let args ← check (.args sig.params args)
          return ⟨.call callee args, ← note (resolveValue sig.result token) notes_resolveValue,
            token⟩) :=
        .check ⟨params, ha⟩ fun args ha => .note (does_resolveValue result placed) fun ty ht =>
          .pure (called hc ha ht)
      exact .ite (.error placed rest) rest
  | builtin name typeArgs args =>
    obtain ⟨types, ha⟩ := given_append.mp inner
    have hts := given_types.mp types
    have called {typeArgs : List Ty} {args : List Expr} {ty : Ty}
        (hts : ∀ t ∈ typeArgs, t.Of S.record) (ha : S.Has (Expr.labelsOf args))
        (ht : ty.Of S.record) : S.Has (Expr.labels ⟨.builtin name typeArgs args, ty, token⟩) :=
      has_expr placed ht (has_append.mpr ⟨has_types.mpr hts, ha⟩)
    refine .note (does_builtin? placed) fun b? _ => ?_
    cases b? with
    | none => exact .check ha fun args ha => .pure (called hts ha Ty.of_todo)
    | some b =>
      refine .note (does_resolveTypeArgs placed hts) fun typeArgs hts => ?_
      have first : (typeArgs.headD .todo).Of S.record := by
        cases typeArgs with
        | nil => exact Ty.of_todo
        | cons t ts => exact hts t List.mem_cons_self
      exact (meets_builtinCall first placed ha).bind fun r hr => .pure (called hts hr.1 hr.2)
  | structLit name module? fields =>
    refine .note (does_literalRecord placed) fun r hr => ?_
    obtain ⟨name, _ | decl⟩ := r
    · exact .check inner fun fields hf => .pure (has_expr placed Ty.of_todo hf)
    · exact .check ⟨hr decl rfl, inner⟩ fun fields hf => .pure (has_expr placed (hr decl rfl) hf)
  | arrayLit ty elements =>
    obtain ⟨ht, hes⟩ := given_type.mp inner
    have made {ty : Ty} {elements : List Expr} (ht : ty.Of S.record)
        (hes : S.Has (Expr.labelsOf elements)) :
        S.Has (Expr.labels ⟨.arrayLit ty elements, ty, token⟩) :=
      has_expr placed ht (has_type.mpr ⟨ht, hes⟩)
    refine .note (does_resolveAll ht placed) fun ty ht => ?_
    cases ty
    case array element length =>
      have rest : Meets S (fun e : Expr => S.Has e.labels) (do
          return ⟨.arrayLit (.array element length) (← check (.elements element elements)),
            .array element length, token⟩) :=
        .check ⟨ht, hes⟩ fun elements hes => .pure (made ht hes)
      exact .ite (.error placed rest) rest
    all_goals exact .check hes fun elements hes => .pure (made ht hes)
  | comma items =>
    exact .check inner fun items hi => .error placed (.pure (has_expr placed Ty.of_todo hi))
  | function sig body =>
    obtain ⟨hs, hb⟩ := given_signature.mp inner
    refine .note does_get fun s known => ?_
    have resolved := known.resolver.resolveSignature hs
    exact .change does_setBarrier fun _ _ => .check ⟨resolved, placed, hb⟩ fun body hb =>
      .change does_setBarrier fun _ _ =>
        .pure (has_expr placed resolved (has_signature.mpr ⟨resolved, hb⟩))

theorem meets_stmt {x : Stmt} (hx : S.Given x.labels) :
    (stmt x).Meets S fun x => S.Has x.labels := by
  cases x with
  | expression token e =>
    obtain ⟨placed, he⟩ := given_token.mp hx
    exact .check he fun e he => .pure (has_token.mpr ⟨placed, he⟩)
  | declare token name ty value =>
    obtain ⟨placed, given⟩ := given_token.mp hx
    obtain ⟨ht, hv⟩ := given_type.mp given
    exact .check hv fun value hv => .note (does_declaredType placed ht hv.ty) fun ty ht =>
      .change (does_declare ht) fun _ _ =>
        .pure (has_token.mpr ⟨placed, has_type.mpr ⟨ht, hv⟩⟩)
  | declareAll token names ty types value =>
    simp only [Stmt.labels, List.cons_append, given_token, given_type, given_append] at hx
    obtain ⟨placed, ht, -, hv⟩ := hx
    refine .check hv fun value hv => .note (does_declaredAll placed ht hv.valueTypes) fun r hr =>
      .change (does_declareEach names hr.2) fun _ _ => .pure ?_
    simp only [Stmt.labels, List.cons_append, has_token, has_type, has_append, has_types]
    exact ⟨placed, hr.1, hr.2, hv⟩
  | assign token target value =>
    simp only [Stmt.labels, List.cons_append, given_token, given_append] at hx
    obtain ⟨placed, ht, hv⟩ := hx
    refine .check hv fun value hv => .check ht fun target ht =>
      .note (does_checkAssignment placed) fun _ _ => .pure ?_
    simp only [Stmt.labels, List.cons_append, has_token, has_append]
    exact ⟨placed, ht, hv⟩
  | record token decl =>
    obtain ⟨placed, given⟩ := given_token.mp hx
    obtain ⟨⟨ht, key⟩, -⟩ := given_record.mp given
    exact .change (does_recordDecl placed ht key) fun decl ht =>
      .pure (has_token.mpr ⟨placed, has_record.mpr ⟨ht, has_nil⟩⟩)
  | function token sig body =>
    obtain ⟨placed, given⟩ := given_token.mp hx
    obtain ⟨hs, hb⟩ := given_signature.mp given
    refine .note does_get fun s known => ?_
    have resolved := known.resolver.resolveSignature hs
    have made {body : List Stmt} (hb : S.Has (Stmt.labelsOf body)) :
        S.Has (Stmt.function token (s.resolver.resolveSignature sig) body).labels :=
      has_token.mpr ⟨placed, has_signature.mpr ⟨resolved, hb⟩⟩
    exact .change (does_declare resolved) fun _ _ =>
      .check ⟨resolved, placed, hb⟩ fun body hb =>
        .change (does_modifyEnv fun _ env => env.withFunction (made hb)) fun _ _ => .pure (made hb)
  | choose token first more otherwise =>
    obtain ⟨condition, body⟩ := first
    simp only [Stmt.labels_choose, given_token, given_append] at hx
    obtain ⟨placed, ⟨⟨hc, hb⟩, hm⟩, ho⟩ := hx
    cases otherwise with
    | none =>
      refine .check ⟨placed, hc⟩ fun condition hc => .check hb fun b hb =>
        .check ⟨placed, hm⟩ fun m hm => .change does_setReturns fun _ _ => .pure ?_
      simp only [Stmt.labels_choose, has_token, has_append]
      exact ⟨placed, ⟨⟨hc, hb⟩, hm⟩, has_nil⟩
    | some block =>
      refine .check ⟨placed, hc⟩ fun condition hc => .check hb fun b hb =>
        .check ⟨placed, hm⟩ fun m hm => .check ho fun o ho =>
          .change does_setReturns fun _ _ => .pure ?_
      simp only [Stmt.labels_choose, has_token, has_append]
      exact ⟨placed, ⟨⟨hc, hb⟩, hm⟩, ho⟩
  | loop token init condition post body =>
    simp only [Stmt.labels_loop, given_token, given_append] at hx
    obtain ⟨placed, ⟨⟨hi, hc⟩, hp⟩, hb⟩ := hx
    refine .change does_enterScope fun _ _ => .check hi fun init hi =>
      .check ⟨placed, hc⟩ fun condition hc => .check hp fun post hp =>
        .change does_enterLoop fun _ _ => .check hb fun b hb => .change does_leaveLoop fun _ _ =>
          .change does_setReturns fun _ _ => .change does_leaveScope fun _ _ => .pure ?_
    simp only [Stmt.labels_loop, has_token, has_append]
    exact ⟨placed, ⟨⟨hi, hc⟩, hp⟩, hb⟩
  | «return» token value =>
    rw [Stmt.labels_return, given_token] at hx
    refine .check hx.2 fun value hv => .change (does_checkReturn hx.1) fun _ _ => .pure ?_
    rw [Stmt.labels_return, has_token]
    exact ⟨hx.1, hv⟩
  | «break» token | «continue» token =>
    exact .note (does_checkInLoop (given_token.mp hx).1) fun _ _ => .pure hx.has
  | external token sig =>
    obtain ⟨placed, given⟩ := given_token.mp hx
    refine .note does_get fun s known => ?_
    have resolved := known.resolver.resolveSignature (given_signature.mp given).1
    exact .change (does_declare resolved) fun _ _ =>
      .pure (has_token.mpr ⟨placed, has_signature.mpr ⟨resolved, has_nil⟩⟩)
  | importUnit token name typeArgs path =>
    obtain ⟨placed, given⟩ := given_token.mp hx
    refine .note (does_resolveTypeArgs placed (given_types.mp given)) fun typeArgs hts =>
      .note does_get fun s _ => meets_begins.bind fun new _ => ?_
    have made : S.Has (Stmt.importUnit token name typeArgs path).labels :=
      has_token.mpr ⟨placed, has_types.mpr hts⟩
    cases new with
    | false => exact .error placed (.pure made)
    | true =>
      refine (meets_imported hts).bind fun r hr => meets_finishes.bind fun _ _ => ?_
      obtain reason | ds | unit := r
      · exact .error placed (.pure made)
      · exact .error placed (.note (does_reportAll (hr _ rfl)) fun _ _ => .pure made)
      · have known : S.Unit unit := hr _ rfl
        exact .change (does_modifyEnv fun _ env => env.withModule known) fun _ _ => .pure made
  | generic token name ty => exact hx.has

theorem meets_of {i : Item} (takes : S.Takes i) : (of i).Meets S (S.Gives i) := by
  match i with
  | .expr e | .node e => exact meets_expr takes
  | .exprs [] | .args _ [] | .elements _ [] | .values [] | .fields _ _ [] => exact has_nil
  | .exprs (e :: es) =>
    obtain ⟨he, hes⟩ := given_append.mp takes
    exact .check he fun e he => .check hes fun es hes => .pure (has_append.mpr ⟨he, hes⟩)
  | .args params (e :: es) =>
    obtain ⟨hp, given⟩ := takes
    obtain ⟨he, hes⟩ := given_append.mp given
    have tail : ∀ t ∈ params.tail, t.Of S.record := fun t ht => hp t (List.mem_of_mem_tail ht)
    refine .check he fun e he => ?_
    have rest : Meets S (S.Gives (.args params (e :: es))) (do
        return e :: (← check (.args params.tail es))) :=
      .check ⟨tail, hes⟩ fun es hes => .pure (has_append.mpr ⟨he, hes⟩)
    cases params with
    | nil => exact rest
    | cons param params => exact .note (does_expectEqual he.token) fun _ _ => rest
  | .elements element (e :: es) =>
    obtain ⟨ht, given⟩ := takes
    obtain ⟨he, hes⟩ := given_append.mp given
    exact .check he fun e he => .note (does_expectEqual he.token) fun _ _ =>
      .check ⟨ht, hes⟩ fun es hes => .pure (has_append.mpr ⟨he, hes⟩)
  | .values (⟨name, value⟩ :: fields) =>
    obtain ⟨hv, hf⟩ := given_append.mp takes
    exact .check hv fun value hv => .check hf fun fields hf => .pure (has_append.mpr ⟨hv, hf⟩)
  | .fields decl seen (⟨name, value⟩ :: fields) =>
    obtain ⟨ht, given⟩ := takes
    obtain ⟨hv, hf⟩ := given_append.mp given
    have rest : Meets S (S.Gives (.fields decl seen (⟨name, value⟩ :: fields))) (do
        let value ← check (.expr value)
        note (checkField decl name value) notes_checkField
        return ⟨name, value⟩ :: (← check (.fields decl (name :: seen) fields))) :=
      .check hv fun value hv => .note (does_checkField hv) fun _ _ =>
        .check ⟨ht, hf⟩ fun fields hf => .pure (has_append.mpr ⟨hv, hf⟩)
    exact .ite (.error hv.has.token rest) rest
  | .builtin b ty token es => exact meets_builtinCall takes.1 takes.2.1 takes.2.2
  | .list e =>
    have single : (check (.expr e)).Meets S fun e => S.Has e.labels := ⟨takes, fun _ he => he⟩
    obtain ⟨node, t, token⟩ := e
    cases node
    case comma items =>
      obtain ⟨placed, hi⟩ := given_expr takes
      exact .check hi fun items hi => .pure (has_expr placed Ty.of_void hi)
    all_goals exact single
  | .condition token e =>
    exact .check takes.2 fun e he => .note (does_checkCondition takes.1 he.ty) fun _ _ => .pure he
  | .guard token (some e) => exact .check takes fun e he => .pure he
  | .guard _ none | .result none | .clause none => exact has_nil
  | .result (some e) => exact .check takes fun e he => .pure he
  | .body xs =>
    exact .change does_enterBranch fun _ _ => .check takes fun xs hxs =>
      .change does_leaveBranch fun _ _ => .pure hxs
  | .function sig name token xs =>
    exact .change (does_enterFunction takes.1) fun around known => .check takes.2.2 fun xs hxs =>
      .change (does_leaveFunction known takes.2.1) fun _ _ => .pure hxs
  | .stmt x => exact meets_stmt takes
  | .clause (some x) => exact .check takes fun x hx => .pure hx
  | .stmts [] | .top [] => exact has_nil
  | .stmts (x :: xs) =>
    obtain ⟨hx, hxs⟩ := given_append.mp takes
    exact .note does_get fun s _ => .ite (.pure takes.has)
      (.check hx fun x hx => .check hxs fun xs hxs => .pure (has_append.mpr ⟨hx, hxs⟩))
  | .branches _ [] => exact has_nil
  | .branches token (⟨condition, body⟩ :: more) =>
    obtain ⟨placed, given⟩ := takes
    simp only [Stmt.labelsOfBranches, given_append] at given
    obtain ⟨⟨hc, hb⟩, hm⟩ := given
    refine .check ⟨placed, hc⟩ fun condition hc => .check hb fun b hb =>
      .check ⟨placed, hm⟩ fun m hm => .pure ?_
    simp only [Gives, Stmt.labelsOfBranches, has_append]
    exact ⟨⟨hc, hb⟩, hm⟩
  | .top (x :: xs) =>
    obtain ⟨hx, hxs⟩ := given_append.mp takes
    exact .check hx fun x hx => .check hxs fun xs hxs => .pure (has_append.mpr ⟨hx, hxs⟩)

end Plan

end FrontEnd
