import FrontEnd.Proofs.Checking.Silent

namespace FrontEnd

open Check CheckState

namespace CheckState

variable {s t u : CheckState} {d : Diagnostic}

/-- Errors are only added, up to the same limit. -/
structure Appends (s t : CheckState) : Prop where
  config : t.session.config = s.session.config
  errors : s.errors <+: t.errors

theorem Appends.trans (h : Appends s t) (h' : Appends t u) : Appends s u :=
  ⟨h'.config.trans h.config, h.errors.trans h'.errors⟩

theorem Stays.appends (h : Stays s t) : Appends s t :=
  ⟨h.config, h.errors⟩

/-- No error has been found on the way from one state to another, none that was left out either. -/
structure Calm (s t : CheckState) : Prop where
  room : s.Room
  errors : t.errors = s.errors

theorem Calm.split (h : Calm s u) (first : Appends s t) (rest : Appends t u) :
    Calm s t ∧ Calm t u := by
  have same : t.errors = s.errors :=
    (first.errors.eq_of_length_le (h.errors ▸ rest.errors.length_le)).symm
  refine ⟨⟨h.room, same⟩, ?_, h.errors.trans same.symm⟩
  unfold Room
  rw [first.config, same]
  exact h.room

theorem not_calm_note (before : Appends s t) : ¬ Calm s (t.note d) := by
  intro h
  have noted := (h.split before (keeps_note t d).toStays.appends).2
  have errors := noted.errors
  rw [note_of_room noted.room] at errors
  simp [notes] at errors

theorem calm_noteUnless {ok : Prop} [Decidable ok] (h : Calm s (s.noteUnless ok d)) :
    ok ∧ s.noteUnless ok d = s := by
  unfold noteUnless at *
  split at h
  case isTrue holds => exact ⟨holds, if_pos holds⟩
  case isFalse => exact absurd h (not_calm_note (Stays.refl s).appends)

theorem Quiet.calm (q : t.Quiet) (h : Appends s t) : Calm s t := by
  have none : s.errors = [] := List.prefix_nil.mp (q.errors ▸ h.errors)
  have uncapped : s.Uncapped :=
    (congrArg Config.maxCheckErrors h.config).symm.trans q.uncapped
  exact ⟨uncapped.room, q.errors.trans none.symm⟩

end CheckState

namespace Check

variable {α : Type} {m : Check α} {imp : Importer} {s t u : CheckState} {a : α}

theorem Notes.appends (hm : Notes m) (h : Runs imp m s a t) : Appends s t :=
  (hm.keeps h).toStays.appends

theorem Notes.calm (hm : Notes m) (h : Runs imp m s a t) (q : Calm s t) : t = s := by
  obtain ⟨ds, rfl⟩ := hm.state h
  have none : ds = [] := List.append_right_eq_self.mp q.errors
  rw [none, notes_nil]

theorem Notes.calm_first (hm : Notes m) (h : Runs imp m s a t) (rest : Appends t u)
    (q : Calm s u) : t = s :=
  hm.calm h (q.split (hm.appends h) rest).1

theorem Notes.calm_last (hm : Notes m) (h : Runs imp m t a u) (first : Appends s t)
    (q : Calm s u) : Calm s t ∧ u = t :=
  have ⟨before, after⟩ := q.split first (hm.appends h)
  ⟨before, hm.calm h after⟩

end Check

/-- What an item says about the paths through it, before its types are filled in and after. -/
def Item.Returns : (i : Item) → CheckState → i.Result → CheckState → Prop
  | .expr e, s, e', s' | .node e, s, e', s' | .list e, s, e', s' | .condition _ e, s, e', s' =>
    e'.stops = e.stops ∧ s'.returns = (s.returns || e.stops)
  | .exprs es, s, es', s' | .args _ es, s, es', s' | .elements _ es, s, es', s' =>
    Expr.anyStops es' = Expr.anyStops es ∧ s'.returns = (s.returns || Expr.anyStops es)
  | .values fs, s, fs', s' | .fields _ _ fs, s, fs', s' =>
    Expr.anyFieldStops fs' = Expr.anyFieldStops fs ∧
      s'.returns = (s.returns || Expr.anyFieldStops fs)
  | .builtin b _ _ es, s, (es', _), s' =>
    Expr.anyStops es' = Expr.anyStops es ∧
      s'.returns = (s.returns || (b = .unreachable || Expr.anyStops es))
  | .body xs, _, (xs', returns), s' =>
    Stmt.anyReturns xs' = Stmt.anyReturns xs ∧ returns = Stmt.anyReturns xs ∧ s'.returns = false
  | .function _ _ _ xs, s, xs', s' =>
    Stmt.anyReturns xs' = Stmt.anyReturns xs ∧ s'.returns = s.returns
  | .stmt x, s, x', s' => x'.returns = x.returns ∧ (s.returns = false → s'.returns = x.returns)
  | .stmts xs, s, xs', s' =>
    Stmt.anyReturns xs' = Stmt.anyReturns xs ∧ s'.returns = (s.returns || Stmt.anyReturns xs)
  | .branches _ bs, _, (bs', all), _ =>
    Stmt.branchesReturn bs' = Stmt.branchesReturn bs ∧ all = Stmt.branchesReturn bs
  | .guard _ _, _, _, _ | .result _, _, _, _ | .clause _, _, _, _ | .top _, _, _, _ => True

theorem CheckState.moduleOf?_eq_some {s : CheckState} {e : Expr} {m : Module}
    (h : s.moduleOf? e = some m) :
    ∃ name, e.node = .ident name ∧ s.env.vars.contains name = false ∧
      s.env.module? name = some m := by
  obtain ⟨node, ty, token⟩ := e
  cases node with
  | ident name =>
    simp only [moduleOf?, Expr.name?] at h
    split at h
    case isTrue => simp at h
    case isFalse visible => exact ⟨name, rfl, by simpa using visible, h⟩
  | _ => simp [moduleOf?, Expr.name?] at h

theorem CheckState.declareEach_returns (s : CheckState) (names : List String) (types : List Ty) :
    (s.declareEach names types).returns = s.returns :=
  s.declareEach_same (·.returns) (fun _ _ _ => rfl) names types

def Builtin.name : Builtin → String
  | .alloc => "alloc"
  | .cast => "cast"
  | .sizeof => "sizeof"
  | .free => "free"
  | .realloc => "realloc"
  | .print => "print"
  | .println => "println"
  | .unreachable => "unreachable"
  | .asm => "asm"

theorem Builtin.eq_name {name : String} {b : Builtin} (h : ofName? name = some b) :
    name = b.name := by
  obtain ⟨_, _, split, _⟩ := List.lookup_eq_some_iff.mp h
  have listed : (name, b) ∈ table := by simp [split]
  have all : ∀ p ∈ table, p.1 = p.2.name := by decide
  exact all _ listed

theorem Expr.stops_of_isLiteral {e : Expr} (h : e.isLiteral) : e.stops = false := by
  obtain ⟨node, ty, token⟩ := e
  cases node <;> first | rfl | exact absurd h (by simp [Expr.isLiteral])

namespace CheckState

theorem appends_enterFunction (s : CheckState) (sig : Signature) :
    Appends s (s.enterFunction sig) :=
  have entered := grows_declareEach s.enter sig.names sig.params
  ⟨entered.config, entered.errors⟩

theorem appends_leaveFunction (around s : CheckState) (sig : Signature) (name : String)
    (token : Token) : Appends s (s.leaveFunction around sig name token) :=
  have noted := keeps_noteUnless { s with returns := around.returns }
    (s.returns = true ∨ sig.result.equals s.resolver .void = true)
    ⟨.check (.notAllPathsReturn name), token.start⟩
  ⟨noted.config, noted.errors⟩

theorem returns_note (s : CheckState) (d : Diagnostic) : (s.note d).returns = s.returns := by
  obtain ⟨ds, noted⟩ := note_eq_notes s d
  rw [noted]
  rfl

theorem returns_foldl_note (s : CheckState) (ds : List Diagnostic) :
    (ds.foldl note s).returns = s.returns := by
  induction ds generalizing s with
  | nil => rfl
  | cons d ds ih => exact (ih _).trans (returns_note s d)

theorem returns_leaveFunction (around s : CheckState) (sig : Signature) (name : String)
    (token : Token) : (s.leaveFunction around sig name token).returns = around.returns := by
  obtain ⟨ds, noted⟩ := noteUnless_eq_notes { s with returns := around.returns }
    (s.returns = true ∨ sig.result.equals s.resolver .void = true)
    ⟨.check (.notAllPathsReturn name), token.start⟩
  unfold leaveFunction
  rw [noted]
  rfl

end CheckState

namespace Check

variable {imp : Importer} {s s' : CheckState}

theorem Notes.returns {α : Type} {m : Check α} (hm : Notes m) {a : α} (h : Runs imp m s a s') :
    s'.returns = s.returns := by
  obtain ⟨ds, rfl⟩ := hm.state h
  rfl

theorem returns_recordDecl {token : Token} {decl decl' : Record}
    (h : Runs imp (recordDecl token decl) s decl' s') : s'.returns = s.returns := by
  obtain ⟨_, s₁, resolved, h⟩ := runs_recordDecl.mp h
  have kept : s₁.returns = (s.define decl.name (.record decl)).returns :=
    (notes_resolveFields _ _).returns resolved
  obtain ⟨_, _, rfl⟩ | ⟨_, _, _, rfl⟩ := h
  · exact kept
  · exact kept

theorem returns_imports {token : Token} {name : String} {typeArgs : List Ty} {path : String}
    (h : Imports imp token name typeArgs path s s') : s'.returns = s.returns := by
  cases h with
  | cycle _ | unavailable _ _ => exact returns_note _ _
  | failed _ _ _ => exact (returns_foldl_note _ _).trans (returns_note _ _)
  | loaded _ _ _ => rfl

end Check

variable {imp : Importer} {P : Law} {i : Item} {s s' : CheckState} {r : i.Result}

theorem Checks.appends (steady : imp.Steady) (h : Checks imp P i s r s') : Appends s s' :=
  (h.change steady).stays.appends

theorem Checks.returns_of_calm (steady : imp.Steady) (h : Checks imp P i s r s') (q : Calm s s') :
    i.Returns s r s' := by
  induction h with
  | expr _ _ ih => exact ih q
  | ident typed =>
    obtain rfl := notes_identType.calm typed q
    simp [Item.Returns, Expr.stops]
  | literal literal =>
    have no := Expr.stops_of_isLiteral literal
    simp [Item.Returns, no]
  | @member left _ _ _ _ _ _ _ _ isModule typed =>
    obtain rfl := notes_moduleMember.calm typed q
    obtain ⟨_, _, _⟩ := left
    obtain ⟨name, rfl, _, _⟩ := moduleOf?_eq_some isModule
    simp [Item.Returns, Expr.stops]
  | field _ object typed ih =>
    obtain ⟨q, rfl⟩ := notes_fieldAccess.calm_last typed (object.appends steady) q
    simpa [Item.Returns, Expr.stops] using ih q
  | misplaced value target _ _ =>
    exact absurd q (not_calm_note ((value.appends steady).trans (target.appends steady)))
  | binary _ _ first second typed ih₁ ih₂ =>
    have first := first.appends steady
    have second := second.appends steady
    obtain ⟨q, rfl⟩ := notes_binaryType.calm_last typed (first.trans second) q
    obtain ⟨q₁, q₂⟩ := q.split first second
    have h₁ := ih₁ q₁
    have h₂ := ih₂ q₂
    simp only [Item.Returns] at *
    simp [Expr.stops, h₁, h₂, Bool.or_assoc]
  | unary first typed ih =>
    obtain ⟨q, rfl⟩ := notes_unaryType.calm_last typed (first.appends steady) q
    simpa [Item.Returns, Expr.stops] using ih q
  | index first second typed ih₁ ih₂ =>
    have first := first.appends steady
    have second := second.appends steady
    obtain ⟨q, rfl⟩ := notes_indexType.calm_last typed (first.trans second) q
    obtain ⟨q₁, q₂⟩ := q.split first second
    have h₁ := ih₁ q₁
    have h₂ := ih₂ q₂
    simp only [Item.Returns] at *
    simp [Expr.stops, h₁, h₂, Bool.or_assoc]
  | call called callable given typed ih ihs =>
    have called := called.appends steady
    have counted := (keeps_noteUnless _ _ _).toStays.appends.trans (given.appends steady)
    have before := called.trans ((notes_calleeSignature.appends callable).trans counted)
    obtain ⟨q, rfl⟩ := notes_resolveValue.calm_last typed before q
    obtain ⟨q₁, q⟩ := q.split called ((notes_calleeSignature.appends callable).trans counted)
    obtain rfl := notes_calleeSignature.calm_first callable counted q
    obtain ⟨q, q₂⟩ := q.split (keeps_noteUnless _ _ _).toStays.appends (given.appends steady)
    obtain ⟨_, same⟩ := calm_noteUnless q
    have h₁ := ih q₁
    have h₂ := ihs q₂
    simp only [Item.Returns, same] at *
    simp [Expr.stops, h₁, h₂, Bool.or_assoc]
  | uncallable called notCallable given ih ihs =>
    have given := given.appends steady
    obtain ⟨q₁, q⟩ := q.split (called.appends steady)
      ((notes_calleeSignature.appends notCallable).trans given)
    obtain rfl := notes_calleeSignature.calm_first notCallable given q
    have h₁ := ih q₁
    have h₂ := ihs q
    simp only [Item.Returns] at *
    simp [todo, Expr.stops, h₁, h₂, Bool.or_assoc]
  | @builtin name _ _ _ _ _ b _ _ _ _ _ _ known types given ih =>
    have given := given.appends steady
    obtain rfl := notes_builtin?.calm_first known
      (((notes_resolveTypeArgs _).appends types).trans given) q
    obtain rfl := (notes_resolveTypeArgs _).calm_first types given q
    obtain ⟨_, named, _, ⟨rfl⟩⟩ := (silent_builtin? q.room).mp known
    have same : b = .unreachable ↔ name = "unreachable" := by
      rw [Builtin.eq_name named]
      cases b <;> decide
    have h := ih q
    simp only [Item.Returns] at *
    simp [Expr.stops, h, same]
  | unknown notKnown given ih =>
    obtain rfl := notes_builtin?.calm_first notKnown (given.appends steady) q
    obtain ⟨_, _, _, ⟨⟩⟩ := (silent_builtin? q.room).mp notKnown
  | structLit struct given ih =>
    obtain rfl := notes_literalRecord.calm_first struct (given.appends steady) q
    simpa [Item.Returns, Expr.stops] using ih q
  | structless notStruct given ih =>
    obtain rfl := notes_literalRecord.calm_first notStruct (given.appends steady) q
    simpa [Item.Returns, todo, Expr.stops] using ih q
  | arrayLit array given ih =>
    have counted := (keeps_noteUnless _ _ _).toStays.appends.trans (given.appends steady)
    obtain rfl := notes_resolveAll.calm_first array counted q
    obtain ⟨q, q₁⟩ := q.split (keeps_noteUnless _ _ _).toStays.appends (given.appends steady)
    obtain ⟨_, same⟩ := calm_noteUnless q
    simpa [Item.Returns, Expr.stops, same] using ih q₁
  | arrayless _ resolved given ih =>
    obtain rfl := notes_resolveAll.calm_first resolved (given.appends steady) q
    simpa [Item.Returns, Expr.stops] using ih q
  | comma given _ => exact absurd q (not_calm_note (given.appends steady))
  | lambda _ ih =>
    have h := ih ⟨q.room, q.errors⟩
    simp only [Item.Returns] at *
    simp [Expr.stops, h]
  | exprsNil | argsNil | elementsNil => simp [Item.Returns, Expr.anyStops]
  | valuesNil | fieldsNil => simp [Item.Returns, Expr.anyFieldStops]
  | exprsCons first rest ih ihs | argsMore first rest ih ihs =>
    obtain ⟨q₁, q₂⟩ := q.split (first.appends steady) (rest.appends steady)
    have h₁ := ih q₁
    have h₂ := ihs q₂
    simp only [Item.Returns] at *
    simp [Expr.anyStops, h₁, h₂, Bool.or_assoc]
  | argsCons first fits rest ih ihs | elementsCons first fits rest ih ihs =>
    have rest := rest.appends steady
    obtain ⟨q₁, q⟩ := q.split (first.appends steady) ((notes_expectEqual.appends fits).trans rest)
    obtain rfl := notes_expectEqual.calm_first fits rest q
    have h₁ := ih q₁
    have h₂ := ihs q
    simp only [Item.Returns] at *
    simp [Expr.anyStops, h₁, h₂, Bool.or_assoc]
  | valuesCons first rest ih ihs =>
    obtain ⟨q₁, q₂⟩ := q.split (first.appends steady) (rest.appends steady)
    have h₁ := ih q₁
    have h₂ := ihs q₂
    simp only [Item.Returns] at *
    simp [Expr.anyFieldStops, h₁, h₂, Bool.or_assoc]
  | @fieldsCons _ seen name value _ s _ _ _ _ _ _ first fits rest ih ihs =>
    have rest := rest.appends steady
    have later := (notes_checkField.appends fits).trans rest
    have unseen := (keeps_noteUnless s (name ∉ seen)
      ⟨.check (.duplicateField name), value.token.start⟩).toStays.appends
    obtain ⟨q₀, q⟩ := q.split unseen ((first.appends steady).trans later)
    obtain ⟨_, same⟩ := calm_noteUnless q₀
    obtain ⟨q₁, q⟩ := q.split (first.appends steady) later
    obtain rfl := notes_checkField.calm_first fits rest q
    have h₁ := ih q₁
    have h₂ := ihs q
    simp only [Item.Returns, same] at *
    simp [Expr.anyFieldStops, h₁, h₂, Bool.or_assoc]
  | sizeof => simp [Item.Returns, Expr.anyStops]
  | print prints _ ih =>
    obtain rfl | rfl := prints <;> simpa [Item.Returns] using ih q
  | unreachable => simp [Item.Returns, Expr.anyStops]
  | cast value typed ih =>
    obtain ⟨q, rfl⟩ := notes_castType.calm_last typed (value.appends steady) q
    simpa [Item.Returns, Expr.anyStops] using ih q
  | alloc size typed ih =>
    obtain ⟨q, rfl⟩ := notes_expectInteger.calm_last typed (size.appends steady) q
    simpa [Item.Returns, Expr.anyStops] using ih q
  | free pointer typed ih =>
    obtain ⟨q, rfl⟩ := notes_expectPointer.calm_last typed (pointer.appends steady) q
    simpa [Item.Returns, Expr.anyStops] using ih q
  | realloc pointer typed size sized ih ihn =>
    have pointed := notes_expectPointer.appends typed
    have size := size.appends steady
    have before := (pointer.appends steady).trans (pointed.trans size)
    obtain ⟨q, rfl⟩ := notes_expectInteger.calm_last sized before q
    obtain ⟨q₁, q⟩ := q.split (pointer.appends steady) (pointed.trans size)
    obtain rfl := notes_expectPointer.calm_first typed size q
    have h₁ := ih q₁
    have h₂ := ihn q
    simp only [Item.Returns] at *
    simp [Expr.anyStops, h₁, h₂, Bool.or_assoc]
  | codeless => exact absurd q (not_calm_note (Stays.refl _).appends)
  | asm code given ih =>
    obtain rfl := notes_checkAssembly.calm_first code (given.appends steady) q
    simpa [Item.Returns] using ih q
  | commas _ ih => simpa [Item.Returns, Expr.stops] using ih q
  | single _ _ ih => exact ih q
  | condition value typed ih =>
    obtain ⟨q, rfl⟩ := notes_checkCondition.calm_last typed (value.appends steady) q
    exact ih q
  | unguarded | guarded _ _ | nothing | something _ _ | absent | present _ _ | topNil
  | topCons _ _ _ _ => trivial
  | body inner left ih =>
    obtain ⟨rfl, rfl⟩ := inner.left_body steady left
    have h := ih ⟨q.room, q.errors⟩
    simp only [Item.Returns] at *
    simp [h]
  | @function sig name token _ s _ s₁ _ _ inner left ih =>
    obtain rfl := inner.left_function steady left
    have entered := appends_enterFunction s sig
    obtain ⟨q, -⟩ := q.split (entered.trans (inner.appends steady))
      (appends_leaveFunction s s₁ _ _ _)
    have h := ih (q.split entered (inner.appends steady)).2
    exact ⟨h.1, returns_leaveFunction s s₁ _ _ _⟩
  | expression _ ih =>
    have h := ih q
    exact ⟨h.1, fun reached => by simpa [Stmt.returns, reached] using h.2⟩
  | declare given typed ih =>
    obtain ⟨q, rfl⟩ := notes_declaredType.calm_last typed (given.appends steady)
      ⟨q.room, q.errors⟩
    have h := ih q
    exact ⟨h.1, fun reached => h.2.trans (by simp [Stmt.returns, reached])⟩
  | @declareAll _ names _ _ _ _ _ _ _ types s₂ given typed ih =>
    have declared := (grows_declareEach s₂ names types).toStays.appends
    have typing := notes_declaredAll.appends typed
    obtain ⟨q, -⟩ := q.split ((given.appends steady).trans typing) declared
    obtain ⟨q, rfl⟩ := notes_declaredAll.calm_last typed (given.appends steady) q
    have h := ih q
    refine ⟨h.1, fun reached => ?_⟩
    rw [declareEach_returns]
    simpa [Stmt.returns, reached] using h.2
  | assign given targets fits ihv iht =>
    have given := given.appends steady
    have targets := targets.appends steady
    obtain ⟨q, rfl⟩ := notes_checkAssignment.calm_last fits (given.trans targets) q
    obtain ⟨q₁, q₂⟩ := q.split given targets
    have h₁ := ihv q₁
    have h₂ := iht q₂
    simp only [Item.Returns] at *
    refine ⟨by simp [Stmt.returns, h₁, h₂], fun reached => ?_⟩
    simp [Stmt.returns, h₁, h₂, reached]
  | record declared => exact ⟨rfl, fun reached => (returns_recordDecl declared).trans reached⟩
  | @define _ sig _ s _ _ _ ih =>
    have h := ih ⟨q.room, q.errors⟩
    exact ⟨rfl, fun reached => h.2.trans reached⟩
  | choose _ _ _ _ _ _ => exact ⟨rfl, fun _ => rfl⟩
  | @chooseElse _ _ _ _ _ s _ _ _ _ _ _ _ _ _ _ s₄ condition taken others otherwise _ ihx ihm ihy =>
    have others := others.appends steady
    have otherwise := otherwise.appends steady
    have q : Calm s s₄ := ⟨q.room, q.errors⟩
    obtain ⟨-, q⟩ := q.split (condition.appends steady)
      ((taken.appends steady).trans (others.trans otherwise))
    obtain ⟨q₁, q⟩ := q.split (taken.appends steady) (others.trans otherwise)
    obtain ⟨q₂, q₃⟩ := q.split others otherwise
    have hx := ihx q₁
    have hm := ihm q₂
    have hy := ihy q₃
    simp only [Item.Returns] at *
    simp [Stmt.returns, hx, hm, hy]
  | loop before guard after inner leftLoop leftScope _ _ _ _ =>
    obtain rfl := Checks.left_loop steady before guard after inner leftLoop leftScope
    exact ⟨rfl, fun _ => rfl⟩
  | returned given fits ih =>
    refine ⟨rfl, fun _ => ?_⟩
    obtain ⟨_, rfl⟩ | ⟨_, _, _, _, rfl⟩ := runs_checkReturn.mp fits
    · exact absurd q (not_calm_note (given.appends steady))
    · rfl
  | breaks inLoop | continues inLoop =>
    obtain rfl := notes_checkInLoop.calm inLoop q
    exact ⟨rfl, id⟩
  | external | generic => exact ⟨rfl, id⟩
  | importUnit types imported =>
    have same := returns_imports (runs_importUnit.mp imported)
    exact ⟨rfl, fun reached => same.trans (((notes_resolveTypeArgs _).returns types).trans reached)⟩
  | branchesNil => exact ⟨rfl, rfl⟩
  | branchesCons condition taken others _ ihx ihs =>
    have others := others.appends steady
    obtain ⟨-, q⟩ := q.split (condition.appends steady) ((taken.appends steady).trans others)
    obtain ⟨q₁, q₂⟩ := q.split (taken.appends steady) others
    have hx := ihx q₁
    have hs := ihs q₂
    simp only [Item.Returns] at *
    simp [Stmt.branchesReturn, hx, hs]
  | stmtsNil reached => simp [Item.Returns, Stmt.anyReturns]
  | stmtsCons reached first rest ih ihs =>
    obtain ⟨q₁, q₂⟩ := q.split (first.appends steady) (rest.appends steady)
    have h := ih q₁
    have hs := ihs q₂
    simp only [Item.Returns] at *
    simp [Stmt.anyReturns, h, hs, reached]
  | dead notReached => simp [Item.Returns, notReached]

theorem Checks.returns (steady : imp.Steady) (h : Checks imp P i s r s') (q : s'.Quiet) :
    i.Returns s r s' :=
  h.returns_of_calm steady (q.calm (h.appends steady))

end FrontEnd
