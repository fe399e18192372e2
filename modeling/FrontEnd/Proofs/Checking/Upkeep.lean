import FrontEnd.Proofs.Checking.Visits
import FrontEnd.Proofs.Log.Modules

namespace FrontEnd

open Build Check CheckState

/-- What checking an item comes to: its parts are checked one after the other, in the scope around
it or in one of their own, or a record is declared, or a unit is imported. -/
inductive Item.Goes (imp : Importer) (i : Item) (s s' : CheckState) : Prop
  | plain {ks : List Item} (leads : Leads imp s ks s') (inside : ∀ k ∈ ks, k.labels ⊆ i.labels)
      (small : ∀ k ∈ ks, k.size < i.size)
  /-- The part of a function literal is checked behind a barrier, which changes no types. -/
  | literal {j : Item} {t t' : CheckState} {r : j.Result} (sure : j.isSure = true)
      (before : t.tables = s.tables) (ran : Runs imp j.check t r t') (after : s'.tables = t'.tables)
      (clear : s'.Clear → t'.Clear) (inside : j.labels ⊆ i.labels) (small : j.size < i.size)
  | scope {s₀ t : CheckState} {ks : List Item} (entered : Slight s.enter s₀)
      (leads : Leads imp s₀ ks t) (left : s'.tables = (t.leave s).tables)
      (clear : s'.Clear → t.Clear) (inside : ∀ k ∈ ks, k.labels ⊆ i.labels)
      (small : ∀ k ∈ ks, k.size < i.size)
  | record {token : Token} {decl decl' : Record} (isRecord : i = .stmt (.record token decl))
      (declared : Runs imp (recordDecl token decl) s decl' s')
  | importUnit {token : Token} {name path : String} {typeArgs types : List Ty} {s₁ : CheckState}
      (isImport : i = .stmt (.importUnit token name typeArgs path))
      (resolved : Runs imp (resolveTypeArgs token typeArgs) s types s₁)
      (imported : Imports imp token name types path s₁ s')

namespace Check

variable {imp : Importer} {P : Law} {s s' : CheckState}

theorem goes_literal (ok : Lawful imp P) {i : Item} {sig : Signature} {xs : List Stmt} {ty : Ty}
    {token : Token} {e' : Expr} (labels : i.labels = Expr.labels ⟨.function sig xs, ty, token⟩)
    (size : i.size = 3 * sizeOf (⟨.function sig xs, ty, token⟩ : Expr))
    (ran : Runs imp (Check.expr ⟨.function sig xs, ty, token⟩) s e' s') : i.Goes imp s s' := by
  have derived := Checks.of_check (i := .node ⟨.function sig xs, ty, token⟩) ok rfl ran
  cases derived with
  | literal literal => simp [Expr.isLiteral] at literal
  | lambda inner =>
    refine .literal rfl ?_ inner.runs rfl (fun c => ⟨c.room, c.errors⟩) ?_ ?_
    · rfl
    · rw [labels]
      intro l hl
      exact List.mem_cons_of_mem _ (List.mem_cons_of_mem _ (List.mem_cons_of_mem _ hl))
    · rw [size]
      simp only [Item.size, Expr.mk.sizeOf_spec, Node.function.sizeOf_spec]
      omega

theorem goes (ok : Lawful imp P) {i : Item} (sure : i.isSure = true) {r : i.Result}
    (ran : Runs imp i.check s r s') : i.Goes imp s s' := by
  cases plain : i.isPlain with
  | true =>
    rw [← Plan.run_of] at ran
    obtain ⟨ks, leads, inside, small⟩ := (Plan.plain_of plain).runs ran
    refine .plain leads (fun k hk l hl => ?_) small
    exact inside.subset (List.mem_flatMap.mpr ⟨k, hk, hl⟩)
  | false =>
    unfold Item.isPlain at plain
    split at plain
    case h_1 sig xs ty token => exact goes_literal ok rfl rfl ran
    case h_2 sig xs ty token => exact goes_literal ok rfl rfl ran
    case h_3 xs =>
      cases Checks.of_check ok sure ran with
      | body inner left =>
        obtain ⟨-, rfl⟩ := inner.left_body ok.steady left
        have entered : Slight s.enter { s.enter with returns := false } :=
          ⟨rfl, .refl _, rfl, List.prefix_refl _⟩
        refine .scope entered (.part rfl inner.runs .refl) rfl
          (fun c => ⟨c.room, c.errors⟩) ?_ ?_
        · exact List.forall_mem_singleton.mpr (List.Subset.refl _)
        · exact List.forall_mem_singleton.mpr (Nat.lt_succ_self _)
    case h_4 sig name token xs =>
      cases Checks.of_check ok sure ran with
      | function inner left =>
        obtain rfl := inner.left_function ok.steady left
        refine .scope (slight_enterFunction s sig) (.part rfl inner.runs .refl)
          (tables_leaveFunction _ s sig name token) (fun c => ?_) ?_ ?_
        · obtain ⟨-, same⟩ := clear_leaveFunction c
          rw [same] at c
          exact ⟨c.room, c.errors⟩
        · exact List.forall_mem_singleton.mpr (List.Subset.refl _)
        · exact List.forall_mem_singleton.mpr (Nat.lt_succ_self _)
    case h_5 token init e post xs =>
      cases Checks.of_check ok sure ran with
      | @loop _ _ _ _ _ _ _ _ _ _ _ s₃ _ _ _ _ _ _ _ before guard after inner leftLoop leftScope =>
        obtain rfl := before.left_loop ok.steady guard after inner leftLoop leftScope
        have counted : Slight s₃ { s₃ with loopDepth := s₃.loopDepth + 1 } :=
          ⟨rfl, .refl _, rfl, List.prefix_refl _⟩
        refine .scope (.refl _) (.part rfl before.runs (.part rfl guard.runs (.part rfl after.runs
          (.slight counted (.part rfl inner.runs .refl))))) rfl
          (fun c => ⟨c.room, c.errors⟩) ?_ ?_
        · simp +contextual [Item.labels, Stmt.labels_loop, List.subset_def]
        · simp only [List.mem_cons, List.not_mem_nil, or_false, forall_eq_or_imp, forall_eq,
            Item.size, Stmt.loop.sizeOf_spec]
          omega
    case h_6 token decl =>
      cases Checks.of_check ok sure ran with
      | record declared => exact .record rfl declared
    case h_7 token name typeArgs path =>
      cases Checks.of_check ok sure ran with
      | importUnit types imported => exact .importUnit rfl types (runs_importUnit.mp imported)
    case h_8 => simp at plain

end Check

theorem CheckState.Advances.clear {s t : CheckState} (h : Advances s t) (c : t.Clear) : s.Clear :=
  clear_of_prefix h.session.config h.errors c

theorem Importer.Counts.later {imp : Importer} (counts : imp.Counts) (start : Nat) :
    Invariant imp imp (fun _ => True) (fun t => start ≤ t.session.nextId) where
  enter hs := hs
  leave _ hs _ := hs
  define {s} decl _ hs := by
    refine hs.trans ?_
    unfold CheckState.tables CheckState.define
    dsimp only
    split <;> exact le_rfl
  imports hs h := by
    refine ⟨h, hs.trans ?_⟩
    have same {session : Session} {s : CheckState} {path : String}
        (begins : s.session.begin? (importedFile s path) = some session) :
        s.session.nextId = session.nextId := by
      rw [Session.begin?_eq_some begins]
    cases h with
    | cycle _ => rw [tables_note]
    | unavailable begins _ =>
      rw [tables_note]
      exact (same begins).le
    | failed begins _ checked =>
      rw [tables_foldl_note, tables_note]
      exact (same begins).le.trans (counts _ _ _ _ _ _ checked).1
    | loaded begins _ checked => exact (same begins).le.trans (counts _ _ _ _ _ _ checked).1

/-- A property of tables that checking keeps as long as there are no errors, if what the tree
carries is as `L` says. -/
structure Upkeep (imp : Importer) (L : Label → Prop) (I : Tables → Prop) : Prop where
  enter {s : CheckState} : I s.tables → I s.enter.tables
  leave {s around : CheckState} (later : around.session.nextId ≤ s.session.nextId) :
    I s.tables → I around.tables → I (s.leave around).tables
  record {token decl decl'} {s s' : CheckState} (label : L (.record decl)) (clear : s'.Clear)
    (declared : Runs imp (recordDecl token decl) s decl' s') : I s.tables → I s'.tables
  imports {token name typeArgs types path} {s s' : CheckState}
    (labels : ∀ t ∈ typeArgs, L (.type t)) (clear : s'.Clear)
    (resolved : Runs imp (resolveTypeArgs token typeArgs) s types s)
    (imported : Imports imp token name types path s s') : I s.tables → I s'.tables

namespace Upkeep

variable {imp : Importer} {P : Law} {L : Label → Prop} {I : Tables → Prop} {s t s' : CheckState}

theorem leads_of (ok : Lawful imp P) {ks : List Item} (h : Leads imp s ks t)
    (parts : ∀ k ∈ ks, k.isSure = true → ∀ {s r s'}, Runs imp k.check s r s' → s'.Clear →
      I s.tables → I s'.tables)
    (c : t.Clear) (hs : I s.tables) : I t.tables := by
  induction h with
  | refl => exact hs
  | slight first _ ih => exact ih parts c (first.tables ▸ hs)
  | part sure ran rest ih =>
    rw [List.forall_mem_cons] at parts
    exact ih parts.2 c (parts.1 sure ran ((rest.advances ok).clear c) hs)

theorem runs (keep : Upkeep imp L I) (ok : Lawful imp P) (counts : imp.Counts) {i : Item}
    (sure : i.isSure = true) (labels : ∀ l ∈ i.labels, L l) {r : i.Result}
    (ran : Runs imp i.check s r s') (c : s'.Clear) (hs : I s.tables) : I s'.tables := by
  -- The parts of an item are smaller than it.
  induction size : i.size using Nat.strong_induction_on generalizing i s s' with
  | h n ih =>
    subst size
    have parts {ks : List Item} (inside : ∀ k ∈ ks, k.labels ⊆ i.labels)
        (small : ∀ k ∈ ks, k.size < i.size) : ∀ k ∈ ks, k.isSure = true → ∀ {s r s'},
        Runs imp k.check s r s' → s'.Clear → I s.tables → I s'.tables :=
      fun k hk sure {_ _ _} ran c hs =>
        ih k.size (small k hk) sure (fun l hl => labels l (inside k hk hl)) ran c hs rfl
    cases goes ok sure ran with
    | plain leads inside small => exact leads_of ok leads (parts inside small) c hs
    | literal sure before ran after clear inside small =>
      rw [after]
      exact ih _ small sure (fun l hl => labels l (inside hl)) ran (clear c) (before ▸ hs) rfl
    | @scope s₀ t ks entered leads left clear inside small =>
      have began : I s₀.tables := entered.tables ▸ keep.enter hs
      have session : s₀.session = s.session := congrArg Tables.session entered.tables
      have later : s.session.nextId ≤ t.session.nextId :=
        leads.carry ok (counts.later s.session.nextId) (session ▸ le_rfl)
      rw [left]
      exact keep.leave later (leads_of ok leads (parts inside small) (clear c) began) hs
    | record isRecord declared =>
      subst isRecord
      exact keep.record (labels _ (by simp [Item.labels, Stmt.labels])) c declared hs
    | importUnit isImport resolved imported =>
      subst isImport
      have began := (keeps_imports ok.steady imported).clear c
      obtain rfl := (notes_resolveTypeArgs _).clear resolved began
      refine keep.imports (fun t ht => labels _ ?_) c resolved imported hs
      simp [Item.labels, Stmt.labels, ht]

theorem leads (keep : Upkeep imp L I) (ok : Lawful imp P) (counts : imp.Counts) {ks : List Item}
    (h : Leads imp s ks t) (labels : ∀ l ∈ ks.flatMap Item.labels, L l) (c : t.Clear)
    (hs : I s.tables) : I t.tables := by
  refine leads_of ok h (fun k hk sure {_ _ _} ran c hs => ?_) c hs
  exact keep.runs ok counts sure (fun l hl => labels l (List.mem_flatMap.mpr ⟨k, hk, hl⟩)) ran c hs

theorem visits (keep : Upkeep imp L I) (ok : Lawful imp P) (counts : imp.Counts) {i j : Item}
    {around : Option CheckState} (h : Visits imp i s j t around) (c : t.Clear) (hs : I s.tables) :
    ∃ before, (before ++ j.labels).Subperm i.labels ∧ ((∀ l ∈ before, L l) → I t.tables) := by
  induction h with
  | self => exact ⟨[], .refl _, fun _ => hs⟩
  | @part _ _ t _ _ _ asks ih =>
    cases asks.enters with
    | lambda literal inner state =>
      subst state
      obtain ⟨before, inside, kept⟩ := ih ⟨c.room, c.errors⟩
      refine ⟨before, ?_, kept⟩
      exact (List.Sublist.append_left (labels_of_literal literal inner) before).subperm.trans inside
    | @inside s₀ ks _ first leads labels =>
      have c₀ := (leads.advances ok).clear c
      have outer : t.Clear ∧ (I t.tables → I s₀.tables) := by
        obtain ⟨-, rfl⟩ | slight := first
        · exact ⟨c₀, id⟩
        · have entered := slight.advances.clear c₀
          exact ⟨⟨entered.room, entered.errors⟩, fun hs => slight.tables ▸ keep.enter hs⟩
      obtain ⟨before, inside, kept⟩ := ih outer.1
      refine ⟨before ++ ks.flatMap Item.labels, ?_, fun holds => ?_⟩
      · rw [List.append_assoc]
        exact (List.Subperm.append (.refl before) labels).trans inside
      · rw [List.forall_mem_append] at holds
        exact keep.leads ok counts leads holds.2 c (outer.2 (kept holds.1))

end Upkeep

end FrontEnd
