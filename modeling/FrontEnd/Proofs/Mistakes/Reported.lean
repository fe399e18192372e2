import FrontEnd.Proofs.Mistakes.Replacement
import FrontEnd.Proofs.Mistakes.Respelling
import FrontEnd.Proofs.Name
import FrontEnd.Proofs.Token.Spelling
import Mathlib.Data.List.Nodup

namespace FrontEnd

open Text

theorem Tiles.count_le_one {file : String} {front text : List Char} {ts : List Token}
    (h : Tiles file front text ts) {t : Token} (ht : t.kind ≠ .eof) : ts.count t ≤ 1 := by
  have ordered := h.ordered
  obtain ⟨us, eof, rfl, he, hu⟩ := h.ends
  have last : [eof].count t = 0 := by
    rw [List.count_eq_zero, List.mem_singleton]
    rintro rfl
    exact ht (by rw [he])
  have distinct : us.Nodup := by
    refine (List.pairwise_append.mp ordered).1.imp_of_mem fun {a b} ha _ before => ?_
    rintro rfl
    have := (hu a ha).2
    omega
  rw [List.count_append, last]
  exact List.nodup_iff_count_le_one.mp distinct t

theorem Token.word_of_identifierAt {c : Cursor} {file : String} {front word : List Char}
    (h : identifierAt file front word ∈ c.tokens) :
    word ≠ [] ∧ ∀ c ∈ word, Pattern.isWordPart c = true := by
  obtain ⟨cs, cut⟩ := Cursor.cut_of_mem h nofun
  have isWord : Pattern.IsWord word := by
    simpa [identifierAt] using (Pattern.cut_identifier cut).1
  refine ⟨fun none => ?_, Pattern.lexeme_word isWord⟩
  rw [none] at isWord
  cases isWord

theorem Replacement.mistakes_eq (c : Replacement) {tokens : List Token}
    (once : tokens.count c.old = 1) :
    c.edit.mistakes tokens =
      [⟨.check (.undefinedVariable (Name.bare c.name)), (c.move c.old).start⟩] := by
  have mem : c.old ∈ tokens := List.count_pos_iff.mp (once ▸ Nat.one_pos)
  obtain ⟨before, after, rfl⟩ := List.append_of_mem mem
  have others : c.old ∉ before ∧ c.old ∉ after := by
    simp only [List.count_append, List.count_cons_self] at once
    exact ⟨List.count_eq_zero.mp (by omega), List.count_eq_zero.mp (by omega)⟩
  have none {ts : List Token} (h : c.old ∉ ts) : c.edit.mistakes ts = [] := by
    refine List.filterMap_eq_nil_iff.mpr fun t mem => ?_
    have other : t ≠ c.old := fun same => h (same ▸ mem)
    rw [c.edit_name?, if_neg other]
    rfl
  have replaced : c.edit.name? c.old = some c.name := if_pos rfl
  rw [List.append_cons, c.edit.mistakes_append, c.edit.mistakes_append, none others.1,
    none others.2,
    c.edit.mistakes_of_some replaced]
  rfl

/-- While a unit is checked, the identifier with a token is only looked up where a name is bound
neither to a variable nor to a module. -/
def Build.LooksUpUnbound (imp : Importer) (source : String) (path : Path) (session : Session)
    (token : Token) (name : String) : Prop :=
  ∃ xs s, Checks imp
    (fun e s _ _ => e.lookedUp? = some token → s.env.vars.get? name = none ∧
      s.env.module? name = none)
    (.top (reading source path [] session).program.statements) (begun source path [] session) xs s

namespace Respelling

variable {d : Respelling}

def source (d : Respelling) (word back : List Char) : String :=
  String.ofList (d.front ++ word ++ back)

theorem reading_respelled {path : Path} {session : Session} {back : List Char}
    (named : d.file = path.text)
    (readable : (Build.reading (d.source d.old back) path [] session).errors = [])
    (stands : d.oldToken ∈ (Cursor.ofSource (d.source d.old back) d.file).tokens)
    (stands' : Token.identifierAt d.file d.front d.new ∈
      (Cursor.ofSource (d.source d.new back) d.file).tokens)
    (looked : d.oldToken ∈
      Stmt.topLookups (Build.reading (d.source d.old back) path [] session).program.statements) :
    Build.reading (d.source d.new back) path [] session =
        ⟨⟨(Build.reading (d.source d.old back) path [] session).program.id,
            (d.replacement (toString session.nextId)).edit.stmts
              (Build.reading (d.source d.old back) path [] session).program.statements⟩, [],
          (Build.reading (d.source d.old back) path [] session).nextId⟩ ∧
      (Stmt.topLookups
        (Build.reading (d.source d.old back) path [] session).program.statements).count
        d.oldToken = 1 := by
  have text (word : List Char) : Cursor.ofSource (d.source word back) d.file =
      ⟨d.front ++ (word ++ back), .after d.file []⟩ := by
    simp only [source, Cursor.ofSource, String.toList_ofList, List.append_assoc]
    rfl
  have tokens := d.tokens_respelled (f := []) rfl (text d.old ▸ stands) (text d.new ▸ stands')
  rw [← text, ← text] at tokens
  have tiles : Tiles d.file [] ([] ++ (Cursor.ofSource (d.source d.old back) d.file).rest) _ :=
    Cursor.tiles_tokens _ .nil rfl
  have once := tiles.count_le_one (t := d.oldToken) nofun
  unfold Build.reading at *
  rw [named] at tokens once
  exact Program.read_replaced
    (c := d.replacement (toString session.nextId)) rfl tokens.symm once readable looked

theorem replacement_name (unit : String) :
    (d.replacement unit).name = Name.qualify (String.ofList d.new) unit := by
  have moved : (d.replacement unit).move (d.replacement unit).old =
      .identifierAt d.file d.front d.new := d.move_oldToken
  rw [Replacement.name, moved]
  rfl

theorem mistakes_respelled (unit : String) {tokens : List Token} (plain : '-' ∉ d.new)
    (once : tokens.count d.oldToken = 1) :
    (d.replacement unit).edit.mistakes tokens =
      [⟨.check (.undefinedVariable (String.ofList d.new)), .after d.file d.front⟩] := by
  have moved : (d.replacement unit).move (d.replacement unit).old =
      .identifierAt d.file d.front d.new := d.move_oldToken
  have bare : Name.bare (Name.qualify (String.ofList d.new) unit) = String.ofList d.new :=
    Name.bare_qualify (by simpa using plain) unit
  rw [(d.replacement unit).mistakes_eq once, replacement_name, bare, moved]
  rfl

theorem unbound_eq (unit : String) :
    (fun e s _ _ => e.lookedUp? = some d.oldToken →
      s.env.vars.get? (Name.qualify (String.ofList d.new) unit) = none ∧
        s.env.module? (Name.qualify (String.ofList d.new) unit) = none) =
      (d.replacement unit).edit.Unbound := by
  rw [← replacement_name]
  funext e s _ _
  refine propext ⟨fun h token name looked replaced => ?_, fun h looked => h looked (if_pos rfl)⟩
  rw [(d.replacement unit).edit_name?] at replaced
  split at replaced
  case isTrue same =>
    cases replaced
    exact h (looked.trans (congrArg some same))
  case isFalse => cases replaced

theorem unitWith_respelled {imp : Importer} (steady : imp.Steady) {path : Path}
    {session session' : Session} {back : List Char} {unit : CheckedUnit}
    (named : d.file = path.text)
    (plain : '-' ∉ d.new) (uncapped : session.config.maxCheckErrors = none)
    (accepted : Build.unitWith imp (d.source d.old back) path [] session = .ok (.ok unit, session'))
    (stands : d.oldToken ∈ (Cursor.ofSource (d.source d.old back) d.file).tokens)
    (stands' : Token.identifierAt d.file d.front d.new ∈
      (Cursor.ofSource (d.source d.new back) d.file).tokens)
    (looked : d.oldToken ∈
      Stmt.topLookups (Build.reading (d.source d.old back) path [] session).program.statements)
    (unbound : Build.LooksUpUnbound imp (d.source d.old back) path session d.oldToken
      (Name.qualify (String.ofList d.new) (toString session.nextId))) :
    ∃ session'', Build.unitWith imp (d.source d.new back) path [] session =
      .ok (.error [⟨.check (.undefinedVariable (String.ofList d.new)), .after d.file d.front⟩],
        session'') := by
  cases Build.unitWith_eq_ok.mp accepted with
  | @accepted xs s readable checked noErrors =>
    obtain ⟨reading, once⟩ := reading_respelled named readable stands stands' looked
    obtain ⟨ys, t, derived⟩ := unbound
    rw [unbound_eq] at derived
    obtain ⟨rfl, rfl⟩ := checked.unique derived.runs
    have grown : CheckState.Grows _ s := derived.change steady
    have quiet : s.Quiet := ⟨(congrArg Config.maxCheckErrors grown.config).trans uncapped, noErrors⟩
    have start : (Build.begun (d.source d.old back) path [] session).Quiet := ⟨uncapped, rfl⟩
    obtain ⟨zs, t', checked', behind⟩ := derived.redone steady quiet (.of_quiet start)
    have begun : Build.begun (d.source d.new back) path [] session =
        Build.begun (d.source d.old back) path [] session := by
      unfold Build.begun
      rw [reading]
    have errors := behind.errors_eq
    rw [mistakes_respelled _ plain once, List.nil_append] at errors
    refine ⟨t'.session, Build.unitWith_eq_ok.mpr ?_⟩
    have checked' : Check.Runs imp
        (Check.topLevel (Build.reading (d.source d.new back) path [] session).program.statements)
        (Build.begun (d.source d.new back) path [] session) zs t' := by
      rw [reading, begun]
      exact checked'.runs
    rw [← errors]
    exact .rejected (by rw [reading]) checked' (by simp [errors])

end Respelling

def Session.opened (s : Session) (path : Path) : Session :=
  (s.begin? path).getD s

namespace Session

variable (s : Session) (path : Path)

theorem opened_eq : ∃ importing, s.opened path = { s with importing } := by
  unfold opened begin?
  split
  · exact ⟨s.importing, rfl⟩
  · exact ⟨path :: s.importing, rfl⟩

@[simp]
theorem opened_config : (s.opened path).config = s.config := by
  obtain ⟨_, h⟩ := s.opened_eq path
  rw [h]

@[simp]
theorem opened_loader : (s.opened path).loader = s.loader := by
  obtain ⟨_, h⟩ := s.opened_eq path
  rw [h]

@[simp]
theorem opened_nextId : (s.opened path).nextId = s.nextId := by
  obtain ⟨_, h⟩ := s.opened_eq path
  rw [h]

end Session

namespace Build

/-- In a program that is accepted, an identifier `old` that is looked up is replaced by an
identifier `new` that is bound neither to a variable nor to a module there. That is the only error
reported. -/
theorem file_reports_once {front old new back : String} {path : Path} {session session' : Session}
    {unit : CheckedUnit} (uncapped : session.config.maxCheckErrors = none)
    (accepted : file (front ++ old ++ back) path session = .ok (.ok unit, session'))
    (stands : Token.identifierAt path.normalize.text front.toList old.toList ∈
      (Cursor.ofSource (front ++ old ++ back) path.normalize.text).tokens)
    (looked : Token.identifierAt path.normalize.text front.toList old.toList ∈
      Stmt.topLookups (reading (front ++ old ++ back) path.normalize []
        (session.opened path.normalize)).program.statements)
    (replaced : Token.identifierAt path.normalize.text front.toList new.toList ∈
      (Cursor.ofSource (front ++ new ++ back) path.normalize.text).tokens)
    (unbound : LooksUpUnbound (within session.loader.size) (front ++ old ++ back) path.normalize
      (session.opened path.normalize) (.identifierAt path.normalize.text front.toList old.toList)
      (Name.qualify new (toString session.nextId))) :
    ∃ session'', file (front ++ new ++ back) path session =
      .ok (.error [⟨.check (.undefinedVariable new), .after path.normalize.text front.toList⟩],
        session'') := by
  have text (word : String) : front ++ word ++ back =
      String.ofList (front.toList ++ word.toList ++ back.toList) := by
    rw [String.ofList_append, String.ofList_append, String.ofList_toList, String.ofList_toList,
      String.ofList_toList]
  rw [text] at accepted stands looked replaced unbound
  rw [text]
  obtain ⟨nonempty, parts⟩ := Token.word_of_identifierAt stands
  obtain ⟨nonempty', parts'⟩ := Token.word_of_identifierAt replaced
  let d : Respelling := ⟨path.normalize.text, front.toList, old.toList, new.toList, nonempty,
    fun mem => absurd (parts _ mem) (by decide), nonempty',
      fun mem => absurd (parts' _ mem) (by decide)⟩
  obtain ⟨session₁, built, rfl⟩ := file_eq_ok.mp accepted
  have importer (source : String) :
      Build.unit source path.normalize [] (session.opened path.normalize) =
      unitWith (within session.loader.size) source path.normalize []
        (session.opened path.normalize) := by
    rw [← session.opened_loader path.normalize]
    rfl
  have name : String.ofList d.new = new := String.ofList_toList
  rw [← name, ← session.opened_nextId path.normalize] at unbound
  obtain ⟨session₂, failed⟩ := d.unitWith_respelled (within_steady_total session.loader.size).1 rfl
    (fun mem => absurd (parts' _ mem) (by decide))
    ((congrArg Config.maxCheckErrors (session.opened_config _)).trans uncapped)
    ((importer _).symm.trans built) stands replaced looked unbound
  rw [name] at failed
  exact ⟨_, file_eq_ok.mpr ⟨session₂, (importer _).trans failed, rfl⟩⟩

def chainedNames : List Stmt → Option (String × String × String × String)
  | [.declare _ a .todo ⟨.integer _, .int 32, _⟩, .declare _ b .todo ⟨.ident a', _, _⟩,
      .declare _ _ .todo ⟨.ident b', _, _⟩] => some (a, b, a', b')
  | _ => none

/-- A variable is declared with the value of another one, and a third one with its own. -/
theorem file_reports_once_declared :
    ∃ unit session, file ("a:=1 b:=" ++ "a" ++ " c:=b") ⟨"m"⟩ (.start .default (.ofFiles [])) =
        .ok (.ok unit, session) ∧
      ∃ session', file ("a:=1 b:=" ++ "d" ++ " c:=b") ⟨"m"⟩ (.start .default (.ofFiles [])) =
        .ok (.error [⟨.check (.undefinedVariable "d"), .after "m" "a:=1 b:=".toList⟩],
          session') := by
  refine exists_of_accepts (by decide +kernel) fun accepted =>
    file_reports_once rfl accepted (by decide +kernel) (by decide +kernel) (by decide +kernel) ?_
  have path : Path.normalize ⟨"m"⟩ = ⟨"m"⟩ := by decide +kernel
  have name :
      Name.qualify "d" (toString (Session.start .default (.ofFiles [])).nextId) = "d-0" := by
    decide +kernel
  rw [path, name]
  generalize hs : (Session.start .default (.ofFiles [])).opened ⟨"m"⟩ = session
  have shape : chainedNames
      (reading ("a:=1 b:=" ++ "a" ++ " c:=b") ⟨"m"⟩ [] session).program.statements =
      some ("a-0", "b-0", "a-0", "b-0") := by
    subst hs
    decide +kernel
  unfold chainedNames at shape
  split at shape
  case h_1 statements =>
    cases shape
    unfold LooksUpUnbound
    rw [statements]
    have number {imp : Importer} {token : Token} {s : CheckState} :
        Check.Runs imp (Check.declaredType .todo (.int 32) token) s (.int 32) s := rfl
    exact ⟨_, _, .topCons (.declare (.expr (.literal rfl) (by simp [Expr.lookedUp?])) number)
      (.topCons (.declare (.expr (.ident rfl) fun _ => ⟨rfl, rfl⟩) number)
        (.topCons (.declare (.expr (.ident rfl) fun _ => ⟨rfl, rfl⟩) number) .topNil))⟩
  case h_2 => cases shape

end Build

end FrontEnd
