import ScriptIndex.Proofs.Runs

/-! # Reading documentation as a run

Each rule of type expressions makes one node in the role of a type. Reading a comment onto a statement
leaves the statement pending and nothing else. -/

namespace ScriptIndex
open Assembly

namespace TypeReader
open Reader.Runs

/-- Types are read whatever the text is. -/
instance : Reader.Legible Cursor := ⟨fun _ => True⟩

variable {P : Pending} {α : Type} {Q : α → Pending}

theorem updates_runs (f : Cursor → Cursor) : Reader.Runs (modify f : TypeReader PUnit) P (fun _ => P) :=
  updates fun _ _ => trivial

theorem fail_runs : Reader.Runs (fail : TypeReader α) P Q :=
  seq reads fun _ => lift (Build.Runs.fails _)

theorem skipBlanks_runs : Reader.Runs skipBlanks P (fun _ => P) :=
  updates_runs _

theorem position_runs : Reader.Runs position P (fun _ => P) :=
  seq skipBlanks_runs fun _ => seq reads fun _ => done _ rfl

theorem peek_runs : Reader.Runs peek P (fun _ => P) :=
  seq skipBlanks_runs fun _ => seq reads fun _ => done _ rfl

theorem accept_runs (mark : Char) : Reader.Runs (accept mark) P (fun _ => P) :=
  seq peek_runs fun _ => branch (seq (updates_runs _) fun _ => done _ rfl) (done _ rfl)

theorem require_runs (mark : Char) : Reader.Runs (require mark) P (fun _ => P) :=
  seq (accept_runs mark) fun _ => branch (done _ rfl) fail_runs

theorem acceptWord_runs (word : String) : Reader.Runs (acceptWord word) P (fun _ => P) :=
  seq skipBlanks_runs fun _ => seq reads fun _ =>
    branch (seq (updates_runs _) fun _ => done _ rfl) (done _ rfl)

theorem node_runs {kind : Kind} {role : Role} (start : Nat) (children : Pending)
    (forms : Forms kind children role) :
    Reader.Runs (node kind start (children.map Prod.snd)) (children.reverse ++ P)
      (fun n => (role, n) :: P) :=
  seq reads fun _ => lift (Build.Runs.node forms)

theorem items_runs {kind : Kind} {role : Role} (item : Role) (start : Nat) (items : List NodeId)
    (forms : Forms kind (items.map (item, ·)) role) :
    Reader.Runs (node kind start items) ((items.map (item, ·)).reverse ++ P)
      (fun n => (role, n) :: P) := by
  have := node_runs (P := P) start _ forms
  simpa [Function.comp_def] using this

theorem turns_runs : Reader.Runs turns P (fun _ => P) :=
  seq reads fun _ => done _ rfl

theorem turn_runs {mark : Char} {item : TypeReader NodeId} {role : Role} (h : item.Makes role) (P : Pending) :
    Reader.Runs (do
      let node ← item
      return if ← accept mark then .more node else .last node) P (Reader.Turn.pending role P) := by
  refine seq (h P) fun n => seq (accept_runs mark) fun b => ?_
  cases b <;> exact done _ rfl

theorem separated_runs {mark : Char} {item : TypeReader NodeId} {role : Role} (h : item.Makes role) :
    Reader.Runs (separated mark item) P (fun items => (items.map (role, ·)).reverse ++ P) :=
  seq turns_runs fun turns => collect role (turn_runs h) turns P

theorem separated_gives {mark : Char} {item : TypeReader NodeId} {role : Role} (h : item.Makes role) :
    Reader.Gives (separated mark item) (· ≠ []) := by
  refine .after (turns_runs (P := [])) fun turns => .collect_ne_nil (turn_runs h) ?_ turns
  refine .after (h []) fun n => .after (accept_runs (P := []) mark) fun b => .done ?_
  cases b <;> simp

namespace Grammar

/-- Both rules make types. -/
structure Runs (g : Grammar) : Prop where
  union : g.union.Makes .type
  prefixed : g.prefixed.Makes .type

variable {g : Grammar}

theorem skipLabel_runs (word : String) : Reader.Runs (skipLabel word) P (fun _ => P) :=
  seq reads fun start => seq (acceptWord_runs word) fun _ =>
    branch (seq (accept_runs ':') fun _ => branch (done _ rfl) (puts start trivial)) (done _ rfl)

namespace Runs

theorem param (hg : g.Runs) : g.param.Makes .type :=
  fun P => seq (skipLabel_runs "this") fun _ => seq (skipLabel_runs "new") fun _ => hg.union P

theorem function (hg : g.Runs) (start : Nat) : (g.function start).Makes .type := by
  intro P
  refine seq (require_runs '(') fun _ => seq reads fun c => seq (accept_runs ')') fun _ => ?_
  have rest (params : List NodeId) : Reader.Runs (do
      let params ← node .params c.pos params
      if ← accept ':' then
        let result ← g.prefixed
        node .function start [params, result]
      else node .function start [params]) ((params.map (Role.type, ·)).reverse ++ P)
        (fun n => (.type, n) :: P) := by
    refine seq (items_runs .type _ params (.typeParams (by simp))) fun p => seq (accept_runs ':') fun _ =>
      branch ?_ ?_
    · exact seq (hg.prefixed _) fun t =>
        node_runs start [(.typeParams, p), (.type, t)] (.typeFunctionTo p t)
    · exact node_runs start [(.typeParams, p)] (.typeFunction p)
  refine branch (seq (done [] rfl) rest) ?_
  exact seq (separated_runs hg.param) fun _ => seq (require_runs ')') fun _ => seq (done _ rfl) rest

theorem named (hg : g.Runs) (start : Nat) : (g.named start).Makes .type := by
  intro P
  refine seq reads fun c => seq (updates_runs _) fun _ => ?_
  have rest (text : String) : Reader.Runs (do
      let arguments ← do
        if ← accept '<' then
          let arguments ← separated ',' g.union
          require '>'
          pure arguments
        else pure []
      node (.typeName text) start arguments) P (fun n => (.type, n) :: P) := by
    have made (arguments : List NodeId) : Reader.Runs (node (.typeName text) start arguments)
        ((arguments.map (Role.type, ·)).reverse ++ P) (fun n => (.type, n) :: P) :=
      items_runs .type start arguments (.type rfl (by simp))
    refine seq (accept_runs '<') fun _ => branch ?_ (seq (done [] rfl) made)
    exact seq (separated_runs hg.union) fun _ => seq (require_runs '>') fun _ => seq (done _ rfl) made
  exact branch (seq (Q := fun _ => P) fail_runs fun _ => rest _) (rest _)

theorem basicRule (hg : g.Runs) : g.basicRule.Makes .type :=
  fun P => seq position_runs fun start => seq (accept_runs '(') fun _ => branch
    (seq (hg.union P) fun _ => seq (require_runs ')') fun _ => done _ rfl)
    (seq (acceptWord_runs "function") fun _ => branch (hg.function start P) (hg.named start P))

theorem prefixedRule (hg : g.Runs) : g.prefixedRule.Makes .type := by
  intro P
  have rest (type : NodeId) : Reader.Runs (do
      let _ ← accept '='
      return type) ((.type, type) :: P) (fun n => (.type, n) :: P) :=
    seq (accept_runs '=') fun _ => done _ rfl
  have leaf {kind : Kind} (start : Nat) (hk : kind.takesTypes 0 = true) :=
    node_runs (P := P) start [] (.type hk (by simp))
  have above {kind : Kind} (start t : Nat) (hk : kind.takesTypes 1 = true) :=
    node_runs (P := P) start [(.type, t)] (.type hk (by simp))
  refine seq position_runs fun start => seq (accept_runs '?') fun _ => branch ?_ ?_
  · refine seq peek_runs fun _ => branch (seq (leaf start rfl) rest) ?_
    exact seq (hg.prefixed P) fun t => seq (above start t rfl) rest
  refine seq (accept_runs '!') fun _ => branch ?_ ?_
  · exact seq (hg.prefixed P) fun t => seq (above start t rfl) rest
  refine seq (accept_runs '*') fun _ => branch (seq (leaf start rfl) rest) ?_
  refine seq reads fun _ => branch ?_ (seq (hg.basicRule P) rest)
  exact seq (updates_runs _) fun _ => seq (hg.prefixed P) rest

theorem unionRule (hg : g.Runs) : g.unionRule.Makes .type := by
  intro P
  refine seq position_runs fun start =>
    seqOf (separated_runs hg.prefixedRule) (separated_gives hg.prefixedRule) fun types hne => ?_
  split
  · exact done _ rfl
  · next hone =>
    have htwo : 2 ≤ types.length := by
      match types with
      | [] => exact absurd rfl hne
      | [t] => exact (hone t rfl).elim
      | _ :: _ :: _ => simp
    exact items_runs .type start _ (.type (by simpa [Kind.takesTypes] using htwo) (by simp))

theorem next (hg : g.Runs) : g.next.Runs := ⟨hg.unionRule, hg.prefixedRule⟩

end Runs

theorem within_runs : ∀ depth : Nat, (within depth).Runs
  | 0 => ⟨fun _ => fails _, fun _ => fails _⟩
  | depth + 1 => (within_runs depth).next

end Grammar

theorem whole_makes : whole.Makes .type := by
  intro P
  refine seq turns_runs fun turns => seq ((Grammar.within_runs turns).union P) fun type =>
    seq peek_runs fun _ => ?_
  exact branch (seq (Q := fun _ => (.type, type) :: P) fail_runs fun _ => done _ rfl) (done _ rfl)

end TypeReader

namespace Build
open Build.Runs

variable {P : Pending}

theorem typeExpression_runs (text : Cursor) :
    Runs (typeExpression text) P (fun n => (.type, n) :: P) :=
  seq ((TypeReader.whole_makes P).runs text trivial) fun _ => done _ rfl

theorem tag_runs (mention : Mention) (P : Pending) :
    Runs (tag mention) P (fun t => (t.type.toList.map (Role.type, ·)).reverse ++ P) := by
  unfold tag
  split
  · exact done _ rfl
  · exact seq (typeExpression_runs _) fun _ => done _ rfl

/-- The types of a comment are pending, those of its named tags. -/
theorem doc_runs (text : Cursor) :
    Runs (doc text) P (fun d => (d.typeRoots.map (Role.type, ·)).reverse ++ P) := by
  unfold doc
  split
  rename_i mentions unclosed _
  refine seq (mapM tag_runs mentions P) fun tags => ?_
  split
  · have hall : tags.flatMap (fun t => t.type.toList.map (Role.type, ·)) =
        (tags.filterMap Tag.type).map (Role.type, ·) := by
      induction tags with
      | nil => rfl
      | cons t tags ih => cases ht : t.type <;> simp [ht, ih]
    refine after (fun _ => .single (.abandon ?_)) (done _ rfl)
    rw [hall]
    exact (((List.filter_sublist.filterMap Tag.type).map _).reverse).append_right P
  · exact fails _

/-- Reading documentation leaves the statement that it belongs to pending. -/
theorem document_runs (described statement : NodeId) (text : Cursor) :
    Runs (document described text) ((.stating described, statement) :: P)
      (fun _ => (.stating described, statement) :: P) := by
  refine seq (doc_runs text) fun d => seq (Runs.update fun arena => ?_) fun _ => done _ rfl
  cases hset : arena.setDoc described d with
  | ok next => exact .single (.document (Arena.setDoc_eq_ok hset))
  | error e => exact trivial

end Build

end ScriptIndex
