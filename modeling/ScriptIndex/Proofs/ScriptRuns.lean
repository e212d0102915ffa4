import ScriptIndex.Proofs.Legible
import ScriptIndex.Proofs.TypeRuns

/-! # Reading a script as a run

Each rule of the grammar makes one node in the role of its construct. A program is therefore assembled
step by step from the arena of its two roots (`Program.steps_ofScripts`). -/

namespace ScriptIndex
open Assembly

namespace ScriptReader
open Reader.Runs

instance : Reader.Legible Input := ⟨fun s => s.stream.Legible⟩

variable {P : Pending} {α : Type} {Q : α → Pending}

theorem peek_runs : Reader.Runs peek P (fun _ => P) := by
  refine seq reads fun s => ?_
  dsimp only
  split
  · exact done _ rfl
  · split
    · exact done _ rfl
    · exact fails _

theorem consume_runs : Reader.Runs consume P (fun _ => P) :=
  seq peek_runs fun t => seq (updates fun _ hs => Input.legible_read hs t) fun _ => done _ rfl

theorem accept_runs (kind : TokenKind) : Reader.Runs (accept kind) P (fun _ => P) :=
  seq peek_runs fun _ => branch (seq consume_runs fun _ => done _ rfl) (done _ rfl)

theorem refuse_runs (t : Token) (cause : Cause) : Reader.Runs (refuse t cause : ScriptReader α) P Q :=
  lift (Build.Runs.fails _)

theorem require_runs (kind : TokenKind) : Reader.Runs (require kind) P (fun _ => P) :=
  seq peek_runs fun _ => branch consume_runs (refuse_runs _ _)

/-! ### The tokens that are given -/

theorem peek_gives : peek.Gives Token.Legible := by
  intro s hs arena r after h
  cases hhead : s.head with
  | error e =>
    rw [peek_of_error hhead] at h
    cases h
  | ok t =>
    rw [peek_of_head hhead] at h
    cases h
    exact Input.legible_head hs hhead

theorem consume_gives : consume.Gives Token.Legible :=
  .seq (P := []) peek_runs peek_gives fun t ht =>
    .after (P := []) (updates fun _ hs => Input.legible_read hs t) fun _ => .done ht

theorem reject_gives (cause : Cause) (span : Span) (token : Option TokenKind) {p : α → Prop} :
    Reader.Gives (Build.reject cause span token : ScriptReader α) p := by
  intro s _ arena r after h
  cases h

theorem accept_gives (kind : TokenKind) : (accept kind).Gives fun r => ∀ t ∈ r, t.Legible ∧ t.kind = kind := by
  intro s hs arena r after h
  cases hhead : s.head with
  | error e =>
    rw [accept, peek_bind_of_error hhead] at h
    cases h
  | ok t =>
    rw [accept_of_head kind hhead] at h
    split at h
    · next ht =>
      cases h
      rintro _ ⟨⟩
      exact ⟨Input.legible_head hs hhead, ht⟩
    · cases h
      rintro _ ⟨⟩

theorem require_gives (kind : TokenKind) : (require kind).Gives fun t => t.Legible ∧ t.kind = kind := by
  intro s hs arena r after h
  cases hhead : s.head with
  | error e =>
    rw [require, peek_bind_of_error hhead] at h
    cases h
  | ok t =>
    rw [require, peek_bind_of_head hhead] at h
    split at h
    · next ht =>
      rw [consume_of_head hhead] at h
      cases h
      exact ⟨Input.legible_head hs hhead, ht⟩
    · cases h

/-- Nothing comes after a refusal. -/
theorem refuse_seq {β : Type} (t : Token) (cause : Cause) (f : α → ScriptReader β) {R : β → Pending} :
    Reader.Runs ((refuse t cause : ScriptReader α) >>= f) P R :=
  seqOf (Q := fun _ => P) (refuse_runs t cause) (reject_gives _ _ _ : Reader.Gives _ fun _ => False) fun _ h => h.elim

/-! ### Nodes and loops -/

theorem turns_runs : Reader.Runs turns P (fun _ => P) :=
  seq reads fun _ => done _ rfl

theorem node_runs {kind : Kind} {role : Role} (start : Token) (children : Pending)
    (forms : Forms kind children role) :
    Reader.Runs (node kind start (children.map Prod.snd)) (children.reverse ++ P)
      (fun n => (role, n) :: P) :=
  seq (seq reads fun _ => done _ rfl) fun _ => lift (Build.Runs.node forms)

theorem items_runs {kind : Kind} {role : Role} (item : Role) (start : Token) (items : List NodeId)
    (forms : Forms kind (items.map (item, ·)) role) :
    Reader.Runs (node kind start items) ((items.map (item, ·)).reverse ++ P)
      (fun n => (role, n) :: P) := by
  have := node_runs (P := P) start _ forms
  simpa [Function.comp_def] using this

theorem leaf_runs {kind : Kind} {role : Role} (t : Token) (forms : Forms kind [] role) :
    Reader.Runs (leaf kind t) P (fun n => (role, n) :: P) :=
  lift (Build.Runs.node forms)

theorem itemsUntil_runs {close : TokenKind} {item : ScriptReader NodeId} {role : Role}
    (h : item.Makes role) :
    Reader.Runs (itemsUntil close item) P (fun items => (items.map (role, ·)).reverse ++ P) :=
  seq turns_runs fun turns => collect role (fun P => seq (accept_runs close) fun _ =>
    branch (done _ rfl) (seq (h P) fun _ => done _ rfl)) turns P

theorem separatedUntil_runs {close : TokenKind} {item : ScriptReader NodeId} {role : Role}
    (h : item.Makes role) :
    Reader.Runs (separatedUntil close item) P (fun items => (items.map (role, ·)).reverse ++ P) :=
  seq turns_runs fun turns => collect role (fun P => seq (accept_runs close) fun _ =>
    branch (done _ rfl) (seq (h P) fun _ => seq (accept_runs .comma) fun _ =>
      branch (done _ rfl) (seq (require_runs close) fun _ => done _ rfl))) turns P

theorem atomKind_runs (t : Token) : Reader.Runs (atomKind t) P (fun _ => P) := by
  unfold atomKind
  split
  case h_2 =>
    split
    · exact done _ rfl
    · exact lift (Build.Runs.fails _)
  case h_8 => exact refuse_runs _ _
  all_goals exact done _ rfl

theorem atomKind_gives {t : Token} (ht : t.Legible) : (atomKind t).Gives fun kind =>
    kind.isAtom = true ∧ ∀ text, kind = .name text → IsIdentifier text := by
  unfold atomKind
  split
  case h_1 hk =>
    refine .done ⟨rfl, fun text htext => ?_⟩
    cases htext
    exact ht.isIdentifier hk
  case h_2 =>
    split
    · exact .done ⟨rfl, fun _ h => by cases h⟩
    · exact reject_gives _ _ _
  case h_8 => exact reject_gives _ _ _
  all_goals exact .done ⟨rfl, fun _ h => by cases h⟩

theorem atom_makes : atom.Makes .expression :=
  fun _ => seqOf peek_runs peek_gives fun t ht => seqOf (atomKind_runs t) (atomKind_gives ht) fun _ hk =>
    seq consume_runs fun t => leaf_runs t (.atom hk.1 hk.2)

theorem name_makes : name.Makes .param :=
  fun _ => seqOf (require_runs .identifier) (require_gives .identifier) fun t ht =>
    leaf_runs t (.param (ht.1.isIdentifier ht.2))

theorem keyText_runs (t : Token) : Reader.Runs (keyText t) P (fun _ => P) :=
  branch (done _ rfl) (branch (done _ rfl) (refuse_runs _ _))

/-- After the check the expression may be assigned to. -/
theorem checkTarget_runs (sign : Token) (target : NodeId) :
    Reader.Runs (checkTarget sign target) ((.expression, target) :: P)
      (fun _ => (.target, target) :: P) := by
  have hget : ∀ (f : Arena → ScriptReader Unit) s arena,
      ((getThe Arena : ScriptReader Arena) >>= f) s arena = f arena s arena := fun _ _ _ => rfl
  refine ⟨fun s _ arena _ => ?_, fun s hs arena r after h => ?_⟩
  · have fails : ∃ rest, Steps ⟨arena, (.expression, target) :: P⟩ ⟨arena, rest⟩ := ⟨_, .refl⟩
    rw [checkTarget, hget]
    cases hk : arena.kind? target with
    | none => exact fails
    | some kind =>
      cases ht : kind.isTarget with
      | false => simp only [ht]; exact fails
      | true =>
        have aims : Steps ⟨arena, (.expression, target) :: P⟩ ⟨arena, (.target, target) :: P⟩ :=
          .single (.aim hk ht)
        simp only [ht]
        exact aims
  · rw [checkTarget, hget] at h
    cases hk : arena.kind? target with
    | none =>
      rw [hk] at h
      cases h
    | some kind =>
      rw [hk] at h
      cases ht : kind.isTarget <;> simp only [ht] at h <;> cases h
      exact hs

namespace Grammar

/-- Each rule makes a node in its role. -/
structure Runs (g : Grammar) : Prop where
  statement : g.statement.Makes .statement
  assignment : g.assignment.Makes .expression
  binary (least : Nat) : (g.binary least).Makes .expression
  unary : g.unary.Makes .expression

variable {g : Grammar}

theorem functionName_makes (start : Token) : (functionName start).Makes .label := by
  refine fun P => seqOf (accept_runs .identifier) (accept_gives .identifier) fun t ht => ?_
  split
  · next t =>
    obtain ⟨hlegible, hk⟩ := ht t rfl
    exact leaf_runs t (.label (.inr (hlegible.isIdentifier hk)))
  · exact lift (Build.Runs.node (.label (.inl rfl)))

namespace Runs

theorem block (hg : g.Runs) : g.block.Makes .block :=
  fun _ => seq (require_runs .braceOpen) fun start => seq (itemsUntil_runs hg.statement) fun body =>
    items_runs .statement start body (.block (by simp))

theorem function (hg : g.Runs) : g.function.Makes .function :=
  fun _ => seq (require_runs .functionWord) fun start => seq (functionName_makes start _) fun name =>
    seq (require_runs .parenOpen) fun paramsStart => seq (separatedUntil_runs name_makes) fun params =>
    seq (items_runs .param paramsStart params (.params (by simp))) fun params =>
    seq (hg.block _) fun body =>
    node_runs start [(.label, name), (.params, params), (.block, body)] (.function name params body)

theorem parenthesized (hg : g.Runs) : g.parenthesized.Makes .expression :=
  fun _ => seq (require_runs .parenOpen) fun _ => seq (hg.assignment _) fun _ =>
    seq (require_runs .parenClose) fun _ => done _ rfl

theorem member (hg : g.Runs) : g.member.Makes .key :=
  fun _ => seq consume_runs fun start => seq (keyText_runs start) fun text =>
    seq (require_runs .colon) fun _ => seq (hg.assignment _) fun value =>
    node_runs start [(.expression, value)] (.key text value)

theorem object (hg : g.Runs) : g.object.Makes .expression :=
  fun _ => seq (require_runs .braceOpen) fun start => seq (separatedUntil_runs hg.member) fun members =>
    items_runs .key start members (.object (by simp))

theorem array (hg : g.Runs) : g.array.Makes .expression :=
  fun _ => seq (require_runs .bracketOpen) fun start =>
    seq (separatedUntil_runs hg.assignment) fun elements => items_runs .expression start elements (.array (by simp))

theorem primary (hg : g.Runs) : g.primary.Makes .expression := by
  refine fun P => seq peek_runs fun t => ?_
  split
  · exact hg.function.serve .expressed P
  · exact hg.parenthesized P
  · exact hg.object P
  · exact hg.array P
  · exact atom_makes P

theorem suffix (hg : g.Runs) (start : Token) (receiver : NodeId) (P : Pending) :
    Reader.Runs (g.suffix start receiver) ((.expression, receiver) :: P)
      (fun m => (.expression, m.getD receiver) :: P) := by
  refine seq peek_runs fun t => ?_
  split
  · refine seq consume_runs fun _ => seqOf consume_runs consume_gives fun t ht => ?_
    split
    · next hname =>
      exact seq (node_runs start [(.expression, receiver)] (.property (ht.isWordText hname) receiver))
        fun _ => done _ rfl
    · exact refuse_seq _ _ _
  · exact seq consume_runs fun _ => seq (hg.assignment _) fun index =>
      seq (require_runs .bracketClose) fun _ =>
      seq (node_runs start [(.expression, receiver), (.expression, index)] (.element receiver index))
        fun _ => done _ rfl
  · refine seq consume_runs fun _ => seq (separatedUntil_runs hg.assignment) fun arguments => ?_
    have := items_runs (P := P) .expression start (receiver :: arguments) (.call receiver (by simp))
    rw [List.map_cons, List.reverse_cons, List.append_assoc] at this
    exact seq this fun _ => done _ rfl
  · exact done _ rfl

theorem chain (hg : g.Runs) : g.chain.Makes .expression :=
  fun P => seq peek_runs fun start => seq (hg.primary P) fun receiver => seq turns_runs fun turns =>
    extend (hg.suffix start) turns receiver P

theorem unaryRule (hg : g.Runs) : g.unaryRule.Makes .expression := by
  refine fun P => seq peek_runs fun start => ?_
  split
  · exact hg.chain P
  · exact seq consume_runs fun _ => seq (hg.unary P) fun operand =>
      node_runs start [(.expression, operand)] (.unary _ operand)

theorem operation (hg : g.Runs) (least : Nat) (start : Token) (left : NodeId) (P : Pending) :
    Reader.Runs (g.operation least start left) ((.expression, left) :: P)
      (fun m => (.expression, m.getD left) :: P) := by
  refine seq peek_runs fun t => ?_
  split
  · exact done _ rfl
  · refine branch (done _ rfl) ?_
    exact seq consume_runs fun _ => seq (hg.binary _ _) fun right =>
      seq (node_runs start [(.expression, left), (.expression, right)] (.binary _ left right))
        fun _ => done _ rfl

theorem binaryRule (hg : g.Runs) (least : Nat) : (g.binaryRule least).Makes .expression :=
  fun P => seq peek_runs fun start => seq (hg.unaryRule P) fun left => seq turns_runs fun turns =>
    extend (hg.operation least start) turns left P

theorem assignmentRule (hg : g.Runs) : g.assignmentRule.Makes .expression := by
  refine fun P => seq peek_runs fun start => seq (hg.binaryRule 1 P) fun left =>
    seq (accept_runs .equals) fun sign => ?_
  split
  · exact done _ rfl
  · exact seq (checkTarget_runs _ left) fun _ => seq (hg.assignment _) fun right =>
      node_runs start [(.target, left), (.expression, right)] (.assign left right)

theorem variableRule (hg : g.Runs) : g.variableRule.Makes .variable :=
  fun P => seqOf (require_runs .identifier) (require_gives .identifier) fun t ht =>
    have htext : IsIdentifier t.text := ht.1.isIdentifier ht.2
    seq (accept_runs .equals) fun _ => branch
      (seq (hg.assignmentRule P) fun value => node_runs t [(.expression, value)] (.initialized htext value))
      (node_runs t [] (.declared htext))

theorem declaration (hg : g.Runs) (word : VarWord) : (g.declaration word).Makes .statement := by
  refine fun P => seq consume_runs fun start => seq turns_runs fun turns =>
    seqOf (collect .variable ?turn turns P) (.collect_ne_nil ?turn ?item turns) fun names hne =>
    seq (accept_runs .semicolon) fun _ =>
      items_runs .variable start names (.declaration word (by simpa using hne) (by simp))
  case turn =>
    refine fun P => seq (hg.variableRule P) fun name => seq (accept_runs .comma) fun comma => ?_
    cases comma <;> exact done _ rfl
  case item =>
    refine .after (hg.variableRule []) fun name => .after (accept_runs (P := []) .comma) fun comma => .done ?_
    cases comma <;> simp

theorem ifRule (hg : g.Runs) : g.ifRule.Makes .statement :=
  fun P => seq (require_runs .ifWord) fun start => seq (require_runs .parenOpen) fun _ =>
    seq (hg.assignmentRule P) fun test => seq (require_runs .parenClose) fun _ =>
    seq (hg.statement _) fun holds => seq (accept_runs .elseWord) fun _ => branch
      (seq (hg.statement _) fun fails =>
        node_runs start [(.expression, test), (.statement, holds), (.statement, fails)]
          (.ifElse test holds fails))
      (node_runs start [(.expression, test), (.statement, holds)] (.ifThen test holds))

theorem returnRule (hg : g.Runs) : g.returnRule.Makes .statement :=
  fun P => seq consume_runs fun start => seq peek_runs fun _ => branch
    (seq (accept_runs .semicolon) fun _ => node_runs start [] .returnNothing)
    (seq (hg.assignmentRule P) fun value => seq (accept_runs .semicolon) fun _ =>
      node_runs start [(.expression, value)] (.returnValue value))

/-- The statement is pending as one about the node that documentation before it describes. -/
theorem undocumented (hg : g.Runs) (P : Pending) :
    Reader.Runs g.undocumented P (fun r => (.stating r.2, r.1) :: P) := by
  have itself {x : ScriptReader NodeId} (hx : x.Makes .statement) :
      Reader.Runs (Grammar.itself <$> x) P (fun r => (.stating r.2, r.1) :: P) := by
    rw [map_eq_pure_bind]
    exact seq ((hx P).weaken fun _ n => .single (.serve (.itself n))) fun _ => done _ rfl
  refine seq peek_runs fun start => ?_
  split
  · exact itself (hg.block.serve .block)
  · exact itself (hg.declaration _)
  · exact itself (hg.declaration _)
  · exact itself (hg.declaration _)
  · exact itself (hg.function.serve .declared)
  · exact itself hg.ifRule
  · exact itself hg.returnRule
  · refine seq consume_runs fun t => seq (Q := fun n => (.stating n, n) :: P) ?_ fun _ => done _ rfl
    exact (leaf_runs t .emptyStatement).weaken fun _ n => .single (.serve (.itself n))
  · exact seq (hg.assignmentRule P) fun e => seq (accept_runs .semicolon) fun _ =>
      seq (node_runs start [(.expression, e)] (.expressionStatement e)) fun _ => done _ rfl

theorem statementRule (hg : g.Runs) : g.statementRule.Makes .statement := by
  refine fun P => seq peek_runs fun t => seq (hg.undocumented P) fun r => ?_
  have rest : Reader.Runs (pure r.1 : ScriptReader NodeId) ((.stating r.2, r.1) :: P)
      (fun n => (.statement, n) :: P) :=
    (done r.1 rfl : Reader.Runs _ _ fun n => (.stating r.2, n) :: P).weaken
      fun _ n => .single (.serve (.stating r.2 n))
  dsimp only
  split
  · exact seq (lift (Build.document_runs r.2 r.1 _)) fun _ => rest
  · exact rest

theorem next (hg : g.Runs) : g.next.Runs :=
  ⟨hg.statementRule, hg.assignmentRule, hg.binaryRule, hg.unaryRule⟩

end Runs

theorem within_runs : ∀ depth : Nat, (within depth).Runs
  | 0 => ⟨fun _ => fails _, fun _ => fails _, fun _ _ => fails _, fun _ => fails _⟩
  | depth + 1 => (within_runs depth).next

end Grammar

/-- Statements up to the end of the text. -/
def statements (g : Grammar) : Nat → ScriptReader (List NodeId) :=
  Reader.collect do
    if (← peek).kind = .eof then return .stop
    else return .more (← g.statement)

theorem script_eq (module : Option ModuleId) : script module = turns >>= fun depth => turns >>= fun n =>
    statements (Grammar.within depth) n >>= fun body => peek >>= fun last =>
    liftM (Build.node (.script module) ⟨0, last.span.stop⟩ body) := rfl

theorem statements_runs (depth n : Nat) (P : Pending) :
    Reader.Runs (statements (Grammar.within depth) n) P fun body => (body.map (.statement, ·)).reverse ++ P := by
  refine collect .statement (fun P => ?_) n P
  exact seq peek_runs fun _ => branch (done _ rfl) (seq ((Grammar.within_runs depth).statement P) fun _ => done _ rfl)

theorem script_makes (module : Option ModuleId) : (script module).Makes .script := by
  rw [script_eq]
  refine fun P => seq turns_runs fun depth => seq turns_runs fun n => seq (statements_runs depth n P) fun body =>
    seq peek_runs fun last => ?_
  have forms : Forms (.script module) (body.map (Role.statement, ·)) .script := .script module (by simp)
  have made := @Build.Runs.node P _ ⟨0, last.span.stop⟩ _ _ forms
  rw [List.map_map, Function.comp_def, List.map_id'] at made
  exact lift made

end ScriptReader

theorem Build.script_runs {P : Pending} (source : List UInt8) (options : Options) :
    Runs (script source options) P (fun n => (.script, n) :: P) :=
  Runs.seq ((ScriptReader.script_makes _ P).runs _ (options.stream_legible source)) fun _ => Runs.done _ rfl

/-- A script to be read into a region of a program. -/
structure Script where
  region : Region
  source : List UInt8
  options : Options

namespace Program

/-- The program after a script was read into it, or was refused. -/
def add (arena : Arena) (script : Script) : Arena :=
  match Build.addScript script.region script.source script.options arena with
  | .ok _ after | .error _ after => after

/-- The program of some scripts, read one after the other. -/
def ofScripts (scripts : List Script) : Arena := scripts.foldl add empty

end Program

end ScriptIndex
