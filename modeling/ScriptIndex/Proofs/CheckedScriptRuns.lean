import ScriptIndex.Proofs.CheckedScript

/-! # Reading stays in bounds

From tokens that are cut out of the source each rule with checks reads what the rule without them reads, so that a
script is read without a breach. The tokens are what the lexer finds by position, and comments are read as
`CheckedBuild.doc` reads them: all that reading takes of a source, and of the arena, is there (`reading_in_bounds`). -/

namespace ScriptIndex

namespace CheckedScript
open Checked
open ScriptReader (peek consume accept require refuse node leaf turns isPropertyName checkTarget)

variable {source : List UInt8} {α β : Type} {P : α → Prop} {Q : β → Prop}

/-- From tokens that are cut out of the source both readers give the same, which satisfies `P`. -/
def Agrees (source : List UInt8) (P : α → Prop) (y : TokenReader α) (x : ScriptReader α) : Prop :=
  ∀ s : Input, s.stream.Cut source →
    CheckedReader.Mirrors id y x s fun a b s' => a = b ∧ P a ∧ s'.stream.Cut source

/-- Both give the same. -/
abbrev Alike (source : List UInt8) (y : TokenReader α) (x : ScriptReader α) : Prop :=
  Agrees source (fun _ => True) y x

namespace Agrees

theorem done {a : α} (h : P a) : Agrees source P (pure a) (pure a) :=
  fun _ hs => CheckedReader.Mirrors.done ⟨rfl, h, hs⟩

theorem seq {y : TokenReader α} {x : ScriptReader α} {g : α → TokenReader β} {f : α → ScriptReader β}
    (hx : Agrees source P y x) (hf : ∀ a, P a → Agrees source Q (g a) (f a)) :
    Agrees source Q (y >>= g) (x >>= f) := by
  intro s hs
  refine (hx s hs).seq ?_
  rintro a _ s' ⟨rfl, ha, hs'⟩
  exact hf a ha s' hs'

theorem imp {P' : α → Prop} {y : TokenReader α} {x : ScriptReader α} (hx : Agrees source P y x)
    (h : ∀ a, P a → P' a) : Agrees source P' y x :=
  fun s hs => (hx s hs).imp fun _ _ _ hr => ⟨hr.1, h _ hr.2.1, hr.2.2⟩

/-- Only the run with checks has to do something for a value that is known. -/
theorem known {a : α} {y : TokenReader α} {g : α → TokenReader β} {x : ScriptReader β}
    (hy : Agrees source (· = a) y (pure a)) (hg : Agrees source Q (g a) x) : Agrees source Q (y >>= g) x := by
  rw [← pure_bind a fun _ => x]
  refine hy.seq ?_
  rintro _ rfl
  exact hg

theorem map {y : TokenReader α} {x : ScriptReader α} (f : α → β) (hx : Agrees source P y x) :
    Alike source (f <$> y) (f <$> x) := by
  rw [map_eq_pure_bind, map_eq_pure_bind]
  exact hx.seq fun _ _ => done trivial

theorem branch {c : Prop} [Decidable c] {y y' : TokenReader α} {x x' : ScriptReader α}
    (hx : Agrees source P y x) (hx' : Agrees source P y' x') :
    Agrees source P (if c then y else y') (if c then x else x') := by
  split
  · exact hx
  · exact hx'

theorem lift (x : Build α) : Alike source (liftM x) (liftM x) :=
  fun _ hs => CheckedReader.Mirrors.lift fun _ => ⟨rfl, trivial, hs⟩

theorem liftChecked {z : CheckedBuild α} {x : Build α} (hz : CheckedBuild.Mirrors z x Eq) :
    Alike source (liftM z) (liftM x) :=
  fun _ hs => CheckedReader.Mirrors.liftChecked hz fun _ => ⟨rfl, trivial, hs⟩

theorem access {e : Except Breach α} {a : α} {g : α → TokenReader β} {x : ScriptReader β} (he : e = .ok a)
    (hg : Agrees source Q (g a) x) : Agrees source Q ((liftM e : TokenReader α) >>= g) x :=
  fun s hs => CheckedReader.Mirrors.access he (hg s hs)

/-- What takes nothing of the source needs no checks. -/
theorem ofReader {x : ScriptReader α} (h : ∀ s arena a s' after, s.stream.Cut source →
    x s arena = .ok (a, s') after → P a ∧ s'.stream.Cut source) : Agrees source P (liftM x) x := by
  intro s hs arena
  show CheckedBuild.Outcomes _ (CheckedBuild.ofBuild (x s) arena) (x s arena)
  unfold CheckedBuild.ofBuild
  cases hrun : x s arena with
  | ok r after => exact .ok ⟨rfl, rfl, h s arena r.1 r.2 after hs hrun⟩ after
  | error failure after => exact .failed failure after

theorem collect {turn : TokenReader (Reader.Turn NodeId)} {turn' : ScriptReader (Reader.Turn NodeId)}
    (h : Alike source turn turn') (n : Nat) :
    Alike source (CheckedReader.collect turn n) (Reader.collect turn' n) := by
  intro s hs
  refine (CheckedReader.Mirrors.collect (I := fun s => s.stream.Cut source) (fun s hs => ?_) n hs).imp
    fun _ _ _ h => ⟨h.1, trivial, h.2⟩
  exact (h s hs).imp fun _ _ _ h => ⟨h.1, h.2.2⟩

theorem extend {step : NodeId → TokenReader (Option NodeId)} {step' : NodeId → ScriptReader (Option NodeId)}
    (h : ∀ a, Alike source (step a) (step' a)) (n : Nat) (a : NodeId) :
    Alike source (CheckedReader.extend step n a) (Reader.extend step' n a) := by
  intro s hs
  refine (CheckedReader.Mirrors.extend (I := fun s => s.stream.Cut source) (fun a s hs => ?_) n a hs).imp
    fun _ _ _ h => ⟨h.1, trivial, h.2⟩
  exact (h a s hs).imp fun _ _ _ h => ⟨h.1, h.2.2⟩

end Agrees

open Agrees

/-! ### Tokens -/

section
variable {s : Input} {t : Token}

theorem cut_head (hs : s.stream.Cut source) (h : s.head = .ok t) : t.Cut source := by
  unfold Input.head at h
  split at h
  · next t' rest htokens =>
    cases h
    exact hs.tokens t (htokens ▸ List.mem_cons_self)
  · exact hs.last t h

theorem cut_read (hs : s.stream.Cut source) (t : Token) : (s.read t).stream.Cut source :=
  ⟨fun t' ht' => hs.tokens t' (List.mem_of_mem_tail ht'), hs.last⟩

end

theorem peek_agrees : Agrees source (Token.Cut source) (liftM peek) peek := by
  refine ofReader fun s arena t s' after hs h => ?_
  cases hhead : s.head with
  | error e =>
    rw [ScriptReader.peek_of_error hhead] at h
    cases h
  | ok t =>
    rw [ScriptReader.peek_of_head hhead] at h
    cases h
    exact ⟨cut_head hs hhead, hs⟩

theorem consume_agrees : Agrees source (Token.Cut source) (liftM consume) consume := by
  refine ofReader fun s arena t s' after hs h => ?_
  cases hhead : s.head with
  | error e =>
    rw [show consume s = throw (.rejected e) from ScriptReader.peek_bind_of_error hhead _] at h
    cases h
  | ok t =>
    rw [ScriptReader.consume_of_head hhead] at h
    cases h
    exact ⟨cut_head hs hhead, cut_read hs t⟩

theorem refuse_agrees (t : Token) (cause : Cause) : Agrees source P (liftM (refuse t cause : ScriptReader α)) (refuse t cause) :=
  fun _ _ => CheckedReader.Mirrors.rejects _ _ _

theorem accept_agrees (kind : TokenKind) :
    Agrees source (fun r => ∀ t ∈ r, Token.Cut source t) (liftM (accept kind)) (accept kind) := by
  refine ofReader fun s arena t s' after hs h => ?_
  cases hhead : s.head with
  | error e =>
    rw [show accept kind s = throw (.rejected e) from ScriptReader.peek_bind_of_error hhead _] at h
    cases h
  | ok t =>
    rw [ScriptReader.accept_of_head kind hhead] at h
    split at h
    · cases h
      refine ⟨?_, cut_read hs t⟩
      rintro _ ⟨⟩
      exact cut_head hs hhead
    · cases h
      exact ⟨nofun, hs⟩

theorem require_agrees (kind : TokenKind) : Agrees source (Token.Cut source) (liftM (require kind)) (require kind) := by
  refine ofReader fun s arena t s' after hs h => ?_
  cases hhead : s.head with
  | error e =>
    rw [show require kind s = throw (.rejected e) from ScriptReader.peek_bind_of_error hhead _] at h
    cases h
  | ok t =>
    rw [show require kind s = _ from ScriptReader.peek_bind_of_head hhead _] at h
    split at h
    · rw [ScriptReader.consume_of_head hhead] at h
      cases h
      exact ⟨cut_head hs hhead, cut_read hs t⟩
    · cases h

theorem turns_agrees : Alike source (liftM turns) turns := by
  refine ofReader fun s arena n s' after hs h => ?_
  cases h
  exact ⟨trivial, hs⟩

/-- What only puts something into the arena leaves the tokens alone. -/
theorem ofBuild_agrees {x : ScriptReader α} (h : ∀ s, ∃ z : Build α, x s = z >>= fun a => pure (a, s)) :
    Alike source (liftM x) x := by
  refine ofReader fun s arena a s' after hs hrun => ?_
  obtain ⟨z, hz⟩ := h s
  rw [hz] at hrun
  obtain ⟨_, _, -, hrun⟩ := Build.bind_eq_ok hrun
  cases hrun
  exact ⟨trivial, hs⟩

theorem node_agrees (kind : Kind) (start : Token) (children : List NodeId) :
    Alike source (liftM (node kind start children)) (node kind start children) :=
  ofBuild_agrees fun s => ⟨Build.node kind ⟨start.span.start, max s.lastEnd start.span.stop⟩ children, rfl⟩

theorem leaf_agrees (kind : Kind) (t : Token) : Alike source (liftM (leaf kind t)) (leaf kind t) :=
  ofBuild_agrees fun _ => ⟨Build.node kind t.span [], rfl⟩

theorem checkTarget_agrees (sign : Token) (target : NodeId) :
    Alike source (liftM (checkTarget sign target)) (checkTarget sign target) := by
  refine ofReader fun s arena a s' after hs h => ?_
  have hget : ∀ f : Arena → ScriptReader Unit, ((getThe Arena : ScriptReader Arena) >>= f) s arena = f arena s arena :=
    fun _ => rfl
  rw [checkTarget, hget] at h
  cases hkind : arena.kind? target with
  | none =>
    rw [hkind] at h
    cases h
  | some kind =>
    rw [hkind] at h
    dsimp only at h
    split at h
    · cases h
      exact ⟨trivial, hs⟩
    · cases h

/-! ### Loops -/

theorem itemTurn_agrees (close : TokenKind) {item : TokenReader NodeId} {item' : ScriptReader NodeId}
    (h : Alike source item item') : Alike source (itemTurn close item) (ScriptReader.itemTurn close item') :=
  (accept_agrees close).seq fun _ _ => branch (done trivial) (h.seq fun _ _ => done trivial)

theorem itemsUntil_agrees (close : TokenKind) {item : TokenReader NodeId} {item' : ScriptReader NodeId}
    (h : Alike source item item') : Alike source (itemsUntil close item) (ScriptReader.itemsUntil close item') :=
  turns_agrees.seq fun n _ => collect (itemTurn_agrees close h) n

theorem separatedTurn_agrees (close : TokenKind) {item : TokenReader NodeId} {item' : ScriptReader NodeId}
    (h : Alike source item item') :
    Alike source (separatedTurn close item) (ScriptReader.separatedTurn close item') := by
  refine (accept_agrees close).seq fun _ _ => branch (done trivial) (h.seq fun _ _ => ?_)
  exact (accept_agrees .comma).seq fun _ _ => branch (done trivial) ((require_agrees close).seq fun _ _ => done trivial)

theorem separatedUntil_agrees (close : TokenKind) {item : TokenReader NodeId} {item' : ScriptReader NodeId}
    (h : Alike source item item') : Alike source (separatedUntil close item) (ScriptReader.separatedUntil close item') :=
  turns_agrees.seq fun n _ => collect (separatedTurn_agrees close h) n

/-! ### Texts -/

variable {t : Token}

theorem text_agrees (ht : t.Cut source) : Agrees source (· = t.text) (text source t) (pure t.text) :=
  access ht.text (done rfl)

theorem stringText_agrees (hk : t.kind = .stringLiteral) (ht : t.Cut source) :
    Agrees source (· = ScriptReader.stringText t) (stringText source t) (pure (ScriptReader.stringText t)) :=
  access (ht.inside hk) (done rfl)

theorem atomKind_agrees (ht : t.Cut source) : Alike source (atomKind source t) (ScriptReader.atomKind t) := by
  unfold atomKind number ScriptReader.atomKind
  cases hk : t.kind
  case identifier => exact known (text_agrees ht) (done trivial)
  case numberLiteral =>
    refine access ht.text ?_
    cases Numeral.ofBytes? t.bytes with
    | some x => exact done trivial
    | none => exact fun _ _ => CheckedReader.Mirrors.rejects _ _ _
  case stringLiteral => exact known (stringText_agrees hk ht) (done trivial)
  case trueLiteral | falseLiteral | nullLiteral | thisWord => exact done trivial
  all_goals exact refuse_agrees t _

theorem atom_agrees : Alike source (atom source) ScriptReader.atom :=
  peek_agrees.seq fun _ ht => (atomKind_agrees ht).seq fun _ _ => consume_agrees.seq fun _ _ => leaf_agrees _ _

theorem name_agrees : Alike source (name source) ScriptReader.name :=
  (require_agrees .identifier).seq fun _ ht => known (text_agrees ht) (leaf_agrees _ _)

theorem keyText_agrees (ht : t.Cut source) : Alike source (keyText source t) (ScriptReader.keyText t) := by
  unfold keyText ScriptReader.keyText
  split
  · next hk => exact (stringText_agrees hk ht).imp fun _ _ => trivial
  · exact branch ((text_agrees ht).imp fun _ _ => trivial) (refuse_agrees t _)

/-! ### Rules -/

namespace Grammar

/-- Both grammars agree on their rules. -/
structure Agrees (source : List UInt8) (g : Grammar) (g' : ScriptReader.Grammar) : Prop where
  statement : Alike source g.statement g'.statement
  assignment : Alike source g.assignment g'.assignment
  binary (least : Nat) : Alike source (g.binary least) (g'.binary least)
  unary : Alike source g.unary g'.unary

variable {g : Grammar} {g' : ScriptReader.Grammar}

theorem functionName_agrees (start : Token) :
    Alike source (functionName source start) (ScriptReader.Grammar.functionName start) := by
  refine (accept_agrees .identifier).seq fun r hr => ?_
  cases r with
  | none => exact lift _
  | some t => exact known (text_agrees (hr t rfl)) (leaf_agrees _ _)

namespace Agrees

theorem block (hg : g.Agrees source g') : Alike source g.block g'.block :=
  (require_agrees .braceOpen).seq fun _ _ =>
    (itemsUntil_agrees .braceClose hg.statement).seq fun _ _ => node_agrees _ _ _

theorem function (hg : g.Agrees source g') : Alike source (g.function source) g'.function :=
  (require_agrees .functionWord).seq fun _ _ => (functionName_agrees _).seq fun _ _ =>
    (require_agrees .parenOpen).seq fun _ _ => (separatedUntil_agrees .parenClose name_agrees).seq fun _ _ =>
      (node_agrees _ _ _).seq fun _ _ => hg.block.seq fun _ _ => node_agrees _ _ _

theorem parenthesized (hg : g.Agrees source g') : Alike source g.parenthesized g'.parenthesized :=
  (require_agrees .parenOpen).seq fun _ _ => hg.assignment.seq fun _ _ =>
    (require_agrees .parenClose).seq fun _ _ => done trivial

theorem member (hg : g.Agrees source g') : Alike source (g.member source) g'.member :=
  consume_agrees.seq fun _ ht => (keyText_agrees ht).seq fun _ _ => (require_agrees .colon).seq fun _ _ =>
    hg.assignment.seq fun _ _ => node_agrees _ _ _

theorem object (hg : g.Agrees source g') : Alike source (g.object source) g'.object :=
  (require_agrees .braceOpen).seq fun _ _ =>
    (separatedUntil_agrees .braceClose hg.member).seq fun _ _ => node_agrees _ _ _

theorem array (hg : g.Agrees source g') : Alike source g.array g'.array :=
  (require_agrees .bracketOpen).seq fun _ _ =>
    (separatedUntil_agrees .bracketClose hg.assignment).seq fun _ _ => node_agrees _ _ _

theorem primary (hg : g.Agrees source g') : Alike source (g.primary source) g'.primary := by
  refine peek_agrees.seq fun t _ => ?_
  cases t.kind
  case functionWord => exact hg.function
  case parenOpen => exact hg.parenthesized
  case braceOpen => exact hg.object
  case bracketOpen => exact hg.array
  all_goals exact atom_agrees

theorem suffix (hg : g.Agrees source g') (start : Token) (receiver : NodeId) :
    Alike source (g.suffix source start receiver) (g'.suffix start receiver) := by
  have made (kind : Kind) (children : List NodeId) :
      Alike source (do return some (← node kind start children)) (do return some (← node kind start children)) :=
    (node_agrees _ _ _).seq fun _ _ => done trivial
  refine peek_agrees.seq fun t _ => ?_
  cases t.kind
  case dot =>
    refine consume_agrees.seq fun _ _ => consume_agrees.seq fun t ht => branch (known (text_agrees ht) (made _ _)) ?_
    exact (refuse_agrees (P := fun _ => False) t _).seq fun _ h => h.elim
  case bracketOpen =>
    refine consume_agrees.seq fun _ _ => hg.assignment.seq fun _ _ => ?_
    exact (require_agrees .bracketClose).seq fun _ _ => made _ _
  case parenOpen =>
    refine consume_agrees.seq fun _ _ => (separatedUntil_agrees .parenClose hg.assignment).seq fun _ _ => made _ _
  all_goals exact done trivial

theorem chain (hg : g.Agrees source g') : Alike source (g.chain source) g'.chain :=
  peek_agrees.seq fun start _ => hg.primary.seq fun _ _ => turns_agrees.seq fun n _ => extend (hg.suffix start) n _

theorem unaryRule (hg : g.Agrees source g') : Alike source (g.unaryRule source) g'.unaryRule := by
  refine peek_agrees.seq fun t _ => ?_
  cases t.kind.unaryOp? with
  | none => exact hg.chain
  | some op => exact consume_agrees.seq fun _ _ => hg.unary.seq fun _ _ => node_agrees _ _ _

theorem operation (hg : g.Agrees source g') (least : Nat) (start : Token) (left : NodeId) :
    Alike source (g.operation least start left) (g'.operation least start left) := by
  refine peek_agrees.seq fun t _ => ?_
  cases t.kind.binaryOp? with
  | none => exact done trivial
  | some entry =>
    refine branch (done trivial) (consume_agrees.seq fun _ _ => (hg.binary _).seq fun _ _ => ?_)
    exact (node_agrees _ _ _).seq fun _ _ => done trivial

theorem binaryRule (hg : g.Agrees source g') (least : Nat) :
    Alike source (g.binaryRule source least) (g'.binaryRule least) :=
  peek_agrees.seq fun start _ => hg.unaryRule.seq fun _ _ => turns_agrees.seq fun n _ =>
    extend (hg.operation least start) n _

theorem assignmentRule (hg : g.Agrees source g') : Alike source (g.assignmentRule source) g'.assignmentRule := by
  refine peek_agrees.seq fun start _ => (hg.binaryRule 1).seq fun left _ => (accept_agrees .equals).seq fun sign _ => ?_
  cases sign with
  | none => exact done trivial
  | some sign =>
    exact (checkTarget_agrees sign left).seq fun _ _ => hg.assignment.seq fun _ _ => node_agrees _ _ _

theorem variableRule (hg : g.Agrees source g') : Alike source (g.variableRule source) g'.variableRule := by
  refine (require_agrees .identifier).seq fun t ht => (accept_agrees .equals).seq fun _ _ => branch ?_ ?_
  · exact hg.assignmentRule.seq fun _ _ => known (text_agrees ht) (node_agrees _ _ _)
  · exact known (text_agrees ht) (node_agrees _ _ _)

theorem variableTurn (hg : g.Agrees source g') : Alike source (g.variableTurn source) g'.variableTurn :=
  hg.variableRule.seq fun _ _ => (accept_agrees .comma).seq fun _ _ => done trivial

theorem declaration (hg : g.Agrees source g') (word : VarWord) :
    Alike source (g.declaration source word) (g'.declaration word) :=
  consume_agrees.seq fun _ _ => turns_agrees.seq fun n _ => (collect hg.variableTurn n).seq fun _ _ =>
    (accept_agrees .semicolon).seq fun _ _ => node_agrees _ _ _

theorem ifRule (hg : g.Agrees source g') : Alike source (g.ifRule source) g'.ifRule := by
  refine (require_agrees .ifWord).seq fun _ _ => (require_agrees .parenOpen).seq fun _ _ =>
    hg.assignmentRule.seq fun _ _ => (require_agrees .parenClose).seq fun _ _ => hg.statement.seq fun _ _ => ?_
  refine (accept_agrees .elseWord).seq fun _ _ => branch ?_ (node_agrees _ _ _)
  exact hg.statement.seq fun _ _ => node_agrees _ _ _

theorem returnRule (hg : g.Agrees source g') : Alike source (g.returnRule source) g'.returnRule := by
  have rest (start : Token) (children : List NodeId) : Alike source (do
        let _ ← accept .semicolon
        node .returnStatement start children) (do
        let _ ← accept .semicolon
        node .returnStatement start children) :=
    (accept_agrees .semicolon).seq fun _ _ => node_agrees _ _ _
  refine consume_agrees.seq fun start _ => peek_agrees.seq fun _ _ => branch (rest start []) ?_
  exact hg.assignmentRule.seq fun value _ => rest start [value]

theorem undocumented (hg : g.Agrees source g') : Alike source (g.undocumented source) g'.undocumented := by
  refine peek_agrees.seq fun start _ => ?_
  cases start.kind
  case braceOpen => exact hg.block.map _
  case varWord | letWord | constWord => exact (hg.declaration _).map _
  case functionWord => exact hg.function.map _
  case ifWord => exact hg.ifRule.map _
  case returnWord => exact hg.returnRule.map _
  case semicolon => exact consume_agrees.seq fun _ _ => (leaf_agrees _ _).seq fun _ _ => done trivial
  all_goals
    refine hg.assignmentRule.seq fun _ _ => (accept_agrees .semicolon).seq fun _ _ => ?_
    exact (node_agrees _ _ _).seq fun _ _ => done trivial

theorem statementRule (hg : g.Agrees source g') : Alike source (g.statementRule source) g'.statementRule := by
  refine peek_agrees.seq fun t ht => hg.undocumented.seq fun r _ => ?_
  obtain ⟨statement, described⟩ := r
  cases hdoc : t.doc with
  | none => exact done trivial
  | some text =>
    refine access (ht.doc text hdoc) ((liftChecked (CheckedBuild.document_mirrors _ _)).seq fun _ _ => ?_)
    exact done trivial

theorem next (hg : g.Agrees source g') : (g.next source).Agrees source g'.next :=
  ⟨hg.statementRule, hg.assignmentRule, hg.binaryRule, hg.unaryRule⟩

end Agrees

theorem within_agrees (source : List UInt8) :
    ∀ depth : Nat, (within source depth).Agrees source (ScriptReader.Grammar.within depth)
  | 0 =>
    have exhausted : Alike source (throw (.failed .exhausted) : TokenReader NodeId) (throw .exhausted) :=
      fun _ _ => CheckedReader.Mirrors.fails .exhausted
    ⟨exhausted, exhausted, fun _ => exhausted, exhausted⟩
  | depth + 1 => (within_agrees source depth).next

end Grammar

theorem statementTurn_agrees {g : Grammar} {g' : ScriptReader.Grammar} (hg : g.Agrees source g') :
    Alike source (statementTurn g) (ScriptReader.statementTurn g') :=
  peek_agrees.seq fun _ _ => branch (done trivial) (hg.statement.seq fun _ _ => done trivial)

theorem script_agrees (source : List UInt8) (module : Option ModuleId) :
    Alike source (script source module) (ScriptReader.script module) := by
  refine turns_agrees.seq fun depth _ => turns_agrees.seq fun n _ => ?_
  refine (collect (statementTurn_agrees (Grammar.within_agrees source depth)) n).seq fun body _ => ?_
  exact peek_agrees.seq fun last _ => lift _

end CheckedScript

namespace CheckedBuild

/-- Reads a script with checks, from its bytes on. -/
def script (source : List UInt8) (options : Options) : CheckedBuild NodeId := do
  let stream ← Checked.stream source 0
  (CheckedScript.script source options.module).run' (.ofStream (options.shown stream))

theorem script_eq (source : List UInt8) (options : Options) :
    script source options = ofBuild (Build.script source options) := by
  refine Mirrors.eq (Mirrors.access (Checked.stream_eq source 0) ?_)
  refine Mirrors.seq (CheckedScript.script_agrees source options.module _ (options.cut_stream source)) ?_
  rintro ⟨n, s⟩ ⟨n', s'⟩ ⟨-, h, -⟩
  exact Mirrors.done h

/-- The run gives a result, or it refuses the text: each access is to what is there, bytes and nodes alike, and no loop
is cut short. -/
inductive InBounds {α : Type} : EStateM.Result Stop Arena α → Prop
  | ok (a : α) (arena : Arena) : InBounds (.ok a arena)
  | rejected (e : SyntaxError) (arena : Arena) : InBounds (.error (.failed (.rejected e)) arena)

theorem InBounds.ofEnds {α : Type} {E : SyntaxError → Prop} {x : Build α} {arena : Arena} (h : Build.Ends E (x arena)) :
    InBounds (ofBuild x arena) := by
  unfold ofBuild
  generalize x arena = r at h
  cases h with
  | ok a after => exact .ok a after
  | rejected _ after => exact .rejected _ after

/-- Reading stays in bounds, whatever the bytes. The lexer does so from any position, also after the end of the source,
and over any number of stops; a script with any options does so, and so does a comment, wherever it stands. With their
checks they read what they read without. -/
theorem reading_in_bounds (source : List UInt8) :
    (∀ stops pos, Checked.items source stops pos = .ok ((Cursor.place source pos).items stops)) ∧
      (∀ options, script source options = ofBuild (Build.script source options) ∧
        ∀ arena, InBounds (script source options arena)) ∧
      ∀ start, doc ⟨start, source⟩ = ofBuild (Build.doc ⟨start, source⟩) ∧
        ∀ arena, InBounds (doc ⟨start, source⟩ arena) := by
  refine ⟨Checked.items_eq source, fun options => ⟨script_eq source options, fun arena => ?_⟩,
    fun start => ⟨doc_eq ⟨start, source⟩, fun arena => ?_⟩⟩
  · rw [script_eq]
    exact .ofEnds (Build.script_ends source options arena)
  · rw [doc_eq]
    exact .ofEnds (Build.doc_ends ⟨start, source⟩ arena)

end CheckedBuild

end ScriptIndex
