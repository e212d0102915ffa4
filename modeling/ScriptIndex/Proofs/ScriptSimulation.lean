import ScriptIndex.Proofs.Simulation

/-! # The grammar in two runs

Under a sound comparison each rule of the grammar goes alike in both runs. A rule that ends in a semicolon may
leave the first run at the end of its tokens; all others read a token that is none, so that the runs stay in
step after them. -/

namespace ScriptIndex

namespace ScriptReader
open Follows

variable {S : Comparison} (hS : S.Sound) {w : S.World} {I J : Input → Input → Prop} {γ δ : Type}
  {Q : S.World → γ × Input → δ × Input → Prop}

include hS

theorem accept_cases (kind : TokenKind) (hnone : ∀ s s', S.Inputs s s' → J s s')
    (hsome : ∀ t t' s s', t.kind = kind → S.At t t' s s' → J (s.read t) (s'.read t')) :
    Follows S S.Inputs w (accept kind) (accept kind) (S.Gives (fun _ => Option.Rel S.Tokens) J) := by
  refine seqPeek hS fun t t' ht => branch (by rw [hS.kind ht]) (fun hk s s' hs => ?_) fun _ s s' hs => ?_
  · show Build.Follows S w (consume s >>= _) (consume s' >>= _) _
    rw [consume_of_head hs.left, consume_of_head hs.right]
    exact Build.Follows.done hS ⟨.some ht, hsome t t' s s' hk hs⟩
  · exact Build.Follows.done hS ⟨.none, hnone s s' hs.inputs⟩

theorem accept_follows (kind : TokenKind) (hk : kind.Inner) :
    Follows S S.Inputs w (accept kind) (accept kind) (S.Gives (fun _ => Option.Rel S.Tokens) S.Inputs) :=
  accept_cases hS kind (fun _ _ h => h) fun _ _ _ _ h hs => hS.read hs.inputs hs.left hs.right (h ▸ hk)

theorem accept_semicolon :
    Follows S S.Inputs w (accept .semicolon) (accept .semicolon)
      (S.Gives (fun _ => Option.Rel S.Tokens) S.After) :=
  accept_cases hS .semicolon (fun _ _ => hS.after) fun _ _ _ _ h hs => hS.read_after hs.inputs hs.left hs.right h

/-- Where the first run is at the end, neither run accepts the word. -/
theorem seqElse {f g : Option Token → ScriptReader γ} {Q : S.World → γ × Input → γ × Input → Prop}
    (hsome : ∀ w' t t', S.le w w' → Follows S S.Inputs w' (f (some t)) (g (some t')) Q)
    (hnone : ∀ w', S.le w w' → Follows S S.After w' (f none) (g none) Q) :
    Follows S S.After w (accept .elseWord >>= f) (accept .elseWord >>= g) Q := by
  intro s s' hs
  rcases hS.ended hs with hin | ⟨hend, -, t', ht', hk'⟩
  · refine seq hS (accept_follows hS .elseWord (by decide)) (fun w' a b hle hab => ?_) s s' hin
    cases hab with
    | some => exact hsome w' _ _ hle
    | none => exact (hnone w' hle).pre fun _ _ => hS.after
  · obtain ⟨t, ht, hk⟩ := hend.head
    show Build.Follows S w (accept .elseWord s >>= _) (accept .elseWord s' >>= _) Q
    rw [accept_of_head _ ht, accept_of_head _ ht', if_neg (by rw [hk]; decide), if_neg hk']
    exact hnone w (hS.le_refl w) s s' hs

/-- The token is refused, or one of the kind is read. -/
theorem refuse_follows {t t' : Token} (ht : S.Tokens t t') (cause : Cause) :
    Follows S I w (refuse t cause : ScriptReader γ) (refuse t' cause : ScriptReader δ) Q := by
  unfold refuse
  rw [hS.kind ht]
  exact rejects hS _ _ (hS.token_span ht)

theorem require_follows (kind : TokenKind) (hk : kind.Inner) :
    Follows S S.Inputs w (require kind) (require kind) (S.Gives (fun _ => S.Tokens) S.Inputs) :=
  seqPeek hS fun _ _ ht => branch (by rw [hS.kind ht]) (fun h => consume_at hS ht (h ▸ hk)) fun _ =>
    refuse_follows hS ht _

theorem turns_follows :
    Follows S S.Inputs w turns turns (S.Gives (fun _ => S.Enough) S.Inputs) :=
  fun _ _ hs => Build.Follows.done hS ⟨(hS.turns hs).succ, hs⟩

theorem node_follows {kind : Kind} {t t' : Token} {children children' : List NodeId}
    (hI : ∀ s s', I s s' → S.After s s') (ht : S.Tokens t t') (hc : S.Lists w children children') :
    Follows S I w (node kind t children) (node kind t' children') (S.Gives S.Ids I) :=
  fun s s' hs => lift hS (hS.node kind (hS.span_from (hI s s' hs) ht) hc) s s' hs

theorem leaf_follows {kind : Kind} {t t' : Token} (ht : S.Tokens t t') :
    Follows S I w (leaf kind t) (leaf kind t') (S.Gives S.Ids I) :=
  lift hS (hS.node kind (hS.token_span ht) .nil)

omit hS in
/-- Both runs accept a token or neither does. -/
theorem isSome_eq {α : Type} {R : α → α → Prop} {a b : Option α} (h : Option.Rel R a b) : b.isSome = a.isSome := by
  cases h <;> rfl

/-- Both make related nodes, and leave inputs related by `J`. -/
def Alike (S : Comparison) (J : Input → Input → Prop) (x y : ScriptReader NodeId) : Prop :=
  ∀ w, Follows S S.Inputs w x y (S.Gives S.Ids J)

/-- At the end of the first run's tokens the next item would fail. -/
theorem itemsUntil_follows {close : TokenKind} (hk : close.Inner) {item item' : ScriptReader NodeId}
    (h : Alike S S.After item item') (hended : ∀ s, s.Ended → (item s).Fails) :
    Follows S S.Inputs w (itemsUntil close item) (itemsUntil close item') (S.Gives S.Lists S.Inputs) := by
  refine seq hS (turns_follows hS) fun w' n n' _ hn => pre (collect hS (fun w s s' hs => ?_) hn w') fun _ _ => hS.after
  rcases hS.ended hs with hin | ⟨hend, hlost, -⟩
  · refine seq hS (accept_follows hS close hk)
      (fun _ _ _ _ hclosed => branch (by rw [isSome_eq hclosed]) ?_ ?_) s s' hin
    · exact fun _ => done hS fun _ _ hs => .stop hs
    · exact fun _ => seq hS (h _) fun _ _ _ _ hn => done hS fun _ _ hs => .more hn hs
  · obtain ⟨t, ht, heof⟩ := hend.head
    have hturn : (itemTurn close item s).Fails := by
      show (accept close s >>= _).Fails
      rw [accept_of_head _ ht, if_neg (by rw [heof]; exact hk.2.symm)]
      exact (hended s hend).seq _
    exact Build.Follows.fallen hlost hturn _

theorem separatedUntil_follows {close : TokenKind} (hk : close.Inner) {item item' : ScriptReader NodeId}
    (h : Alike S S.Inputs item item') :
    Follows S S.Inputs w (separatedUntil close item) (separatedUntil close item') (S.Gives S.Lists S.Inputs) := by
  refine seq hS (turns_follows hS) fun w' n n' _ hn => collect hS (fun w => ?_) hn w'
  refine seq hS (accept_follows hS close hk) fun _ _ _ _ hclosed => branch (by rw [isSome_eq hclosed]) ?_ ?_
  · exact fun _ => done hS fun _ _ hs => .stop hs
  · refine fun _ => seq hS (h _) fun _ n n' _ hn =>
      seq hS (accept_follows hS .comma (by decide)) fun _ _ _ hle hcomma => branch (by rw [isSome_eq hcomma]) ?_ ?_
    · exact fun _ => done hS fun _ _ hs => .more (hS.ids_mono hn hle) hs
    · exact fun _ => seq hS (require_follows hS close hk) fun _ _ _ hle' _ => done hS fun _ _ hs =>
        .last (hS.ids_mono hn (hS.le_trans hle hle')) hs

theorem atomKind_follows {t t' : Token} (ht : S.Tokens t t') :
    Follows S I w (atomKind t) (atomKind t') (S.Gives (fun _ a b => b = a ∧ t.kind.Inner) I) := by
  unfold atomKind stringText
  rw [hS.kind ht, hS.text ht, hS.bytes ht]
  split
  case h_2 hk =>
    split
    · exact gives hS ⟨rfl, by rw [hk]; decide⟩
    · exact rejects hS _ _ (hS.token_span ht)
  case h_8 => exact refuse_follows hS ht _
  all_goals next hk => exact gives hS ⟨rfl, by rw [hk]; decide⟩

theorem atom_follows : Alike S S.Inputs atom atom := by
  refine fun w => seqPeek hS fun t t' ht => seq hS (atomKind_follows hS ht) ?_
  rintro _ kind _ _ ⟨rfl, hk⟩
  exact seq hS (consume_at hS ht hk) fun _ _ _ _ ht => leaf_follows hS ht

theorem name_follows : Alike S S.Inputs name name := by
  refine fun _ => seq hS (require_follows hS .identifier (by decide)) fun _ _ _ _ ht => ?_
  rw [hS.text ht]
  exact leaf_follows hS ht

omit hS in
theorem isPropertyName_eq (hS : S.Sound) {t t' : Token} (ht : S.Tokens t t') :
    isPropertyName t' = isPropertyName t := by
  rw [isPropertyName, hS.kind ht]
  rfl

omit hS in
theorem isPropertyName_inner {t : Token} (h : isPropertyName t = true) : t.kind.Inner := by
  refine ⟨fun hk => ?_, isPropertyName_ne h⟩
  rw [isPropertyName, hk] at h
  exact absurd h (by decide)

theorem keyText_follows {t t' : Token} (ht : S.Tokens t t') :
    Follows S I w (keyText t) (keyText t') (S.Gives (fun _ a b => b = a ∧ t.kind.Inner) I) := by
  unfold keyText stringText
  rw [hS.kind ht, hS.text ht, hS.bytes ht, isPropertyName_eq hS ht]
  refine branch Iff.rfl (fun hk => gives hS ⟨rfl, by rw [hk]; decide⟩) fun _ =>
    branch Iff.rfl (fun hk => gives hS ⟨rfl, ?_⟩) fun _ => refuse_follows hS ht _
  rcases Bool.or_eq_true_iff.1 hk with hname | hnumber
  · exact isPropertyName_inner hname
  · rw [of_decide_eq_true hnumber]
    decide

/-- The kind read back from the arena is the same. -/
theorem checkTarget_follows {sign sign' : Token} (hsign : S.Tokens sign sign') {n n' : NodeId} (hn : S.Ids w n n') :
    Follows S I w (checkTarget sign n) (checkTarget sign' n') (S.Gives S.Same I) := by
  intro s s' hs left right harenas
  have hget : ∀ (f : Arena → ScriptReader Unit) (s : Input) (arena : Arena),
      ((getThe Arena : ScriptReader Arena) >>= f) s arena = f arena s arena := fun _ _ _ => rfl
  obtain ⟨kind, hkind, hkind'⟩ := hS.kind? harenas hn
  unfold checkTarget
  rw [hget, hget, hkind, hkind', hS.kind hsign]
  have checked (target : Bool) : Follows S I w
      (if target then pure () else liftM (Build.reject .invalidAssignmentTarget sign.span (some sign.kind)))
      (if target then pure () else liftM (Build.reject .invalidAssignmentTarget sign'.span (some sign.kind)))
      (S.Gives (α := Unit) S.Same I) :=
    branch Iff.rfl (fun _ => gives hS rfl) fun _ => rejects hS _ _ (hS.token_span hsign)
  exact checked kind.isTarget s s' hs left right harenas

namespace Grammar

/-- The rules of both grammars go alike, and without tokens the first makes no statement. -/
structure Follows (S : Comparison) (g g' : Grammar) : Prop where
  statement : Alike S S.After g.statement g'.statement
  assignment : Alike S S.Inputs g.assignment g'.assignment
  binary (least : Nat) : Alike S S.Inputs (g.binary least) (g'.binary least)
  unary : Alike S S.Inputs g.unary g'.unary
  ended : ∀ s, s.Ended → (g.statement s).Fails

variable {g g' : Grammar}

theorem functionName_follows {t t' : Token} (ht : S.Tokens t t') :
    ScriptReader.Follows S S.Inputs w (functionName t) (functionName t') (S.Gives S.Ids S.Inputs) := by
  refine seq hS (accept_follows hS .identifier (by decide)) fun _ _ _ _ hname => ?_
  cases hname with
  | none => exact lift hS (hS.node _ (hS.stop_span ht) .nil)
  | some hname =>
    dsimp only
    rw [hS.text hname]
    exact leaf_follows hS hname

namespace Follows

theorem block (hg : g.Follows S g') : Alike S S.Inputs g.block g'.block :=
  fun _ => seq hS (require_follows hS .braceOpen (by decide)) fun _ _ _ _ ht =>
    seq hS (itemsUntil_follows hS (by decide) hg.statement hg.ended) fun _ _ _ _ hbody =>
    node_follows hS (fun _ _ => hS.after) ht hbody

theorem function (hg : g.Follows S g') : Alike S S.Inputs g.function g'.function := by
  refine fun _ => seq hS (require_follows hS .functionWord (by decide)) fun _ _ _ _ ht =>
    seq hS (functionName_follows hS ht) fun _ _ _ _ hname =>
    seq hS (require_follows hS .parenOpen (by decide)) fun _ _ _ h1 htp =>
    seq hS (separatedUntil_follows hS (by decide) (name_follows hS)) fun _ _ _ h2 hparams =>
    seq hS (node_follows hS (fun _ _ => hS.after) htp hparams) fun _ _ _ h3 hp =>
    seq hS (hg.block hS _) fun _ _ _ h4 hb => ?_
  have hname := hS.ids_mono hname (hS.le_trans h1 (hS.le_trans h2 (hS.le_trans h3 h4)))
  exact node_follows hS (fun _ _ => hS.after) ht (.cons hname (.cons (hS.ids_mono hp h4) (.cons hb .nil)))

theorem parenthesized (hg : g.Follows S g') : Alike S S.Inputs g.parenthesized g'.parenthesized :=
  fun _ => seq hS (require_follows hS .parenOpen (by decide)) fun _ _ _ _ _ =>
    seq hS (hg.assignment _) fun _ _ _ _ hn =>
      seq hS (require_follows hS .parenClose (by decide)) fun _ _ _ hle _ => gives hS (hS.ids_mono hn hle)

theorem member (hg : g.Follows S g') : Alike S S.Inputs g.member g'.member := by
  refine fun _ => seqConsume hS (fun t t' ht _ => seq hS (keyText_follows hS ht) ?_)
    fun t t' ht hk => seq hS (keyText_follows hS ht) fun _ _ _ _ htext => absurd htext.2 hk
  rintro _ text _ _ ⟨rfl, -⟩
  exact seq hS (require_follows hS .colon (by decide)) fun _ _ _ _ _ => seq hS (hg.assignment _) fun _ _ _ _ hn =>
    node_follows hS (fun _ _ => hS.after) ht (.cons hn .nil)

theorem object (hg : g.Follows S g') : Alike S S.Inputs g.object g'.object :=
  fun _ => seq hS (require_follows hS .braceOpen (by decide)) fun _ _ _ _ ht =>
    seq hS (separatedUntil_follows hS (by decide) (hg.member hS)) fun _ _ _ _ hmembers =>
    node_follows hS (fun _ _ => hS.after) ht hmembers

theorem array (hg : g.Follows S g') : Alike S S.Inputs g.array g'.array :=
  fun _ => seq hS (require_follows hS .bracketOpen (by decide)) fun _ _ _ _ ht =>
    seq hS (separatedUntil_follows hS (by decide) hg.assignment) fun _ _ _ _ helements =>
    node_follows hS (fun _ _ => hS.after) ht helements

theorem primary (hg : g.Follows S g') : Alike S S.Inputs g.primary g'.primary := by
  refine fun w => seqPeek hS fun t t' ht => ?_
  rw [hS.kind ht]
  refine pre (J := S.Inputs) ?_ fun _ _ => Comparison.At.inputs
  split
  · exact hg.function hS w
  · exact hg.parenthesized hS w
  · exact hg.object hS w
  · exact hg.array hS w
  · exact atom_follows hS w

theorem suffix (hg : g.Follows S g') {t t' : Token} (ht : S.Tokens t t') {n n' : NodeId} (hn : S.Ids w n n') :
    ScriptReader.Follows S S.Inputs w (g.suffix t n) (g'.suffix t' n')
      (S.Gives (fun w => Option.Rel (S.Ids w)) S.Inputs) := by
  have made {w : S.World} {kind : Kind} {children children' : List NodeId} (hc : S.Lists w children children') :
      ScriptReader.Follows S S.Inputs w (do return some (← node kind t children))
        (do return some (← node kind t' children')) (S.Gives (fun w => Option.Rel (S.Ids w)) S.Inputs) :=
    seq hS (node_follows hS (fun _ _ => hS.after) ht hc) fun _ _ _ _ hn => gives hS (.some hn)
  refine seqPeek hS fun p p' hp => ?_
  rw [hS.kind hp]
  split
  · next hk =>
    refine seq hS (consume_at hS hp (by rw [hk]; decide)) fun _ _ _ h1 _ =>
      seqConsume hS (fun q q' hq _ => ?_) fun q q' hq hk => ?_
    · rw [isPropertyName_eq hS hq, hS.text hq]
      refine branch Iff.rfl (fun _ => made (.cons (hS.ids_mono hn h1) .nil)) fun _ =>
        seq hS (R := S.Same) (J := S.Inputs) (refuse_follows hS hq _) fun _ _ _ h2 _ => made ?_
      exact .cons (hS.ids_mono hn (hS.le_trans h1 h2)) .nil
    · rw [isPropertyName_eq hS hq]
      refine branch Iff.rfl (fun h => absurd (isPropertyName_inner h) hk) fun _ =>
        seq hS (R := fun _ _ _ => False) (J := S.Inputs) (refuse_follows hS hq _) fun _ _ _ _ h => h.elim
  · next hk =>
    refine seq hS (consume_at hS hp (by rw [hk]; decide)) fun _ _ _ h1 _ => seq hS (hg.assignment _) fun _ _ _ h2 hi =>
      seq hS (require_follows hS .bracketClose (by decide)) fun _ _ _ h3 _ => made ?_
    exact .cons (hS.ids_mono hn (hS.le_trans h1 (hS.le_trans h2 h3))) (.cons (hS.ids_mono hi h3) .nil)
  · next hk =>
    refine seq hS (consume_at hS hp (by rw [hk]; decide)) fun _ _ _ h1 _ =>
      seq hS (separatedUntil_follows hS (by decide) hg.assignment) fun _ _ _ h2 hargs => made ?_
    exact .cons (hS.ids_mono hn (hS.le_trans h1 h2)) hargs
  · exact done hS fun _ _ hs => ⟨.none, hs.inputs⟩

theorem chain (hg : g.Follows S g') : Alike S S.Inputs g.chain g'.chain := by
  refine fun _ => seqPeek hS fun t t' ht => pre (J := S.Inputs) ?_ fun _ _ => Comparison.At.inputs
  exact seq hS (hg.primary hS _) fun _ _ _ _ hn => seq hS (turns_follows hS) fun _ _ _ hle hturns =>
    extend hS (fun _ _ _ hn => hg.suffix hS ht hn) hturns _ _ _ (hS.ids_mono hn hle)

theorem unaryRule (hg : g.Follows S g') : Alike S S.Inputs g.unaryRule g'.unaryRule := by
  refine fun _ => seqPeek hS fun t t' ht => ?_
  rw [hS.kind ht]
  split
  · exact pre (hg.chain hS _) fun _ _ => Comparison.At.inputs
  · next op hop =>
    have hk : t.kind.Inner := by constructor <;> intro hk <;> simp [hk, TokenKind.unaryOp?] at hop
    exact seq hS (consume_at hS ht hk) fun _ _ _ _ _ => seq hS (hg.unary _) fun _ _ _ _ hn =>
      node_follows hS (fun _ _ => hS.after) ht (.cons hn .nil)

theorem operation (hg : g.Follows S g') (least : Nat) {t t' : Token} (ht : S.Tokens t t') {n n' : NodeId}
    (hn : S.Ids w n n') :
    ScriptReader.Follows S S.Inputs w (g.operation least t n) (g'.operation least t' n')
      (S.Gives (fun w => Option.Rel (S.Ids w)) S.Inputs) := by
  refine seqPeek hS fun p p' hp => ?_
  rw [hS.kind hp]
  split
  · exact done hS fun _ _ hs => ⟨.none, hs.inputs⟩
  · next op precedence hop =>
    refine branch Iff.rfl (fun _ => done hS fun _ _ hs => ⟨.none, hs.inputs⟩) fun _ => ?_
    have hk : p.kind.Inner := by constructor <;> intro hk <;> simp [hk, TokenKind.binaryOp?] at hop
    exact seq hS (consume_at hS hp hk) fun _ _ _ h1 _ => seq hS (hg.binary _ _) fun _ _ _ h2 hr =>
      seq hS (node_follows hS (fun _ _ => hS.after) ht (.cons (hS.ids_mono hn (hS.le_trans h1 h2)) (.cons hr .nil)))
        fun _ _ _ _ hn => gives hS (.some hn)

theorem binaryRule (hg : g.Follows S g') (least : Nat) :
    Alike S S.Inputs (g.binaryRule least) (g'.binaryRule least) := by
  refine fun _ => seqPeek hS fun t t' ht => pre (J := S.Inputs) ?_ fun _ _ => Comparison.At.inputs
  exact seq hS (hg.unaryRule hS _) fun _ _ _ _ hn => seq hS (turns_follows hS) fun _ _ _ hle hturns =>
    extend hS (fun _ _ _ hn => hg.operation hS least ht hn) hturns _ _ _ (hS.ids_mono hn hle)

theorem assignmentRule (hg : g.Follows S g') : Alike S S.Inputs g.assignmentRule g'.assignmentRule := by
  refine fun _ => seqPeek hS fun t t' ht => pre (J := S.Inputs) ?_ fun _ _ => Comparison.At.inputs
  refine seq hS (hg.binaryRule hS 1 _) fun _ _ _ _ hn =>
    seq hS (accept_follows hS .equals (by decide)) fun _ _ _ h1 hsign => ?_
  cases hsign with
  | none => exact gives hS (hS.ids_mono hn h1)
  | some hsign =>
    refine seq hS (checkTarget_follows hS hsign (hS.ids_mono hn h1)) fun _ _ _ h2 _ => seq hS (hg.assignment _)
      fun _ _ _ h3 hr => node_follows hS (fun _ _ => hS.after) ht (.cons ?_ (.cons hr .nil))
    exact hS.ids_mono hn (hS.le_trans h1 (hS.le_trans h2 h3))

theorem variableRule (hg : g.Follows S g') : Alike S S.Inputs g.variableRule g'.variableRule := by
  refine fun _ => seq hS (require_follows hS .identifier (by decide)) fun _ _ _ _ ht =>
    seq hS (accept_follows hS .equals (by decide)) fun _ _ _ _ hsign => ?_
  rw [hS.text ht]
  refine branch (by rw [isSome_eq hsign]) (fun _ => ?_) fun _ => node_follows hS (fun _ _ => hS.after) ht .nil
  exact seq hS (hg.assignmentRule hS _) fun _ _ _ _ hn => node_follows hS (fun _ _ => hS.after) ht (.cons hn .nil)

theorem declaration (hg : g.Follows S g') (word : VarWord) {t t' : Token} (ht : S.Tokens t t')
    (hk : t.kind.Inner) :
    ScriptReader.Follows S (S.At t t') w (g.declaration word) (g'.declaration word) (S.Gives S.Ids S.After) := by
  refine seq hS (consume_at hS ht hk) fun _ _ _ _ ht => seq hS (turns_follows hS) fun _ _ _ _ hturns =>
    seq hS (collect (K := S.Inputs) hS (fun _ => ?_) hturns _) fun _ _ _ _ hnames =>
    seq hS (accept_semicolon hS) fun _ _ _ hle _ => node_follows hS (fun _ _ h => h) ht (hS.lists_mono hnames hle)
  refine seq hS (hg.variableRule hS _) fun _ _ _ _ hn =>
    seq hS (accept_follows hS .comma (by decide)) fun _ _ _ hle hcomma => ?_
  cases hcomma with
  | none => exact done hS fun _ _ hs => .last (hS.ids_mono hn hle) hs
  | some => exact done hS fun _ _ hs => .more (hS.ids_mono hn hle) hs

theorem ifRule (hg : g.Follows S g') : Alike S S.After g.ifRule g'.ifRule := by
  refine fun _ => seq hS (require_follows hS .ifWord (by decide)) fun _ _ _ _ ht =>
    seq hS (require_follows hS .parenOpen (by decide)) fun _ _ _ _ _ =>
    seq hS (hg.assignmentRule hS _) fun _ _ _ _ htest =>
    seq hS (require_follows hS .parenClose (by decide)) fun _ _ _ h1 _ =>
    seq hS (hg.statement _) fun _ _ _ h2 hholds => seqElse hS (fun _ _ _ h3 => ?_) fun _ h3 => ?_
  · refine seq hS (hg.statement _) fun _ _ _ h4 hfails => node_follows hS (fun _ _ h => h) ht ?_
    have h34 := hS.le_trans h3 h4
    exact .cons (hS.ids_mono htest (hS.le_trans h1 (hS.le_trans h2 h34)))
      (.cons (hS.ids_mono hholds h34) (.cons hfails .nil))
  · refine node_follows hS (fun _ _ h => h) ht ?_
    exact .cons (hS.ids_mono htest (hS.le_trans h1 (hS.le_trans h2 h3))) (.cons (hS.ids_mono hholds h3) .nil)

theorem returnRule (hg : g.Follows S g') {t t' : Token} (ht : S.Tokens t t') (hk : t.kind.Inner) :
    ScriptReader.Follows S (S.At t t') w g.returnRule g'.returnRule (S.Gives S.Ids S.After) := by
  refine seq hS (consume_at hS ht hk) fun _ _ _ _ ht => seqPeek hS fun _ _ htn =>
    pre (J := S.Inputs) (branch (by rw [endsReturn, hS.kind htn]; rfl) ?_ ?_) fun _ _ => Comparison.At.inputs
  · exact fun _ => seq hS (accept_semicolon hS) fun _ _ _ _ _ => node_follows hS (fun _ _ h => h) ht .nil
  · exact fun _ => seq hS (hg.assignmentRule hS _) fun _ _ _ _ hn => seq hS (accept_semicolon hS) fun _ _ _ hle _ =>
      node_follows hS (fun _ _ h => h) ht (.cons (hS.ids_mono hn hle) .nil)

theorem undocumented (hg : g.Follows S g') :
    ScriptReader.Follows S S.Inputs w g.undocumented g'.undocumented
      (S.Gives (fun w r r' => S.Ids w r.1 r'.1 ∧ S.Ids w r.2 r'.2) S.After) := by
  have itself {I J : Input → Input → Prop} {x y : ScriptReader NodeId}
      (hx : ScriptReader.Follows S I w x y (S.Gives S.Ids J)) (hJ : ∀ s s', J s s' → S.After s s') :
      ScriptReader.Follows S I w (Grammar.itself <$> x) (Grammar.itself <$> y)
        (S.Gives (fun w r r' => S.Ids w r.1 r'.1 ∧ S.Ids w r.2 r'.2) S.After) :=
    map hS hx fun _ _ _ _ _ hn hs => ⟨⟨hn, hn⟩, hJ _ _ hs⟩
  refine seqPeek hS fun t t' ht => ?_
  rw [hS.kind ht]
  split
  · exact pre (itself (hg.block hS _) fun _ _ => hS.after) fun _ _ => Comparison.At.inputs
  · next hk => exact itself (hg.declaration hS _ ht (by rw [hk]; decide)) fun _ _ h => h
  · next hk => exact itself (hg.declaration hS _ ht (by rw [hk]; decide)) fun _ _ h => h
  · next hk => exact itself (hg.declaration hS _ ht (by rw [hk]; decide)) fun _ _ h => h
  · exact pre (itself (hg.function hS _) fun _ _ => hS.after) fun _ _ => Comparison.At.inputs
  · exact pre (itself (hg.ifRule hS _) fun _ _ h => h) fun _ _ => Comparison.At.inputs
  · next hk => exact itself (hg.returnRule hS ht (by rw [hk]; decide)) fun _ _ h => h
  · next hk =>
    exact seq hS (consume_semicolon_at hS ht hk) fun _ _ _ _ ht => seq hS (leaf_follows hS ht) fun _ _ _ _ hn =>
      gives hS ⟨hn, hn⟩
  · refine pre (J := S.Inputs) ?_ fun _ _ => Comparison.At.inputs
    exact seq hS (hg.assignmentRule hS _) fun _ _ _ _ he => seq hS (accept_semicolon hS) fun _ _ _ h1 _ =>
      seq hS (node_follows hS (fun _ _ h => h) ht (.cons (hS.ids_mono he h1) .nil)) fun _ _ _ h2 hn =>
      gives hS ⟨hn, hS.ids_mono he (hS.le_trans h1 h2)⟩

theorem statementRule (hg : g.Follows S g') : Alike S S.After g.statementRule g'.statementRule := by
  have hrule (g : Grammar) : g.statementRule = peek >>= fun t => g.undocumented >>= fun r =>
      liftM (Build.describe t r.2) >>= fun _ => pure r.1 := by
    refine congrArg (peek >>= ·) (funext fun t => congrArg (g.undocumented >>= ·) (funext fun r => ?_))
    unfold Build.describe
    cases t.doc with
    | none => rfl
    | some text =>
      funext s
      let doc := Build.document r.2 ⟨text.span.start, text.bytes⟩
      show ((doc >>= fun d => pure (d, s)) >>= fun p => pure (r.1, p.2) : Build (NodeId × Input))
        = (((doc >>= fun _ => pure ()) >>= fun u => pure (u, s)) >>= fun p => pure (r.1, p.2))
      simp only [bind_assoc, pure_bind]
  rw [hrule, hrule]
  refine fun _ => seqPeek hS fun t t' ht => pre (J := S.Inputs) ?_ fun _ _ => Comparison.At.inputs
  refine seq hS (hg.undocumented hS) fun _ r r' _ hr => ?_
  exact seq hS (lift hS (hS.document ht hr.2)) fun _ _ _ hle _ => gives hS (hS.ids_mono hr.1 hle)

end Follows

omit hS in
theorem within_ended (depth : Nat) (s : Input) (hs : s.Ended) : ((within depth).statement s).Fails := by
  intro arena
  obtain ⟨hnil, t, hlast, hk⟩ := hs
  cases depth with
  | zero => exact ⟨_, _, rfl⟩
  | succ depth =>
    have hof : s.Of s.stream := by
      refine ⟨⟨by simp [hnil], fun t' ht' => ?_⟩, List.suffix_rfl, rfl⟩
      cases hlast.symm.trans ht'
      exact hk
    have hzero : (gauge s.stream).left s = 0 := congrArg List.length hnil
    have h := (within_ahead s.stream (depth + 1)).statement s ⟨hof, by rw [hzero]; exact Nat.succ_pos _⟩ arena
    split at h
    · -- a statement takes a token
      exact absurd h.left (by rw [hzero]; exact Nat.not_succ_le_zero _)
    · exact ⟨_, _, by assumption⟩

/-- As many levels for the second run, or more. -/
theorem within_follows : ∀ {depth depth' : Nat}, S.Enough depth depth' → (within depth).Follows S (within depth')
  | depth, depth', h => by
    rcases h.cases with ⟨rfl, rfl | hlost⟩ | ⟨k, k', rfl, rfl, hk⟩
    · exact ⟨fun _ => fails hS.exhausted, fun _ => fails hS.exhausted, fun _ _ => fails hS.exhausted,
        fun _ => fails hS.exhausted, within_ended 0⟩
    · exact ⟨fun _ => lostLeft hlost _, fun _ => lostLeft hlost _, fun _ _ => lostLeft hlost _,
        fun _ => lostLeft hlost _, within_ended 0⟩
    · have hg := within_follows hk
      exact ⟨hg.statementRule hS, hg.assignmentRule hS, hg.binaryRule hS, hg.unaryRule hS, within_ended (k + 1)⟩

end Grammar

theorem expression_follows : Alike S S.Inputs expression expression :=
  fun _ => seq hS (turns_follows hS) fun _ _ _ _ hdepth => (Grammar.within_follows hS hdepth).assignment _

section
variable (hafter : ∀ s s', S.After s s' → S.Inputs s s')
include hafter

/-- Where no semicolon ends what the runs have in common, they make related statements. -/
theorem statements_follows {depth depth' n n' : Nat} (hdepth : S.Enough depth depth') (hn : S.Enough n n') :
    ScriptReader.Follows S S.Inputs w (statements (Grammar.within depth) n) (statements (Grammar.within depth') n')
      (S.Gives S.Lists S.Inputs) := by
  refine collect hS (fun _ => seqPeek hS fun t t' ht => ?_) hn w
  refine branch (by rw [hS.kind ht]) (fun _ => done hS fun _ _ hs => .stop hs.inputs) fun _ =>
    pre (J := S.Inputs) ?_ fun _ _ => Comparison.At.inputs
  exact seq hS ((Grammar.within_follows hS hdepth).statement _) fun _ _ _ _ hn => done hS fun _ _ hs =>
    .more hn (hafter _ _ hs)

theorem script_follows (hspan : ∀ t t', S.Tokens t t' → S.Spans ⟨0, t.span.stop⟩ ⟨0, t'.span.stop⟩)
    (module : Option ModuleId) : Alike S S.Inputs (script module) (script module) := by
  intro w
  rw [script_eq]
  refine seq hS (turns_follows hS) fun _ _ _ _ hdepth => seq hS (turns_follows hS) fun _ _ _ _ hn =>
    seq hS (statements_follows hS hafter hdepth hn) fun _ _ _ _ hbody => seqPeek hS fun t t' ht => ?_
  exact pre (J := S.Inputs) (lift hS (hS.node _ (hspan _ _ ht) hbody)) fun _ _ => Comparison.At.inputs

end

end ScriptReader

end ScriptIndex
