import ScriptIndex.Proofs.ScriptAppend
import ScriptIndex.Proofs.Refusals
import ScriptIndex.Proofs.TypeNesting

/-! # Spans of scripts

A node begins where a token begins that was next when its rule began, and ends where the last token ended that
its rule read. -/

namespace ScriptIndex

/-- The tokens stand one after the other between two positions. -/
def Token.Row : Nat → List Token → Nat → Prop
  | start, [], stop => start ≤ stop
  | start, t :: tokens, stop => start ≤ t.span.start ∧ t.span.start ≤ t.span.stop ∧ Row t.span.stop tokens stop

theorem Token.Row.le {stop : Nat} : ∀ {start : Nat} {tokens : List Token}, Row start tokens stop → start ≤ stop
  | _, [], h => h
  | _, _ :: _, ⟨hstart, hle, hrest⟩ => Nat.le_trans hstart (Nat.le_trans hle hrest.le)

/-- What is left of a source comes after what was read of it. -/
structure Input.Ordered (e : Extent) (s : Input) : Prop where
  of : s.Of e.stream
  row : Token.Row s.lastEnd s.stream.tokens e.stop

theorem Input.Ordered.le {e : Extent} {s : Input} (hs : s.Ordered e) : s.lastEnd ≤ e.stop := hs.row.le

/-- Where the next token stands, and what is left after it. -/
theorem Input.Ordered.head {e : Extent} {s : Input} {t : Token} (hs : s.Ordered e) (ht : s.head = .ok t) :
    s.lastEnd ≤ t.span.start ∧ t.span.start ≤ t.span.stop ∧ (s.read t).Ordered e := by
  obtain ⟨⟨hlegible, htokens, hlast⟩, hrow⟩ := hs
  have hof : (s.read t).Of e.stream := ⟨hlegible, (List.tail_suffix _).trans htokens, hlast⟩
  unfold Input.head at ht
  split at ht
  · next t' rest heq =>
    cases ht
    rw [heq] at hrow
    refine ⟨hrow.1, hrow.2.1, hof, ?_⟩
    show Token.Row t.span.stop s.stream.tokens.tail e.stop
    rw [heq]
    exact hrow.2.2
  · next heq =>
    have hspan := e.ends t (hlast ▸ ht)
    rw [heq] at hrow
    rw [hspan]
    refine ⟨hrow, Nat.le_refl _, hof, ?_⟩
    show Token.Row t.span.stop s.stream.tokens.tail e.stop
    rw [heq, hspan]
    exact Nat.le_refl _

namespace ScriptReader
open Reader Reader.Nests

def track (e : Extent) : Track Input := ⟨Input.Ordered e, Input.lastEnd⟩

/-- Scripts have nodes of all kinds. -/
abbrev anyKind (_ : Kind) : Prop := True

/-- The token was read, and the nodes stand in a row from its start on. -/
structure Begun (e : Extent) (start : Token) (ns : List NodeId) (s : Input) (arena : Arena) : Prop where
  proper : s.Ordered e
  mem : start ∈ e.stream.tokens
  passed : start.span.stop ≤ s.lastEnd
  row : arena.Row start.span.start ns s.lastEnd

/-- The node that was made last stands alone from the start of the token on, and has no documentation. -/
structure Standing (e : Extent) (start : Token) (n : NodeId) (s : Input) (arena : Arena) : Prop
    extends Begun e start [n] s arena where
  size : arena.size = n + 1
  doc : arena.doc? n = none

/-- It begins with the token. -/
structure Opened (e : Extent) (start : Token) (n : NodeId) (s : Input) (arena : Arena) : Prop
    extends Standing e start n s arena where
  starts : ∃ span, arena.span? n = some span ∧ span.start = start.span.start

/-- The rule makes a node that stands where the next token starts or later. -/
def Stands (e : Extent) (x : ScriptReader NodeId) : Prop :=
  ∀ s arena, s.Ordered e → Nests e anyKind x s arena fun n s' after => ∃ t, s.head = .ok t ∧ Standing e t n s' after

/-- The rule makes a node that begins with the next token. -/
def Opens (e : Extent) (x : ScriptReader NodeId) : Prop :=
  ∀ s arena, s.Ordered e → Nests e anyKind x s arena fun n s' after => ∃ t, s.head = .ok t ∧ Opened e t n s' after

/-- The rule makes a node in what it reads. -/
abbrev Lays (e : Extent) (x : ScriptReader NodeId) : Prop :=
  Reader.Lays e anyKind (track e) x fun n => [n]

variable {e : Extent} {s s' : Input} {arena mid after : Arena} {t start : Token} {n : NodeId} {ns ms : List NodeId}
  {α β : Type} {Q : α → Input → Arena → Prop} {R : β → Input → Arena → Prop}

namespace Begun

theorem of_head (hs : s.Ordered e) (ht : s.head = .ok t) (hk : t.kind ≠ .eof) : Begun e t [] (s.read t) arena := by
  obtain ⟨-, hle, hread⟩ := hs.head ht
  exact ⟨hread, hs.of.mem_of_head ht hk, Nat.le_refl _, hle⟩

theorem lays (h : Begun e start ns s mid) (hg : mid.Grows anyKind after) (h' : (track e).Lays s ms s' after) :
    Begun e start (ns ++ ms) s' after :=
  ⟨h'.proper, h.mem, Nat.le_trans h.passed h'.row.le, (h.row.grows hg).append h'.row⟩

theorem on (h : Begun e start ns s arena) (h' : (track e).Lays s [] s' arena) : Begun e start ns s' arena :=
  ⟨h'.proper, h.mem, Nat.le_trans h.passed h'.row, h.row.mono_right h'.row⟩

theorem laySeq {x : ScriptReader α} {nodes : α → List NodeId} {f : α → ScriptReader β} (h : Begun e start ns s arena)
    (hx : Reader.Lays e anyKind (track e) x nodes)
    (hf : ∀ a s' mid, Begun e start (ns ++ nodes a) s' mid → Nests e anyKind (f a) s' mid R) :
    Nests e anyKind (x >>= f) s arena R :=
  seq (hx s arena h.proper) fun a s' mid _ hg ha => hf a s' mid (h.lays hg ha)

end Begun

theorem Standing.on (h : Standing e start n s arena) (h' : (track e).Lays s [] s' arena) :
    Standing e start n s' arena :=
  ⟨h.toBegun.on h', h.size, h.doc⟩

theorem Opens.stands {x : ScriptReader NodeId} (hx : Opens e x) : Stands e x :=
  fun s arena hs => (hx s arena hs).weaken fun _ _ _ _ _ ⟨t, ht, h⟩ => ⟨t, ht, h.toStanding⟩

theorem Stands.lays {x : ScriptReader NodeId} (hx : Stands e x) : Lays e x :=
  fun s arena hs => (hx s arena hs).weaken fun _ _ _ _ _ ⟨_, ht, h⟩ => ⟨h.proper, h.row.mono_left (hs.head ht).1⟩

/-! ### Tokens -/

theorem read_lays (hs : s.Ordered e) (ht : s.head = .ok t) (arena : Arena) : (track e).Lays s [] (s.read t) arena := by
  obtain ⟨hstart, hle, hread⟩ := hs.head ht
  exact ⟨hread, Nat.le_trans hstart hle⟩

theorem peek_nests {f : Token → ScriptReader β} (hf : ∀ t, s.head = .ok t → Nests e anyKind (f t) s arena R) :
    Nests e anyKind (peek >>= f) s arena R := by
  unfold Nests
  cases hs : s.head with
  | error failure =>
    rw [peek_bind_of_error hs]
    exact Build.Nests.fails (α := β × Input) _
  | ok t =>
    rw [peek_bind_of_head hs]
    exact hf t hs

theorem consume_nests {f : Token → ScriptReader β}
    (hf : ∀ t, s.head = .ok t → Nests e anyKind (f t) (s.read t) arena R) :
    Nests e anyKind (consume >>= f) s arena R := by
  rw [consume, bind_assoc]
  exact peek_nests hf

theorem accept_nests {kind : TokenKind} {f : Option Token → ScriptReader β}
    (hsome : ∀ t, s.head = .ok t → t.kind = kind → Nests e anyKind (f (some t)) (s.read t) arena R)
    (hnone : Nests e anyKind (f none) s arena R) : Nests e anyKind (accept kind >>= f) s arena R := by
  rw [accept, bind_assoc]
  refine peek_nests fun t ht => ?_
  split
  · next hk =>
    rw [bind_assoc]
    refine consume_nests fun t' ht' => ?_
    cases ht.symm.trans ht'
    exact hsome t ht hk
  · exact hnone

theorem refuse_nests (t : Token) (cause : Cause) : Nests e anyKind (refuse t cause : ScriptReader α) s arena Q :=
  rejects _ _ _

theorem require_nests {kind : TokenKind} {f : Token → ScriptReader β}
    (hf : ∀ t, s.head = .ok t → t.kind = kind → Nests e anyKind (f t) (s.read t) arena R) :
    Nests e anyKind (require kind >>= f) s arena R := by
  rw [require, bind_assoc]
  refine peek_nests fun t ht => ?_
  split
  · next hk =>
    refine consume_nests fun t' ht' => ?_
    cases ht.symm.trans ht'
    exact hf t ht hk
  · exact stops (refuse_nests t _)

/-- A token that begins a rule. -/
theorem begin_nests {kind : TokenKind} {f : Token → ScriptReader β} (hk : kind ≠ .eof) (hs : s.Ordered e)
    (hf : ∀ t, s.head = .ok t → t.kind = kind → Begun e t [] (s.read t) arena →
      Nests e anyKind (f t) (s.read t) arena R) : Nests e anyKind (require kind >>= f) s arena R :=
  require_nests fun t ht htk => hf t ht htk (.of_head hs ht (htk ▸ hk))

theorem turns_nests {f : Nat → ScriptReader β} (hf : ∀ n, Nests e anyKind (f n) s arena R) :
    Nests e anyKind (turns >>= f) s arena R :=
  hf _

/-- More is read after a token. -/
theorem require_begun {kind : TokenKind} {f : Token → ScriptReader β} (h : Begun e start ns s arena)
    (hf : ∀ t s', Begun e start ns s' arena → Nests e anyKind (f t) s' arena R) :
    Nests e anyKind (require kind >>= f) s arena R :=
  require_nests fun t ht _ => hf t (s.read t) (h.on (read_lays h.proper ht arena))

theorem accept_begun {kind : TokenKind} {f : Option Token → ScriptReader β} (h : Begun e start ns s arena)
    (hf : ∀ r s', Begun e start ns s' arena → Nests e anyKind (f r) s' arena R) :
    Nests e anyKind (accept kind >>= f) s arena R :=
  accept_nests (fun t ht _ => hf _ (s.read t) (h.on (read_lays h.proper ht arena))) (hf none s h)

theorem consume_begun {f : Token → ScriptReader β} (h : Begun e start ns s arena)
    (hf : ∀ t s', Begun e start ns s' arena → Nests e anyKind (f t) s' arena R) :
    Nests e anyKind (consume >>= f) s arena R :=
  consume_nests fun t ht => hf t (s.read t) (h.on (read_lays h.proper ht arena))

/-! ### Nodes -/

/-- A node over what was read since a token. -/
theorem node_nests {kind : Kind} {Q : NodeId → Input → Arena → Prop} (h : Begun e start ns s arena)
    (hdoc : kind = .expressionStatement → ∀ c ∈ ns, arena.doc? c = none)
    (hQ : ∀ after, Made arena kind ⟨start.span.start, s.lastEnd⟩ ns after → Q arena.size s after) :
    Nests e anyKind (node kind start ns) s arena Q := by
  have hmax : max s.lastEnd start.span.stop = s.lastEnd := Nat.max_eq_left h.passed
  refine lift (Build.Nests.node ?_ ?_ trivial hdoc ?_)
  · rw [hmax]
    exact h.row
  · rw [hmax]
    exact h.proper.le
  · rw [hmax]
    exact hQ

theorem Begun.opened {kind : Kind} {span : Span} (h : Begun e start ns s arena) (hmade : Made arena kind span ms after)
    (hstart : span.start = start.span.start) (hle : span.start ≤ span.stop) (hstop : span.stop ≤ s.lastEnd) :
    Opened e start arena.size s after := by
  have hspan : after.span? arena.size = some span := (hmade.span? _).trans (if_pos rfl)
  have hdoc : after.doc? arena.size = none := by
    rw [hmade.doc?, Arena.doc?, Arena.node?_eq_none (Nat.le_refl _)]
    rfl
  exact ⟨⟨⟨h.proper, h.mem, h.passed, span, hspan, Nat.le_of_eq hstart.symm, hle, hstop⟩, hmade.size, hdoc⟩,
    span, hspan, hstart⟩

theorem node_opens {kind : Kind} (h : Begun e start ns s arena) (hk : kind ≠ .expressionStatement) :
    Nests e anyKind (node kind start ns) s arena fun n => Opened e start n :=
  node_nests h (fun heq => absurd heq hk) fun _ hmade => h.opened hmade rfl h.row.le (Nat.le_refl _)

theorem leaf_opens {kind : Kind} (hs : s.Ordered e) (ht : s.head = .ok t) (hk : t.kind ≠ .eof) :
    Nests e anyKind (leaf kind t) (s.read t) arena fun n => Opened e t n := by
  have h : Begun e t [] (s.read t) arena := .of_head hs ht hk
  refine lift (Build.Nests.node h.row h.proper.le trivial (fun _ => List.forall_mem_nil _) fun after hmade => ?_)
  exact h.opened hmade rfl h.row (Nat.le_refl _)

/-! ### Loops -/

theorem itemsUntil_lays {close : TokenKind} {item : ScriptReader NodeId} (h : Lays e item) :
    Reader.Lays e anyKind (track e) (itemsUntil close item) id := by
  refine fun s arena hs => turns_nests fun n => collect (fun s arena hs => ?_) n s arena hs
  refine accept_nests (fun t ht _ => done (read_lays hs ht arena)) ?_
  exact seq (h s arena hs) fun _ _ _ _ _ h => done h

theorem separatedUntil_lays {close : TokenKind} {item : ScriptReader NodeId} (h : Lays e item) :
    Reader.Lays e anyKind (track e) (separatedUntil close item) id := by
  refine fun s arena hs => turns_nests fun n => collect (fun s arena hs => ?_) n s arena hs
  refine accept_nests (fun t ht _ => done (read_lays hs ht arena)) ?_
  refine seq (h s arena hs) fun n s₁ mid _ _ h₁ => ?_
  have hon {t : Token} (ht : s₁.head = .ok t) : (track e).Lays s [n] (s₁.read t) mid :=
    h₁.trans (.refl anyKind mid) (read_lays h₁.proper ht mid)
  exact accept_nests (fun t ht _ => done (hon ht)) (require_nests fun t ht _ => done (hon ht))

/-! ### Rules -/

/-- The rest of a rule makes a node that begins with the token that came first. -/
theorem opens_of_head {x : ScriptReader NodeId} {s₀ : Input} (ht : s₀.head = .ok t)
    (h : Nests e anyKind x s arena fun n => Opened e t n) :
    Nests e anyKind x s arena fun n s' after => ∃ t, s₀.head = .ok t ∧ Opened e t n s' after :=
  h.weaken fun _ _ _ _ _ h => ⟨t, ht, h⟩

theorem atom_opens : Opens e atom := by
  refine fun s arena hs => peek_nests fun t ht => ?_
  have rest (kind : Kind) (hk : t.kind ≠ .eof) :
      Nests e anyKind (do
        let t ← consume
        leaf kind t) s arena fun n s' after => ∃ t, s.head = .ok t ∧ Opened e t n s' after := by
    refine consume_nests fun t' ht' => ?_
    cases ht.symm.trans ht'
    exact opens_of_head ht (leaf_opens hs ht hk)
  unfold atomKind
  split
  case h_2 hk =>
    split
    · exact rest _ (by simp [hk])
    · exact stops (rejects _ _ _)
  case h_8 => exact stops (refuse_nests t _)
  all_goals next hk => exact rest _ (by simp [hk])

theorem name_opens : Opens e name :=
  fun _ _ hs => begin_nests (by decide) hs fun _ ht htk _ => opens_of_head ht (leaf_opens hs ht (htk ▸ by decide))

theorem keyText_nests {f : String → ScriptReader β} (hf : ∀ text, t.kind ≠ .eof → Nests e anyKind (f text) s arena R) :
    Nests e anyKind (keyText t >>= f) s arena R := by
  unfold keyText
  split
  · next hk => exact hf _ (by simp [hk])
  · split
    · next hk =>
      refine hf _ ?_
      rcases Bool.or_eq_true_iff.1 hk with hname | hnumber
      · exact isPropertyName_ne hname
      · simp [of_decide_eq_true hnumber]
    · exact stops (refuse_nests t _)

theorem checkTarget_nests {sign : Token} {target : NodeId} {f : Unit → ScriptReader β}
    (hf : Nests e anyKind (f ()) s arena R) : Nests e anyKind (checkTarget sign target >>= f) s arena R := by
  have getSeq {g : Arena → ScriptReader β} (h : Nests e anyKind (g arena) s arena R) :
      Nests e anyKind ((getThe Arena : ScriptReader Arena) >>= g) s arena R := h
  rw [checkTarget, bind_assoc]
  refine getSeq ?_
  split
  · split
    · exact hf
    · exact stops (rejects _ _ _)
  · exact stops (fails _)

namespace Grammar

/-- Statements are made in what is read; expressions stand where a token starts or later. -/
structure Nests (e : Extent) (g : Grammar) : Prop where
  statement : Lays e g.statement
  assignment : Stands e g.assignment
  binary (least : Nat) : Stands e (g.binary least)
  unary : Stands e g.unary

variable {g : Grammar}

/-- The parameters of a function. -/
def parameters : ScriptReader NodeId := do
  let start ← require .parenOpen
  let params ← separatedUntil .parenClose ScriptReader.name
  node .params start params

theorem function_eq (g : Grammar) : g.function = require .functionWord >>= fun start =>
    functionName start >>= fun name => parameters >>= fun params => g.block >>= fun body =>
    node .function start [name, params, body] := by
  simp only [function, parameters, bind_assoc]

theorem parameters_opens : Opens e parameters :=
  fun _ _ hs => begin_nests (by decide) hs fun _ ht _ h =>
    h.laySeq (separatedUntil_lays name_opens.stands.lays) fun _ _ _ h =>
      opens_of_head ht (node_opens h Kind.noConfusion)

theorem functionName_nests (h : Begun e start [] s arena) (hle : start.span.start ≤ start.span.stop) :
    Reader.Nests e anyKind (functionName start) s arena fun n => Begun e start [n] := by
  refine accept_nests (fun t ht htk => ?_) ?_
  · refine (leaf_opens h.proper ht (htk ▸ by decide)).weaken fun n s' after _ hg hn => ?_
    exact h.lays hg ⟨hn.proper, hn.row.mono_left (h.proper.head ht).1⟩
  · refine lift (Build.Nests.node (Nat.le_refl _) (Nat.le_trans h.passed h.proper.le) trivial
      (fun _ => List.forall_mem_nil _) fun after hmade => ?_)
    have hspan := (hmade.span? _).trans (if_pos rfl)
    exact ⟨h.proper, h.mem, h.passed, _, hspan, hle, Nat.le_refl _, h.passed⟩

namespace Nests

theorem block (hg : g.Nests e) : Opens e g.block :=
  fun _ _ hs => begin_nests (by decide) hs fun _ ht _ h =>
    h.laySeq (itemsUntil_lays hg.statement) fun _ _ _ h => opens_of_head ht (node_opens h Kind.noConfusion)

theorem function (hg : g.Nests e) : Opens e g.function := by
  refine fun s arena hs => function_eq g ▸ begin_nests (by decide) hs fun t ht _ h => opens_of_head ht ?_
  refine seq (functionName_nests h (hs.head ht).2.1) fun name s₁ _ _ _ h₁ => ?_
  refine h₁.laySeq parameters_opens.stands.lays fun params s₂ _ h₂ => ?_
  exact h₂.laySeq hg.block.stands.lays fun body s₃ _ h₃ => node_opens h₃ Kind.noConfusion

theorem parenthesized (hg : g.Nests e) : Stands e g.parenthesized := by
  refine fun s arena hs => begin_nests (by decide) hs fun t ht _ h => ?_
  refine seq (hg.assignment _ _ h.proper) fun n s₁ mid _ hgrows ⟨u, hu, h₁⟩ => require_nests fun v hv _ => done ?_
  have hon := h₁.on (read_lays h₁.proper hv mid)
  have hrow : (track e).Lays (s.read t) [n] (s₁.read v) mid := ⟨hon.proper, hon.row.mono_left (h.proper.head hu).1⟩
  exact ⟨t, ht, h.lays hgrows hrow, hon.size, hon.doc⟩

theorem member (hg : g.Nests e) : Opens e g.member := by
  refine fun s arena hs => consume_nests fun t ht => keyText_nests fun text hk => opens_of_head ht ?_
  refine require_begun (.of_head hs ht hk) fun _ s₁ h₁ => ?_
  exact h₁.laySeq hg.assignment.lays fun _ _ _ h₂ => node_opens h₂ Kind.noConfusion

theorem object (hg : g.Nests e) : Opens e g.object :=
  fun _ _ hs => begin_nests (by decide) hs fun _ ht _ h =>
    h.laySeq (separatedUntil_lays hg.member.stands.lays) fun _ _ _ h => opens_of_head ht (node_opens h Kind.noConfusion)

theorem array (hg : g.Nests e) : Opens e g.array :=
  fun _ _ hs => begin_nests (by decide) hs fun _ ht _ h =>
    h.laySeq (separatedUntil_lays hg.assignment.lays) fun _ _ _ h => opens_of_head ht (node_opens h Kind.noConfusion)

theorem primary (hg : g.Nests e) : Stands e g.primary := by
  refine fun s arena hs => peek_nests fun t _ => ?_
  split
  · exact hg.function.stands s arena hs
  · exact hg.parenthesized s arena hs
  · exact hg.object.stands s arena hs
  · exact hg.array.stands s arena hs
  · exact atom_opens.stands s arena hs

/-- The node grows with what follows it. -/
theorem suffix (hg : g.Nests e) (receiver : NodeId) (h : Standing e start receiver s arena) :
    Reader.Nests e anyKind (g.suffix start receiver) s arena fun r => Standing e start (r.getD receiver) := by
  have above {kind : Kind} {ns : List NodeId} {s' : Input} {mid : Arena} (h : Begun e start ns s' mid)
      (hk : kind ≠ .expressionStatement) : Reader.Nests e anyKind (some <$> node kind start ns) s' mid
        fun r => Standing e start (r.getD receiver) :=
    .map ((node_opens h hk).weaken fun _ _ _ _ _ h => h.toStanding)
  refine peek_nests fun t _ => ?_
  split
  · refine consume_begun h.toBegun fun _ s₁ h₁ => consume_begun h₁ fun u s₂ h₂ => branch (fun _ => ?_) fun _ => ?_
    · exact above h₂ Kind.noConfusion
    · exact stops (refuse_nests _ _)
  · refine consume_begun h.toBegun fun _ s₁ h₁ => h₁.laySeq hg.assignment.lays fun index s₂ _ h₂ => ?_
    exact require_begun h₂ fun _ s₃ h₃ => above h₃ Kind.noConfusion
  · refine consume_begun h.toBegun fun _ s₁ h₁ => ?_
    exact h₁.laySeq (separatedUntil_lays hg.assignment.lays) fun arguments s₂ _ h₂ => above h₂ Kind.noConfusion
  · exact done h

theorem chain (hg : g.Nests e) : Stands e g.chain := by
  refine fun s arena hs => peek_nests fun start hstart => ?_
  refine seq (hg.primary s arena hs) fun receiver s₁ _ _ _ ⟨t, ht, h₁⟩ => turns_nests fun n => ?_
  cases hstart.symm.trans ht
  have hstep (a : NodeId) (s : Input) (arena : Arena) (h : Standing e start a s arena) := hg.suffix a h
  exact (extend hstep n receiver s₁ _ h₁).weaken fun _ _ _ _ _ h => ⟨start, ht, h⟩

theorem unaryRule (hg : g.Nests e) : Stands e g.unaryRule := by
  refine fun s arena hs => peek_nests fun start hstart => ?_
  split
  · exact hg.chain s arena hs
  · next op hop =>
    have hk : start.kind ≠ .eof := by
      intro hk
      rw [hk] at hop
      cases hop
    refine consume_nests fun t ht => ?_
    cases hstart.symm.trans ht
    refine (Begun.of_head hs ht hk).laySeq hg.unary.lays fun operand s₁ _ h₁ => ?_
    exact (opens_of_head ht (node_opens h₁ Kind.noConfusion)).weaken fun _ _ _ _ _ ⟨t, ht, h⟩ => ⟨t, ht, h.toStanding⟩

theorem operation (hg : g.Nests e) (least : Nat) (left : NodeId) (h : Standing e start left s arena) :
    Reader.Nests e anyKind (g.operation least start left) s arena fun r => Standing e start (r.getD left) := by
  refine peek_nests fun t _ => ?_
  split
  · exact done h
  · refine branch (fun _ => done h) fun _ => consume_begun h.toBegun fun _ s₁ h₁ => ?_
    refine h₁.laySeq (hg.binary _).lays fun right s₂ _ h₂ => ?_
    exact seq (node_opens h₂ Kind.noConfusion) fun _ _ _ _ _ h₃ => done h₃.toStanding

theorem binaryRule (hg : g.Nests e) (least : Nat) : Stands e (g.binaryRule least) := by
  refine fun s arena hs => peek_nests fun start hstart => ?_
  refine seq (hg.unaryRule s arena hs) fun left s₁ _ _ _ ⟨t, ht, h₁⟩ => turns_nests fun n => ?_
  cases hstart.symm.trans ht
  have hstep (a : NodeId) (s : Input) (arena : Arena) (h : Standing e start a s arena) := hg.operation least a h
  exact (extend hstep n left s₁ _ h₁).weaken fun _ _ _ _ _ h => ⟨start, ht, h⟩

theorem assignmentRule (hg : g.Nests e) : Stands e g.assignmentRule := by
  refine fun s arena hs => peek_nests fun start hstart => ?_
  refine seq (hg.binaryRule 1 s arena hs) fun left s₁ mid _ _ ⟨t, ht, h₁⟩ => ?_
  cases hstart.symm.trans ht
  refine accept_nests (fun sign hsign _ => checkTarget_nests ?_) (done ⟨start, ht, h₁⟩)
  refine (h₁.toBegun.on (read_lays h₁.proper hsign mid)).laySeq hg.assignment.lays fun right s₂ _ h₂ => ?_
  exact (node_opens h₂ Kind.noConfusion).weaken fun _ _ _ _ _ h => ⟨start, ht, h.toStanding⟩

theorem variableRule (hg : g.Nests e) : Opens e g.variableRule := by
  refine fun s arena hs => begin_nests (by decide) hs fun t ht _ h => opens_of_head ht ?_
  refine accept_begun h fun sign s₁ h₁ => branch (fun _ => ?_) fun _ => node_opens h₁ Kind.noConfusion
  exact h₁.laySeq hg.assignmentRule.lays fun value s₂ _ h₂ => node_opens h₂ Kind.noConfusion

theorem declaration (hg : g.Nests e) (word : VarWord) (hs : s.Ordered e) (ht : s.head = .ok t) (hk : t.kind ≠ .eof) :
    Reader.Nests e anyKind (g.declaration word) s arena fun n => Opened e t n := by
  have hturn : Reader.Lays e anyKind (track e) g.variableTurn Turn.nodes := by
    refine fun s arena hs => seq (hg.variableRule.stands.lays s arena hs) fun name s₁ mid _ _ h₁ => ?_
    refine accept_nests (fun comma hcomma _ => done ?_) (done h₁)
    exact h₁.trans (.refl anyKind mid) (read_lays h₁.proper hcomma mid)
  rw [declaration_eq]
  refine consume_nests fun t' ht' => ?_
  cases ht.symm.trans ht'
  refine turns_nests fun n => (Begun.of_head hs ht hk).laySeq (collect hturn n) fun names s₁ _ h₁ => ?_
  exact accept_begun h₁ fun _ s₂ h₂ => node_opens h₂ Kind.noConfusion

theorem ifRule (hg : g.Nests e) : Opens e g.ifRule := by
  refine fun s arena hs => begin_nests (by decide) hs fun t ht _ h => opens_of_head ht ?_
  refine require_begun h fun _ s₁ h₁ => h₁.laySeq hg.assignmentRule.lays fun test s₂ _ h₂ => ?_
  refine require_begun h₂ fun _ s₃ h₃ => h₃.laySeq hg.statement fun holds s₄ _ h₄ => ?_
  refine accept_begun h₄ fun word s₅ h₅ => branch (fun _ => ?_) fun _ => node_opens h₅ Kind.noConfusion
  exact h₅.laySeq hg.statement fun otherwise s₆ _ h₆ => node_opens h₆ Kind.noConfusion

theorem returnRule (hg : g.Nests e) (hs : s.Ordered e) (ht : s.head = .ok t) (hk : t.kind ≠ .eof) :
    Reader.Nests e anyKind g.returnRule s arena fun n => Opened e t n := by
  refine consume_nests fun t' ht' => ?_
  cases ht.symm.trans ht'
  have h : Begun e t [] (s.read t) arena := .of_head hs ht hk
  refine peek_nests fun _ _ => branch (fun _ => ?_) fun _ => ?_
  · exact accept_begun h fun _ s₁ h₁ => node_opens h₁ Kind.noConfusion
  · refine h.laySeq hg.assignmentRule.lays fun value s₁ _ h₁ => ?_
    exact accept_begun h₁ fun _ s₂ h₂ => node_opens h₂ Kind.noConfusion

/-- A statement stands in what is read, and documentation before it describes it or its expression. -/
theorem undocumented (hg : g.Nests e) (hs : s.Ordered e) (ht : s.head = .ok t) :
    Reader.Nests e anyKind g.undocumented s arena fun r s' after =>
      Begun e t [r.1] s' after ∧ after.Aims r.2 r.1 t.span.start := by
  have itself {x : ScriptReader NodeId} (hx : Reader.Nests e anyKind x s arena fun n => Opened e t n) :
      Reader.Nests e anyKind (Grammar.itself <$> x) s arena fun r s' after =>
        Begun e t [r.1] s' after ∧ after.Aims r.2 r.1 t.span.start :=
    .map (hx.weaken fun n s' after hsound _ h => ⟨h.toBegun, .itself hsound h.size h.starts⟩)
  have opens {x : ScriptReader NodeId} (hx : Opens e x) : Reader.Nests e anyKind x s arena fun n => Opened e t n := by
    refine (hx s arena hs).weaken fun n s' after _ _ ⟨u, hu, h⟩ => ?_
    cases ht.symm.trans hu
    exact h
  refine peek_nests fun start hstart => ?_
  cases ht.symm.trans hstart
  split
  · exact itself (opens hg.block)
  · next hk => exact itself (hg.declaration _ hs ht (by simp [hk]))
  · next hk => exact itself (hg.declaration _ hs ht (by simp [hk]))
  · next hk => exact itself (hg.declaration _ hs ht (by simp [hk]))
  · exact itself (opens hg.function)
  · exact itself (opens hg.ifRule)
  · next hk => exact itself (hg.returnRule hs ht (by simp [hk]))
  · next hk =>
    refine consume_nests fun u hu => ?_
    cases ht.symm.trans hu
    refine seq (leaf_opens hs ht (by simp [hk])) fun n s' after hsound _ h => done ?_
    exact ⟨h.toBegun, .itself hsound h.size h.starts⟩
  · refine seq (hg.assignmentRule s arena hs) fun n s₁ mid _ _ ⟨u, hu, h₁⟩ => ?_
    cases ht.symm.trans hu
    have rest {s₂ : Input} (h₂ : Standing e t n s₂ mid) : Reader.Nests e anyKind (do
        let statement ← node .expressionStatement t [n]
        return (statement, n)) s₂ mid fun r s' after =>
          Begun e t [r.1] s' after ∧ after.Aims r.2 r.1 t.span.start := by
      have hundocumented : ∀ c ∈ [n], mid.doc? c = none := List.forall_mem_singleton.2 h₂.doc
      refine seq (P := fun statement s' after => Opened e t statement s' after ∧ statement = n + 1 ∧
        Made mid .expressionStatement ⟨t.span.start, s₂.lastEnd⟩ [n] after) ?_ ?_
      · refine node_nests h₂.toBegun (fun _ => hundocumented) fun after hmade => ?_
        exact ⟨h₂.toBegun.opened hmade rfl h₂.row.le (Nat.le_refl _), h₂.size, hmade⟩
      · rintro _ s₃ after hsound - ⟨h₃, rfl, hmade⟩
        have hnew : n + 1 = mid.size := h₂.size.symm
        have hk : after.kind? (n + 1) = some .expressionStatement := (hmade.kind? _).trans (if_pos hnew)
        have hchildren : after.children (n + 1) = [n] := (hmade.children_eq _).trans (if_pos hnew)
        exact done ⟨h₃.toBegun, .expression hsound h₃.size hk (hchildren ▸ List.mem_singleton_self n) h₃.starts⟩
    exact accept_nests (fun semicolon hsemicolon _ => rest (h₁.on (read_lays h₁.proper hsemicolon mid))) (rest h₁)

theorem statementRule (hg : g.Nests e) : Lays e g.statementRule := by
  refine fun s arena hs => peek_nests fun t ht => ?_
  refine seq (hg.undocumented hs ht) fun r s₁ mid _ _ ⟨h₁, haims⟩ => ?_
  have hlays {after : Arena} (hg : mid.Grows anyKind after) : (track e).Lays s [r.1] s₁ after :=
    ⟨h₁.proper, (h₁.row.grows hg).mono_left (hs.head ht).1⟩
  dsimp only
  split
  · next text hdoc =>
    refine seq (P := fun _ s' _ => s' = s₁) (lift ?_) ?_
    · exact (Build.document_nests h₁.mem hdoc haims).weaken (fun _ _ => trivial) fun _ _ _ _ _ => rfl
    · rintro _ _ after - hg rfl
      exact done (hlays hg)
  · exact done (hlays (.refl _ _))

theorem next (hg : g.Nests e) : g.next.Nests e :=
  ⟨hg.statementRule, hg.assignmentRule, hg.binaryRule, hg.unaryRule⟩

end Nests

theorem within_nests (e : Extent) : ∀ depth : Nat, (within depth).Nests e
  | 0 => ⟨fun _ _ _ => fails _, fun _ _ _ => fails _, fun _ _ _ _ => fails _, fun _ _ _ => fails _⟩
  | depth + 1 => (within_nests e depth).next

end Grammar

theorem script_nests (module : Option ModuleId) (hs : s.Ordered e) :
    Nests e anyKind (script module) s arena fun _ _ _ => True := by
  have hturn (depth : Nat) : Reader.Lays e anyKind (track e) (statementTurn (Grammar.within depth)) Turn.nodes := by
    refine fun s arena hs => peek_nests fun t _ => branch (fun _ => done (.refl hs arena)) fun _ => ?_
    exact seq ((Grammar.within_nests e depth).statement s arena hs) fun _ _ _ _ _ h => done h
  rw [script_eq]
  refine turns_nests fun depth => turns_nests fun n => ?_
  refine laySeq (m := track e) (.refl hs arena) (collect (hturn depth) n) fun body s₁ mid h => peek_nests fun t ht => ?_
  obtain ⟨hstart, hle, hread⟩ := h.proper.head ht
  have hrow : mid.Row 0 body t.span.stop := (h.row.mono_left (Nat.zero_le _)).mono_right (Nat.le_trans hstart hle)
  exact lift (Build.Nests.node hrow hread.le trivial (fun heq => nomatch heq) fun _ _ => trivial)

end ScriptReader

end ScriptIndex
