import Mathlib.Data.List.Infix
import ScriptIndex.Proofs.ScriptRuns
import ScriptIndex.Proofs.TypeProgress

/-! # Reading a script finishes

Every rule reads a token before it calls a rule of a deeper level, and no loop goes on without reading one, so
as many levels and turns as there are tokens suffice. `Stream.Explains` lists what a script may be refused
for, by the tokens of its source. -/

namespace ScriptIndex

/-- What a token other than the end of the text may be refused for. -/
inductive Token.Refused (t : Token) : Cause → Prop
  | expected (construct : Construct) : Refused t (.expected construct)
  | missingToken {kind : TokenKind} (h : t.kind ≠ kind) : Refused t (.missingToken kind)
  | invalidAssignmentTarget (h : t.kind = .equals) : Refused t .invalidAssignmentTarget
  | malformedNumber (h : t.kind = .numberLiteral) (hnone : Numeral.ofBytes? t.bytes = none) :
      Refused t .malformedNumber

/-- What a script may be refused for. -/
inductive Stream.Explains (stream : Stream) : SyntaxError → Prop
  /-- The tokens end in an error. -/
  | lexical {e : SyntaxError} (h : stream.last = .error e) : Explains stream e
  | ended {t : Token} (h : stream.last = .ok t) : Explains stream ⟨.unexpectedEnd, t.span, some .eof⟩
  | refused {t : Token} {cause : Cause} (h : t ∈ stream.tokens) (hcause : t.Refused cause) :
      Explains stream ⟨cause, t.span, some t.kind⟩
  /-- The comment before a token holds a malformed type. -/
  | malformedType {t : Token} {text : DocText} {e : SyntaxError} (h : t ∈ stream.tokens)
      (hdoc : t.doc = some text)
      (he : e.MalformedType text.span.start (text.span.start + text.bytes.length)) : Explains stream e

/-- What is left of a stream at some point. -/
structure Input.Of (stream : Stream) (s : Input) : Prop where
  legible : stream.Legible
  tokens : s.stream.tokens <:+ stream.tokens
  last : s.stream.last = stream.last

namespace Input
variable {stream : Stream} {s : Input} {t : Token}

theorem Of.rest_legible (hs : s.Of stream) : s.stream.Legible :=
  ⟨fun t ht => hs.legible.spelled t (hs.tokens.subset ht), fun t ht => hs.legible.last t (hs.last ▸ ht)⟩

theorem Of.mem_of_head (hs : s.Of stream) (h : s.head = .ok t) (hk : t.kind ≠ .eof) : t ∈ stream.tokens := by
  unfold head at h
  split at h
  · next t' rest heq =>
    cases h
    exact hs.tokens.subset (heq ▸ List.mem_cons_self)
  · exact absurd (hs.legible.last t (hs.last ▸ h)) hk

theorem Of.last_of_head (hs : s.Of stream) (h : s.head = .ok t) (hk : t.kind = .eof) : stream.last = .ok t := by
  unfold head at h
  split at h
  · next t' rest heq =>
    cases h
    exact absurd hk (hs.legible.tokens t (hs.tokens.subset (heq ▸ List.mem_cons_self)))
  · exact hs.last ▸ h

theorem Of.last_of_error {e : SyntaxError} (hs : s.Of stream) (h : s.head = .error e) : stream.last = .error e := by
  unfold head at h
  split at h
  · cases h
  · exact hs.last ▸ h

end Input

namespace ScriptReader
open Reader Reader.Finishes

/-- The tokens left of a stream. -/
def gauge (stream : Stream) : Gauge Input := ⟨fun s => s.stream.tokens.length, Input.Of stream⟩

/-- On less than `n` tokens of the stream the rule finishes, and it reads one of them. -/
abbrev Consumes {α : Type} (stream : Stream) (n : Nat) (x : ScriptReader α) : Prop :=
  Reader.Advances (gauge stream) stream.Explains n x

/-- A turn of a loop that goes on only after reading a token. -/
abbrev TurnConsumes (stream : Stream) (n : Nat) (turn : ScriptReader (Turn NodeId)) : Prop :=
  Reader.TurnAdvances (gauge stream) stream.Explains n turn

/-- A step of a loop that goes on only after reading a token. -/
abbrev StepConsumes (stream : Stream) (n : Nat) (step : NodeId → ScriptReader (Option NodeId)) : Prop :=
  Reader.StepAdvances (gauge stream) stream.Explains n step

variable {stream : Stream} {s : Input} {n : Nat} {α β : Type} {Q : α → Input → Prop} {R : β → Input → Prop}

theorem peekSeq {f : Token → ScriptReader β} (hs : s.Of stream)
    (hf : ∀ t, s.head = .ok t → Finishes stream.Explains (f t) s R) :
    Finishes stream.Explains (peek >>= f) s R := by
  have hpeek : Finishes stream.Explains peek s fun t s' => s.head = .ok t ∧ s' = s := by
    obtain ⟨⟨tokens, last⟩, lastEnd⟩ := s
    cases tokens with
    | cons t rest => exact readSeq (done ⟨rfl, rfl⟩)
    | nil =>
      cases last with
      | ok t => exact readSeq (done ⟨rfl, rfl⟩)
      | error e => exact readSeq (fails (.rejected (.lexical (hs.last_of_error rfl))))
  refine seq hpeek ?_
  rintro t s' ⟨ht, rfl⟩
  exact hf t ht

theorem turnsSeq {f : Nat → ScriptReader β} (h : Finishes stream.Explains (f ((gauge stream).left s + 1)) s R) :
    Finishes stream.Explains (turns >>= f) s R :=
  seq (P := fun n s' => n = (gauge stream).left s + 1 ∧ s' = s) (readSeq (done ⟨rfl, rfl⟩)) fun n s' ⟨hn, hs⟩ => by
    rw [hn, hs]
    exact h

/-- Where a token is read, one comes next. -/
theorem head_ne_eof {t : Token} {s' : Input} (hs : s.Of stream) (ht : s.head = .ok t)
    (h : (gauge stream).Reads 1 s s') : t.kind ≠ .eof := by
  unfold Input.head at ht
  split at ht
  · next t' rest heq =>
    cases ht
    exact hs.legible.tokens t (hs.tokens.subset (heq ▸ List.mem_cons_self))
  · next heq =>
    have hlength := h.left
    simp only [gauge, heq, List.length_nil] at hlength
    omega

/-- The end of the text is not passed. -/
theorem consume_finishes (hs : s.Of stream) :
    Finishes stream.Explains consume s fun t s' =>
      s.head = .ok t ∧ (gauge stream).Reads (if t.kind = .eof then 0 else 1) s s' := by
  refine peekSeq hs fun t ht => ?_
  refine seq (P := fun _ s' => s' = ⟨{ s.stream with tokens := s.stream.tokens.tail }, t.span.stop⟩)
    (updates rfl) ?_
  rintro _ s' rfl
  refine done ⟨ht, ⟨hs.legible, (List.tail_suffix _).trans hs.tokens, hs.last⟩, ?_⟩
  have hpos : t.kind ≠ .eof → 0 < s.stream.tokens.length := by
    intro hk
    refine List.length_pos_iff.2 fun hnil => hk ?_
    rw [Input.head, hnil] at ht
    exact hs.legible.last t (hs.last ▸ ht)
  simp only [gauge, List.length_tail]
  split
  · omega
  · next hk =>
    have := hpos hk
    omega

theorem consumeSeq {t : Token} {f : Token → ScriptReader β} (hs : s.Of stream) (ht : s.head = .ok t)
    (hk : t.kind ≠ .eof) (hf : ∀ s', (gauge stream).Reads 1 s s' → Finishes stream.Explains (f t) s' R) :
    Finishes stream.Explains (consume >>= f) s R := by
  refine seq (consume_finishes hs) ?_
  rintro t' s' ⟨ht', hread⟩
  cases ht.symm.trans ht'
  rw [if_neg hk] at hread
  exact hf s' hread

theorem accept_finishes {kind : TokenKind} (hk : kind ≠ .eof) (hs : s.Of stream) :
    Finishes stream.Explains (accept kind) s fun r s' =>
      (gauge stream).Reads (r.elim 0 fun _ => 1) s s' ∧ ∀ t ∈ r, t.kind = kind ∧ t ∈ stream.tokens := by
  refine peekSeq hs fun t ht => branch (fun hkind => ?_) fun _ => done ⟨.refl hs, by simp⟩
  have hne : t.kind ≠ .eof := hkind ▸ hk
  refine consumeSeq hs ht hne fun s' hread => done ⟨hread, ?_⟩
  rintro t' ⟨⟩
  exact ⟨hkind, hs.mem_of_head ht hne⟩

theorem refuse_finishes {t : Token} {cause : Cause} {s₀ : Input} (hs : s₀.Of stream) (ht : s₀.head = .ok t)
    (hcause : t.Refused cause) : Finishes stream.Explains (refuse t cause : ScriptReader α) s Q := by
  refine rejects ?_
  split
  · next hk =>
    rw [hk]
    exact .ended (hs.last_of_head ht hk)
  · next hk => exact .refused (hs.mem_of_head ht hk) hcause

theorem require_finishes {kind : TokenKind} (hk : kind ≠ .eof) (hs : s.Of stream) :
    Finishes stream.Explains (require kind) s fun _ => (gauge stream).Reads 1 s := by
  refine peekSeq hs fun t ht => branch (fun hkind => ?_) fun hkind => refuse_finishes hs ht (.missingToken hkind)
  refine (consume_finishes hs).weaken ?_
  rintro t' s' ⟨ht', hread⟩
  cases ht.symm.trans ht'
  rwa [if_neg (hkind ▸ hk)] at hread

theorem node_finishes {kind : Kind} {t : Token} {children : List NodeId} {Q : Input → Prop} (h : Q s) :
    Finishes stream.Explains (node kind t children) s fun _ => Q :=
  seq (P := fun _ s' => s' = s) (readSeq (done rfl)) fun _ _ hs => lift Build.Finishes.node fun _ _ => hs ▸ h

theorem leaf_finishes {kind : Kind} {t : Token} {Q : Input → Prop} (h : Q s) :
    Finishes stream.Explains (leaf kind t) s fun _ => Q :=
  lift Build.Finishes.node fun _ _ => h

/-! ### Turns of loops -/

/-- A turn of `itemsUntil`. -/
def itemTurn (close : TokenKind) (item : ScriptReader NodeId) : ScriptReader (Turn NodeId) := do
  if (← accept close).isSome then return .stop
  else return .more (← item)

theorem itemsUntil_eq (close : TokenKind) (item : ScriptReader NodeId) :
    itemsUntil close item = turns >>= Reader.collect (itemTurn close item) := rfl

/-- A turn of `separatedUntil`. -/
def separatedTurn (close : TokenKind) (item : ScriptReader NodeId) : ScriptReader (Turn NodeId) := do
  if (← accept close).isSome then return .stop
  else
    let node ← item
    if (← accept .comma).isSome then return .more node
    else
      let _ ← require close
      return .last node

theorem separatedUntil_eq (close : TokenKind) (item : ScriptReader NodeId) :
    separatedUntil close item = turns >>= Reader.collect (separatedTurn close item) := rfl

theorem itemTurn_consumes {close : TokenKind} {item : ScriptReader NodeId} (hk : close ≠ .eof)
    (h : item.Consumes stream n) : TurnConsumes stream n (itemTurn close item) := by
  intro s hs
  refine seq (accept_finishes hk hs.proper) fun closed s₁ h₁ => ?_
  have h₁ : (gauge stream).Reads 0 s s₁ := h₁.1.mono (Nat.zero_le _)
  refine branch (fun _ => done h₁) fun _ => ?_
  exact seq (h s₁ (h₁.keeps hs)) fun _ _ h₂ => done (h₂.since h₁)

theorem separatedTurn_consumes {close : TokenKind} {item : ScriptReader NodeId} (hk : close ≠ .eof)
    (h : item.Consumes stream n) : TurnConsumes stream n (separatedTurn close item) := by
  intro s hs
  refine seq (accept_finishes hk hs.proper) fun closed s₁ h₁ => ?_
  have h₁ : (gauge stream).Reads 0 s s₁ := h₁.1.mono (Nat.zero_le _)
  refine branch (fun _ => done h₁) fun _ => seq (h s₁ (h₁.keeps hs)) fun _ s₂ h₂ => ?_
  have h₂ := h₂.since h₁
  refine seq (accept_finishes (by decide) h₂.proper) fun comma s₃ h₃ =>
    branch (fun _ => done (h₂.on h₃.1)) fun _ => ?_
  have h₃ := h₂.on h₃.1
  exact seq (require_finishes hk h₃.proper) fun _ _ h₄ => done ((h₃.on h₄).mono (Nat.zero_le 1))

theorem itemsUntil_finishes {close : TokenKind} {item : ScriptReader NodeId}
    (hk : close ≠ .eof) (h : item.Consumes stream n) (hs : (gauge stream).Within n s) :
    Finishes stream.Explains (itemsUntil close item) s fun _ => (gauge stream).Reads 0 s := by
  rw [itemsUntil_eq]
  exact turnsSeq ((itemTurn_consumes hk h).collect hs)

theorem separatedUntil_finishes {close : TokenKind} {item : ScriptReader NodeId}
    (hk : close ≠ .eof) (h : item.Consumes stream n) (hs : (gauge stream).Within n s) :
    Finishes stream.Explains (separatedUntil close item) s fun _ => (gauge stream).Reads 0 s := by
  rw [separatedUntil_eq]
  exact turnsSeq ((separatedTurn_consumes hk h).collect hs)

/-! ### Rules -/

theorem atomKind_finishes {t : Token} (hs : s.Of stream) (ht : s.head = .ok t) :
    Finishes stream.Explains (atomKind t) s fun _ s' => s' = s ∧ t.kind ≠ .eof := by
  unfold atomKind
  split
  case h_2 hk =>
    have hne : t.kind ≠ .eof := by simp [hk]
    split
    · exact done ⟨rfl, hne⟩
    · next hnone => exact rejects (.refused (hs.mem_of_head ht hne) (.malformedNumber hk hnone))
  case h_8 => exact refuse_finishes hs ht (.expected .expression)
  all_goals next hk => exact done ⟨rfl, by simp [hk]⟩

theorem atom_advances : atom.Consumes stream n := by
  intro s hs
  refine peekSeq hs.proper fun t ht => seq (atomKind_finishes hs.proper ht) ?_
  rintro kind s' ⟨rfl, hk⟩
  exact consumeSeq hs.proper ht hk fun s₁ h₁ => leaf_finishes h₁

theorem name_advances : name.Consumes stream n := by
  intro s hs
  exact seq (require_finishes (by decide) hs.proper) fun _ _ h₁ => leaf_finishes h₁

theorem isPropertyName_ne {t : Token} (h : isPropertyName t = true) : t.kind ≠ .eof := by
  intro hk
  rw [isPropertyName, hk] at h
  exact absurd h (by decide)

theorem keyText_finishes {t : Token} {s₀ : Input} (hs : s₀.Of stream) (ht : s₀.head = .ok t) :
    Finishes stream.Explains (keyText t) s fun _ s' => s' = s ∧ t.kind ≠ .eof := by
  refine branch (fun hk => done ⟨rfl, by simp [hk]⟩) fun _ => branch (fun hk => done ⟨rfl, ?_⟩) fun _ => ?_
  · rcases Bool.or_eq_true_iff.1 hk with hname | hnumber
    · exact isPropertyName_ne hname
    · simp [of_decide_eq_true hnumber]
  · exact refuse_finishes hs ht (.expected .objectKey)

theorem checkTarget_finishes {sign : Token} {target : NodeId} {Q : Input → Prop} (hk : sign.kind = .equals)
    (hmem : sign ∈ stream.tokens) (h : Q s) :
    Finishes stream.Explains (checkTarget sign target) s fun _ => Q := by
  intro arena
  have hget : ∀ f : Arena → ScriptReader Unit, ((getThe Arena : ScriptReader Arena) >>= f) s arena = f arena s arena :=
    fun _ => rfl
  unfold checkTarget
  rw [hget]
  cases arena.kind? target with
  | none =>
    have unknown : Finishes stream.Explains (throw (.unknownNode target) : ScriptReader Unit) s fun _ => Q :=
      fails (.unknownNode target)
    exact unknown arena
  | some kind =>
    have checked : Finishes stream.Explains
        (if kind.isTarget then pure ()
          else liftM (Build.reject .invalidAssignmentTarget sign.span (some sign.kind)) : ScriptReader Unit)
        s fun _ => Q :=
      branch (fun _ => done h) fun _ => rejects (.refused hmem (.invalidAssignmentTarget hk))
    exact checked arena

namespace Grammar

/-- Every rule finishes on less than `n` tokens. -/
structure Ahead (stream : Stream) (n : Nat) (g : Grammar) : Prop where
  statement : g.statement.Consumes stream n
  assignment : g.assignment.Consumes stream n
  binary (least : Nat) : (g.binary least).Consumes stream n
  unary : g.unary.Consumes stream n

variable {g : Grammar}

/-- A turn of the loop over the names of a declaration. -/
def variableTurn (g : Grammar) : ScriptReader (Turn NodeId) := do
  let name ← g.variableRule
  return if (← accept .comma).isSome then .more name else .last name

theorem declaration_eq (g : Grammar) (word : VarWord) : g.declaration word =
    consume >>= fun start => turns >>= fun n => Reader.collect g.variableTurn n >>= fun names =>
      accept .semicolon >>= fun _ => node (.declaration word) start names := rfl

theorem functionName_finishes {t : Token} (hs : s.Of stream) :
    Finishes stream.Explains (functionName t) s fun _ => (gauge stream).Reads 0 s := by
  refine seq (accept_finishes (by decide) hs) ?_
  rintro r s₁ ⟨h₁, -⟩
  have hread : (gauge stream).Reads 0 s s₁ := h₁.mono (Nat.zero_le _)
  cases r with
  | some name => exact leaf_finishes hread
  | none => exact lift Build.Finishes.node fun _ _ => hread

namespace Ahead

theorem block (hg : g.Ahead stream n) : g.block.Consumes stream (n + 1) := by
  intro s hs
  refine seq (require_finishes (by decide) hs.proper) fun _ s₁ h₁ => ?_
  exact seq (itemsUntil_finishes (by decide) hg.statement (h₁.deeper hs)) fun _ _ h₂ => node_finishes (h₁.on h₂)

theorem function (hg : g.Ahead stream n) : g.function.Consumes stream (n + 1) := by
  intro s hs
  refine seq (require_finishes (by decide) hs.proper) fun _ s₁ h₁ => ?_
  refine seq (functionName_finishes h₁.proper) fun _ s₂ h₂ => ?_
  have h₂ := h₁.on h₂
  refine seq (require_finishes (by decide) h₂.proper) fun _ s₃ h₃ => ?_
  have h₃ := h₂.on h₃
  refine seq (separatedUntil_finishes (by decide) name_advances (h₃.keeps hs)) fun _ s₄ h₄ => ?_
  refine seq (node_finishes (h₃.on h₄)) fun _ s₅ h₅ => ?_
  exact seq (hg.block s₅ (h₅.keeps hs)) fun _ _ h₆ => node_finishes (h₅.on h₆)

theorem parenthesized (hg : g.Ahead stream n) :
    g.parenthesized.Consumes stream (n + 1) := by
  intro s hs
  refine seq (require_finishes (by decide) hs.proper) fun _ s₁ h₁ => ?_
  refine seq (hg.assignment s₁ (h₁.deeper hs)) fun _ s₂ h₂ => ?_
  exact seq (require_finishes (by decide) h₂.proper) fun _ _ h₃ => done ((h₁.on h₂).on h₃)

theorem member (hg : g.Ahead stream n) : g.member.Consumes stream n := by
  intro s hs
  refine seq (consume_finishes hs.proper) ?_
  rintro t s₁ ⟨ht, h₁⟩
  refine seq (keyText_finishes hs.proper ht) ?_
  rintro text s₁ ⟨rfl, hk⟩
  -- what serves as a key is not the end of the text, so it was passed
  rw [if_neg hk] at h₁
  refine seq (require_finishes (by decide) h₁.proper) fun _ s₂ h₂ => ?_
  have h₂ := h₁.on h₂
  exact seq (hg.assignment s₂ (h₂.keeps hs)) fun _ _ h₃ => node_finishes (h₂.on h₃)

theorem object (hg : g.Ahead stream n) : g.object.Consumes stream (n + 1) := by
  intro s hs
  refine seq (require_finishes (by decide) hs.proper) fun _ s₁ h₁ => ?_
  exact seq (separatedUntil_finishes (by decide) hg.member (h₁.deeper hs)) fun _ _ h₂ => node_finishes (h₁.on h₂)

theorem array (hg : g.Ahead stream n) : g.array.Consumes stream (n + 1) := by
  intro s hs
  refine seq (require_finishes (by decide) hs.proper) fun _ s₁ h₁ => ?_
  exact seq (separatedUntil_finishes (by decide) hg.assignment (h₁.deeper hs)) fun _ _ h₂ => node_finishes (h₁.on h₂)

theorem primary (hg : g.Ahead stream n) : g.primary.Consumes stream (n + 1) := by
  intro s hs
  refine peekSeq hs.proper fun t ht => ?_
  split
  · exact hg.function s hs
  · exact hg.parenthesized s hs
  · exact hg.object s hs
  · exact hg.array s hs
  · exact atom_advances s hs

theorem suffix (hg : g.Ahead stream n) (start : Token) : StepConsumes stream (n + 1) (g.suffix start) := by
  intro receiver s hs
  have made {s' : Input} {kind : Kind} {children : List NodeId} (h : (gauge stream).Reads 1 s s') :
      Finishes stream.Explains (do return some (← node kind start children) : ScriptReader (Option NodeId)) s'
        fun r => (gauge stream).Reads (r.elim 0 fun _ => 1) s :=
    seq (node_finishes h) fun _ _ h => done h
  refine peekSeq hs.proper fun t ht => ?_
  split
  · next hk =>
    refine consumeSeq hs.proper ht (by simp [hk]) fun s₁ h₁ => ?_
    refine seq (consume_finishes h₁.proper) ?_
    rintro t' s₂ ⟨ht', h₂⟩
    refine branch (fun _ => made (h₁.on h₂)) fun _ => ?_
    exact stops (refuse_finishes h₁.proper ht' (.expected .propertyName))
  · next hk =>
    refine consumeSeq hs.proper ht (by simp [hk]) fun s₁ h₁ => ?_
    refine seq (hg.assignment s₁ (h₁.deeper hs)) fun _ s₂ h₂ => ?_
    exact seq (require_finishes (by decide) h₂.proper) fun _ _ h₃ => made ((h₁.on h₂).on h₃)
  · next hk =>
    refine consumeSeq hs.proper ht (by simp [hk]) fun s₁ h₁ => ?_
    exact seq (separatedUntil_finishes (by decide) hg.assignment (h₁.deeper hs)) fun _ _ h₂ => made (h₁.on h₂)
  · exact done (.refl hs.proper)

theorem chain (hg : g.Ahead stream n) : g.chain.Consumes stream (n + 1) := by
  intro s hs
  refine peekSeq hs.proper fun start _ => seq (hg.primary s hs) fun receiver s₁ h₁ => turnsSeq ?_
  exact ((hg.suffix start).extend receiver (h₁.keeps hs)).weaken fun _ _ h₂ => h₁.on h₂

theorem unaryRule (hg : g.Ahead stream n) : g.unaryRule.Consumes stream (n + 1) := by
  intro s hs
  refine peekSeq hs.proper fun start ht => ?_
  split
  · exact hg.chain s hs
  · next op hop =>
    refine consumeSeq hs.proper ht (fun hk => by simp [hk, TokenKind.unaryOp?] at hop) fun s₁ h₁ => ?_
    exact seq (hg.unary s₁ (h₁.deeper hs)) fun _ _ h₂ => node_finishes (h₁.on h₂)

theorem operation (hg : g.Ahead stream n) (least : Nat) (start : Token) :
    StepConsumes stream (n + 1) (g.operation least start) := by
  intro left s hs
  refine peekSeq hs.proper fun t ht => ?_
  split
  · exact done (.refl hs.proper)
  · next op precedence hop =>
    refine branch (fun _ => done (.refl hs.proper)) fun _ => ?_
    refine consumeSeq hs.proper ht (fun hk => by simp [hk, TokenKind.binaryOp?] at hop) fun s₁ h₁ => ?_
    refine seq (hg.binary _ s₁ (h₁.deeper hs)) fun _ s₂ h₂ => ?_
    exact seq (node_finishes (h₁.on h₂)) fun _ _ h => done h

theorem binaryRule (hg : g.Ahead stream n) (least : Nat) :
    (g.binaryRule least).Consumes stream (n + 1) := by
  intro s hs
  refine peekSeq hs.proper fun start _ => seq (hg.unaryRule s hs) fun left s₁ h₁ => turnsSeq ?_
  exact ((hg.operation least start).extend left (h₁.keeps hs)).weaken fun _ _ h₂ => h₁.on h₂

theorem assignmentRule (hg : g.Ahead stream n) :
    g.assignmentRule.Consumes stream (n + 1) := by
  intro s hs
  refine peekSeq hs.proper fun start _ => seq (hg.binaryRule 1 s hs) fun left s₁ h₁ => ?_
  refine seq (accept_finishes (by decide) h₁.proper) ?_
  rintro r s₂ ⟨h₂, hsign⟩
  have hread := h₁.on h₂
  cases r with
  | none => exact done hread
  | some sign =>
    obtain ⟨hk, hmem⟩ := hsign sign rfl
    refine seq (checkTarget_finishes hk hmem hread) fun _ s₃ h₃ => ?_
    exact seq (hg.assignment s₃ (h₃.deeper hs)) fun _ _ h₄ => node_finishes (h₃.on h₄)

theorem variableRule (hg : g.Ahead stream n) : g.variableRule.Consumes stream (n + 1) := by
  intro s hs
  refine seq (require_finishes (by decide) hs.proper) fun _ s₁ h₁ => ?_
  refine seq (accept_finishes (by decide) h₁.proper) fun _ s₂ h₂ => ?_
  have h₂ := h₁.on h₂.1
  refine branch (fun _ => ?_) fun _ => node_finishes h₂
  exact seq (hg.assignmentRule s₂ (h₂.keeps hs)) fun _ _ h₃ => node_finishes (h₂.on h₃)

theorem variableTurn_consumes (hg : g.Ahead stream n) : TurnConsumes stream (n + 1) g.variableTurn := by
  intro s hs
  refine seq (hg.variableRule s hs) fun _ s₁ h₁ => ?_
  refine seq (accept_finishes (by decide) h₁.proper) fun comma s₂ h₂ => ?_
  have hread := h₁.on h₂.1
  cases comma with
  | none => exact done (hread.mono (Nat.zero_le 1))
  | some => exact done hread

theorem declaration (hg : g.Ahead stream n) (word : VarWord) {t : Token} (hs : (gauge stream).Within (n + 1) s)
    (ht : s.head = .ok t) (hk : t.kind ≠ .eof) :
    Finishes stream.Explains (g.declaration word) s fun _ => (gauge stream).Reads 1 s := by
  rw [declaration_eq]
  refine consumeSeq hs.proper ht hk fun s₁ h₁ => turnsSeq ?_
  refine seq (hg.variableTurn_consumes.collect (h₁.keeps hs)) fun _ s₂ h₂ => ?_
  have h₂ := h₁.on h₂
  exact seq (accept_finishes (by decide) h₂.proper) fun _ _ h₃ => node_finishes (h₂.on h₃.1)

theorem ifRule (hg : g.Ahead stream n) : g.ifRule.Consumes stream (n + 1) := by
  intro s hs
  refine seq (require_finishes (by decide) hs.proper) fun _ s₁ h₁ => ?_
  refine seq (require_finishes (by decide) h₁.proper) fun _ s₂ h₂ => ?_
  have h₂ := h₁.on h₂
  refine seq (hg.assignmentRule s₂ (h₂.keeps hs)) fun _ s₃ h₃ => ?_
  have h₃ := h₂.on h₃
  refine seq (require_finishes (by decide) h₃.proper) fun _ s₄ h₄ => ?_
  have h₄ := h₃.on h₄
  refine seq (hg.statement s₄ (h₄.deeper hs)) fun _ s₅ h₅ => ?_
  have h₅ := h₄.on h₅
  refine seq (accept_finishes (by decide) h₅.proper) fun _ s₆ h₆ => ?_
  have h₆ := h₅.on h₆.1
  refine branch (fun _ => ?_) fun _ => node_finishes h₆
  exact seq (hg.statement s₆ (h₆.deeper hs)) fun _ _ h₇ => node_finishes (h₆.on h₇)

theorem returnRule (hg : g.Ahead stream n) {t : Token} (hs : (gauge stream).Within (n + 1) s)
    (ht : s.head = .ok t) (hk : t.kind ≠ .eof) :
    Finishes stream.Explains g.returnRule s fun _ => (gauge stream).Reads 1 s := by
  have rest {s' : Input} {children : List NodeId} (h : (gauge stream).Reads 1 s s') :
      Finishes stream.Explains (do
        let _ ← accept .semicolon
        node .returnStatement t children) s' fun _ => (gauge stream).Reads 1 s :=
    seq (accept_finishes (by decide) h.proper) fun _ _ h' => node_finishes (h.on h'.1)
  refine consumeSeq hs.proper ht hk fun s₁ h₁ => peekSeq h₁.proper fun _ _ => ?_
  refine branch (fun _ => rest h₁) fun _ => ?_
  exact seq (hg.assignmentRule s₁ (h₁.keeps hs)) fun _ _ h₂ => rest (h₁.on h₂)

theorem undocumented (hg : g.Ahead stream n) : g.undocumented.Consumes stream (n + 1) := by
  intro s hs
  have itself {x : ScriptReader NodeId}
      (hx : Finishes stream.Explains x s fun _ => (gauge stream).Reads 1 s) :
      Finishes stream.Explains (Grammar.itself <$> x) s fun _ => (gauge stream).Reads 1 s :=
    Finishes.map (R := fun _ => (gauge stream).Reads 1 s) hx
  refine peekSeq hs.proper fun t ht => ?_
  split
  · exact itself (hg.block s hs)
  · next hk => exact itself (hg.declaration _ hs ht (by simp [hk]))
  · next hk => exact itself (hg.declaration _ hs ht (by simp [hk]))
  · next hk => exact itself (hg.declaration _ hs ht (by simp [hk]))
  · exact itself (hg.function s hs)
  · exact itself (hg.ifRule s hs)
  · next hk => exact itself (hg.returnRule hs ht (by simp [hk]))
  · next hk =>
    refine consumeSeq hs.proper ht (by simp [hk]) fun s₁ h₁ => ?_
    exact seq (leaf_finishes h₁) fun _ _ h => done h
  · refine seq (hg.assignmentRule s hs) fun _ s₁ h₁ => ?_
    refine seq (accept_finishes (by decide) h₁.proper) fun _ s₂ h₂ => ?_
    exact seq (node_finishes (h₁.on h₂.1)) fun _ _ h => done h

theorem statementRule (hg : g.Ahead stream n) :
    g.statementRule.Consumes stream (n + 1) := by
  intro s hs
  refine peekSeq hs.proper fun t ht => seq (hg.undocumented s hs) ?_
  rintro ⟨statement, described⟩ s₁ h₁
  -- a statement was read from the token on, so it is one of the stream's
  have hmem := hs.proper.mem_of_head ht (head_ne_eof hs.proper ht h₁)
  dsimp only
  split
  · next text hdoc =>
    have hread := (Build.document_finishes described ⟨text.span.start, text.bytes⟩).imp
      (fun e he => Stream.Explains.malformedType hmem hdoc he) fun _ => id
    exact seq (lift hread fun _ _ => h₁) fun _ _ h => done h
  · exact done h₁

theorem next (hg : g.Ahead stream n) : g.next.Ahead stream (n + 1) :=
  ⟨hg.statementRule, hg.assignmentRule, hg.binaryRule, hg.unaryRule⟩

end Ahead

theorem within_ahead (stream : Stream) : ∀ depth : Nat, (within depth).Ahead stream depth
  | 0 => by
    constructor <;> intros <;> intro s hs <;> exact absurd hs.lt (Nat.not_lt_zero _)
  | depth + 1 => (within_ahead stream depth).next

end Grammar

/-- A turn of the loop over the statements of a script. -/
def statementTurn (g : Grammar) : ScriptReader (Turn NodeId) := do
  if (← peek).kind = .eof then return .stop
  else return .more (← g.statement)

theorem statements_eq (g : Grammar) : statements g = Reader.collect (statementTurn g) := rfl

theorem Grammar.Ahead.statementTurn_consumes {g : Grammar} (hg : g.Ahead stream n) :
    TurnConsumes stream n (statementTurn g) := by
  intro s hs
  refine peekSeq hs.proper fun t _ => branch (fun _ => done (.refl hs.proper)) fun _ => ?_
  exact seq (hg.statement s hs) fun _ _ h₁ => done h₁

theorem statements_finishes {depth n : Nat} (hdepth : (gauge stream).Within depth s) (hn : (gauge stream).Within n s) :
    Finishes stream.Explains (statements (Grammar.within depth) n) s fun _ => (gauge stream).Reads 0 s := by
  rw [statements_eq]
  exact collect 0 _ _ hn fun s₁ h₁ => (Grammar.within_ahead stream depth).statementTurn_consumes s₁ (h₁.keeps hdepth)

theorem script_finishes {stream : Stream} (h : stream.Legible) (module : Option ModuleId) :
    Finishes stream.Explains (script module) (.ofStream stream) fun _ _ => True := by
  have hs : (gauge stream).Within _ (Input.ofStream stream) := Gauge.within_left ⟨h, List.suffix_rfl, rfl⟩
  rw [script_eq]
  refine turnsSeq (turnsSeq ((statements_finishes hs hs).seq fun body s₁ h₁ => ?_))
  exact peekSeq h₁.proper fun _ _ => lift Build.Finishes.node fun _ _ => trivial

theorem expression_finishes {stream : Stream} (h : stream.Legible) :
    Finishes stream.Explains expression (.ofStream stream) fun _ _ => True := by
  have hs : (gauge stream).Within _ (Input.ofStream stream) := Gauge.within_left ⟨h, List.suffix_rfl, rfl⟩
  exact turnsSeq (((Grammar.within_ahead stream _).assignment _ hs).weaken fun _ _ _ => trivial)

end ScriptReader

namespace Build

/-- Reading a script comes to an end, and its tokens explain what it is refused for. -/
theorem script_finishes (source : List UInt8) (options : Options) :
    Finishes (options.stream source).Explains (script source options) fun _ => True :=
  Finishes.seq (ScriptReader.script_finishes (options.stream_legible source) options.module)
    fun _ _ => Finishes.done trivial

end Build

end ScriptIndex
