import Mathlib.Data.List.Forall2
import ScriptIndex.Proofs.ScriptProgress

/-! # Two runs side by side

A `Comparison` says what it means for two runs of readers of tokens to go alike: how their arenas, nodes, tokens
and inputs are related, and which failures of one run leave the other run free. `Build.Follows` and
`ScriptReader.Follows` say that two actions go alike, and the rules below compose such pairs of actions. What a
comparison has to satisfy for the grammar is `Comparison.Sound`. -/

namespace ScriptIndex

/-- Only the end of the text is left. -/
def Input.Ended (s : Input) : Prop := s.stream.tokens = [] ∧ ∃ t, s.stream.last = .ok t ∧ t.kind = .eof

theorem Input.Ended.head {s : Input} (h : s.Ended) : ∃ t, s.head = .ok t ∧ t.kind = .eof := by
  obtain ⟨hnil, t, hlast, hk⟩ := h
  exact ⟨t, by rw [Input.head, hnil]; exact hlast, hk⟩

/-- The token ends neither a statement nor the text, so that two runs which read it stay in step. -/
def TokenKind.Inner (kind : TokenKind) : Prop := kind ≠ .semicolon ∧ kind ≠ .eof

instance (kind : TokenKind) : Decidable kind.Inner := inferInstanceAs (Decidable (_ ∧ _))

/-- The documentation before a token put on a node. -/
def Build.describe (t : Token) (n : NodeId) : Build Unit :=
  match t.doc with
  | some text => do
    let _ ← document n ⟨text.span.start, text.bytes⟩
  | none => pure ()

/-- The action fails whatever the arena. -/
def Build.Fails {α : Type} (x : Build α) : Prop := ∀ arena, ∃ e after, x arena = .error e after

theorem Build.Fails.seq {α β : Type} {x : Build α} (h : x.Fails) (f : α → Build β) : (x >>= f).Fails := by
  intro arena
  obtain ⟨e, after, he⟩ := h arena
  exact ⟨e, after, run_bind_error he⟩

structure Comparison where
  /-- How nodes of the first run stand to nodes of the second at some point. -/
  World : Type
  le : World → World → Prop
  Arenas : World → Arena → Arena → Prop
  Ids : World → NodeId → NodeId → Prop
  Spans : Span → Span → Prop
  Tokens : Token → Token → Prop
  Inputs : Input → Input → Prop
  /-- The inputs where a semicolon has been read. -/
  After : Input → Input → Prop
  Fails : Failure → Failure → Prop
  /-- Failures of the first run after which nothing is said of the second. -/
  LostLeft : Failure → Prop
  /-- Failures of the second run after which nothing is said of the first. -/
  LostRight : Failure → Prop

namespace Comparison
variable (S : Comparison)

inductive Outcomes {α β : Type} (Q : S.World → α → β → Prop) (w : S.World) :
    EStateM.Result Failure Arena α → EStateM.Result Failure Arena β → Prop
  | ok {w' : S.World} {a : α} {b : β} {left right : Arena} (le : S.le w w') (arenas : S.Arenas w' left right)
      (results : Q w' a b) : Outcomes Q w (.ok a left) (.ok b right)
  | error {w' : S.World} {e e' : Failure} {left right : Arena} (arenas : S.Arenas w' left right)
      (fails : S.Fails e e') : Outcomes Q w (.error e left) (.error e' right)
  | lostLeft {e : Failure} {left : Arena} {r' : EStateM.Result Failure Arena β} (lost : S.LostLeft e) :
      Outcomes Q w (.error e left) r'
  | lostRight {e' : Failure} {right : Arena} {r : EStateM.Result Failure Arena α} (lost : S.LostRight e') :
      Outcomes Q w r (.error e' right)

end Comparison

/-- From arenas related at `w` both actions go alike, and their results are related by `Q`. -/
def Build.Follows {α β : Type} (S : Comparison) (w : S.World) (x : Build α) (y : Build β)
    (Q : S.World → α → β → Prop) : Prop :=
  ∀ left right, S.Arenas w left right → S.Outcomes Q w (x left) (y right)

namespace Comparison
variable (S : Comparison)

abbrev Lists (w : S.World) : List NodeId → List NodeId → Prop := List.Forall₂ (S.Ids w)

/-- What comes next in both inputs. -/
inductive Heads : Except SyntaxError Token → Except SyntaxError Token → Prop
  | ok {t t' : Token} (h : S.Tokens t t') : Heads (.ok t) (.ok t')
  | error {e e' : SyntaxError} (h : S.Fails (.rejected e) (.rejected e')) : Heads (.error e) (.error e')

/-- As many turns, or levels, for the second run as for the first, or more if the first may run short of them. -/
def Enough (n n' : Nat) : Prop := n = n' ∨ n ≤ n' ∧ S.LostLeft .exhausted

/-- What reading tokens does to inputs that are related. -/
structure Steps : Prop where
  span_from : ∀ {s s' t t'}, S.After s s' → S.Tokens t t' →
    S.Spans ⟨t.span.start, max s.lastEnd t.span.stop⟩ ⟨t'.span.start, max s'.lastEnd t'.span.stop⟩
  after : ∀ {s s'}, S.Inputs s s' → S.After s s'
  head : ∀ {s s'}, S.Inputs s s' → S.Heads s.head s'.head
  read_after : ∀ {s s' t t'}, S.Inputs s s' → s.head = .ok t → s'.head = .ok t' → t.kind = .semicolon →
    S.After (s.read t) (s'.read t')
  /-- Only a semicolon ends what both runs have in common. The end of the text need not be read alike. -/
  read : ∀ {s s' t t'}, S.Inputs s s' → s.head = .ok t → s'.head = .ok t' → t.kind.Inner →
    S.Inputs (s.read t) (s'.read t')
  turns : ∀ {s s'}, S.Inputs s s' → S.Enough s.stream.tokens.length s'.stream.tokens.length
  ended : ∀ {s s'}, S.After s s' → S.Inputs s s' ∨
    s.Ended ∧ (∀ e, S.LostLeft e) ∧ ∃ t', s'.head = .ok t' ∧ t'.kind ≠ .elseWord

/-- What the rules of the grammar need of a comparison. -/
structure Sound : Prop extends S.Steps where
  le_refl : ∀ w, S.le w w
  le_trans : ∀ {w₁ w₂ w₃}, S.le w₁ w₂ → S.le w₂ w₃ → S.le w₁ w₃
  ids_mono : ∀ {w w' n n'}, S.Ids w n n' → S.le w w' → S.Ids w' n n'
  kind : ∀ {t t'}, S.Tokens t t' → t'.kind = t.kind
  bytes : ∀ {t t'}, S.Tokens t t' → t'.bytes = t.bytes
  token_span : ∀ {t t'}, S.Tokens t t' → S.Spans t.span t'.span
  stop_span : ∀ {t t'}, S.Tokens t t' → S.Spans ⟨t.span.stop, t.span.stop⟩ ⟨t'.span.stop, t'.span.stop⟩
  reject : ∀ {span span'} (cause token), S.Spans span span' →
    S.Fails (.rejected ⟨cause, span, token⟩) (.rejected ⟨cause, span', token⟩)
  exhausted : S.Fails .exhausted .exhausted
  node : ∀ {w span span' children children'} (kind), S.Spans span span' → S.Lists w children children' →
    Build.Follows S w (Build.node kind span children) (Build.node kind span' children') S.Ids
  kind? : ∀ {w left right n n'}, S.Arenas w left right → S.Ids w n n' →
    ∃ kind, left.kind? n = some kind ∧ right.kind? n' = some kind
  document : ∀ {w t t' n n'}, S.Tokens t t' → S.Ids w n n' →
    Build.Follows S w (Build.describe t n) (Build.describe t' n') fun _ _ _ => True

variable {S}

theorem Sound.lists_mono (hS : S.Sound) {w w' : S.World} {l l' : List NodeId} (h : S.Lists w l l') (hle : S.le w w') :
    S.Lists w' l l' :=
  h.imp fun _ _ h => hS.ids_mono h hle

theorem Sound.text (hS : S.Sound) {t t' : Token} (h : S.Tokens t t') : t'.text = t.text :=
  congrArg Utf8.decode (hS.bytes h)

theorem Enough.succ {n n' : Nat} (h : S.Enough n n') : S.Enough (n + 1) (n' + 1) :=
  h.imp (congrArg (· + 1)) fun ⟨hle, hlost⟩ => ⟨Nat.succ_le_succ hle, hlost⟩

theorem Enough.cases {n' : Nat} : ∀ {n : Nat}, S.Enough n n' →
    n = 0 ∧ (n' = 0 ∨ S.LostLeft .exhausted) ∨ ∃ k k', n = k + 1 ∧ n' = k' + 1 ∧ S.Enough k k'
  | 0, h => .inl ⟨rfl, h.imp Eq.symm And.right⟩
  | k + 1, h => by
    cases n' with
    | zero =>
      rcases h with h | ⟨h, -⟩
      · cases h
      · exact absurd h (Nat.not_succ_le_zero k)
    | succ k' =>
      have hk : S.Enough k k' := h.imp Nat.succ.inj fun ⟨hle, hlost⟩ => ⟨Nat.le_of_succ_le_succ hle, hlost⟩
      exact .inr ⟨k, k', rfl, rfl, hk⟩

end Comparison

namespace Build.Follows

variable {S : Comparison} {w : S.World} {α β γ δ : Type} {P : S.World → α → β → Prop} {Q : S.World → γ → δ → Prop}

theorem done (hS : S.Sound) {a : α} {b : β} (h : P w a b) : Follows S w (pure a) (pure b) P :=
  fun _ _ harenas => .ok (hS.le_refl w) harenas h

theorem fails {e e' : Failure} (h : S.Fails e e') : Follows S w (throw e : Build α) (throw e' : Build β) P :=
  fun _ _ harenas => .error harenas h

theorem lostLeft {e : Failure} (h : S.LostLeft e) (y : Build β) : Follows S w (throw e : Build α) y P :=
  fun _ _ _ => .lostLeft h

theorem fallen {x : Build α} (hlost : ∀ e, S.LostLeft e) (h : x.Fails) (y : Build β) : Follows S w x y P := by
  intro left right _
  obtain ⟨e, after, he⟩ := h left
  rw [he]
  exact .lostLeft (hlost e)

theorem seq (hS : S.Sound) {x : Build α} {y : Build β} {f : α → Build γ} {g : β → Build δ} (hx : Follows S w x y P)
    (hf : ∀ w' a b, S.le w w' → P w' a b → Follows S w' (f a) (g b) Q) :
    Follows S w (x >>= f) (y >>= g) Q := by
  intro left right harenas
  have h := hx left right harenas
  show S.Outcomes Q w (EStateM.bind x f left) (EStateM.bind y g right)
  unfold EStateM.bind
  generalize x left = r at h
  generalize y right = r' at h
  cases h with
  | error harenas' hfails => exact .error harenas' hfails
  | lostLeft hlost => exact .lostLeft hlost
  | lostRight hlost => exact .lostRight hlost
  | @ok w' a b mid mid' hle harenas' hab =>
    have h' := hf w' a b hle hab mid mid' harenas'
    show S.Outcomes Q w (f a mid) (g b mid')
    generalize f a mid = q at h'
    generalize g b mid' = q' at h'
    cases h' with
    | error harenas'' hfails => exact .error harenas'' hfails
    | lostLeft hlost => exact .lostLeft hlost
    | lostRight hlost => exact .lostRight hlost
    | ok hle' harenas'' hcd => exact .ok (hS.le_trans hle hle') harenas'' hcd

theorem map {x : Build α} {y : Build β} {f : α → γ} {g : β → δ} (hx : Follows S w x y P)
    (h : ∀ w' a b, P w' a b → Q w' (f a) (g b)) : Follows S w (f <$> x) (g <$> y) Q := by
  intro left right harenas
  have h' := hx left right harenas
  show S.Outcomes Q w (EStateM.map f x left) (EStateM.map g y right)
  unfold EStateM.map
  generalize x left = r at h'
  generalize y right = r' at h'
  cases h' with
  | error harenas' hfails => exact .error harenas' hfails
  | lostLeft hlost => exact .lostLeft hlost
  | lostRight hlost => exact .lostRight hlost
  | ok hle harenas' hab => exact .ok hle harenas' (h _ _ _ hab)

end Build.Follows

namespace Comparison
variable (S : Comparison) {α β : Type}

/-- Results that are related, and inputs. -/
def Gives (R : S.World → α → β → Prop) (J : Input → Input → Prop) (w : S.World) (r : α × Input) (r' : β × Input) :
    Prop :=
  R w r.1 r'.1 ∧ J r.2 r'.2

/-- Both loops go on, with inputs related by `I`, or both are over, with inputs related by `K`. -/
inductive Turned (I K : Input → Input → Prop) (w : S.World) :
    Reader.Turn NodeId × Input → Reader.Turn NodeId × Input → Prop
  | stop {s s' : Input} (h : K s s') : Turned I K w (.stop, s) (.stop, s')
  | last {n n' : NodeId} {s s' : Input} (hn : S.Ids w n n') (h : K s s') : Turned I K w (.last n, s) (.last n', s')
  | more {n n' : NodeId} {s s' : Input} (hn : S.Ids w n n') (h : I s s') : Turned I K w (.more n, s) (.more n', s')

/-- The tokens `t` and `t'` come next. -/
structure At (t t' : Token) (s s' : Input) : Prop where
  inputs : S.Inputs s s'
  left : s.head = .ok t
  right : s'.head = .ok t'

/-- Results that do not depend on the run. -/
abbrev Same (_ : S.World) (a b : α) : Prop := b = a

end Comparison

namespace ScriptReader

variable {α β γ δ : Type}

/-- From inputs related by `I` both actions go alike. -/
def Follows (S : Comparison) (I : Input → Input → Prop) (w : S.World) (x : ScriptReader α) (y : ScriptReader β)
    (Q : S.World → α × Input → β × Input → Prop) : Prop :=
  ∀ s s', I s s' → Build.Follows S w (x s) (y s') Q

namespace Follows

variable {S : Comparison} (hS : S.Sound) {w : S.World} {I J K : Input → Input → Prop} {R : S.World → α → β → Prop}
  {Q : S.World → γ × Input → δ × Input → Prop}

theorem pre {x : ScriptReader γ} {y : ScriptReader δ} (hx : Follows S J w x y Q) (h : ∀ s s', I s s' → J s s') :
    Follows S I w x y Q :=
  fun s s' hs => hx s s' (h s s' hs)

theorem fails {e e' : Failure} (h : S.Fails e e') :
    Follows S I w (throw e : ScriptReader γ) (throw e' : ScriptReader δ) Q :=
  fun _ _ _ => Build.Follows.fails h

theorem lostLeft {e : Failure} (h : S.LostLeft e) (y : ScriptReader δ) :
    Follows S I w (throw e : ScriptReader γ) y Q :=
  fun _ s' _ => Build.Follows.lostLeft h (y s')

theorem branch {c c' : Prop} [Decidable c] [Decidable c'] (hc : c' ↔ c) {x z : ScriptReader γ} {y u : ScriptReader δ}
    (hx : c → Follows S I w x y Q) (hz : ¬ c → Follows S I w z u Q) :
    Follows S I w (if c then x else z) (if c' then y else u) Q := by
  by_cases h : c
  · rw [if_pos h, if_pos (hc.2 h)]
    exact hx h
  · rw [if_neg h, if_neg (mt hc.1 h)]
    exact hz h

include hS

theorem done {c : γ} {d : δ} (h : ∀ s s', I s s' → Q w (c, s) (d, s')) : Follows S I w (pure c) (pure d) Q :=
  fun s s' hs => Build.Follows.done hS (h s s' hs)

/-- Nothing is done to the inputs. -/
theorem gives {a : α} {b : β} (h : R w a b) : Follows S I w (pure a) (pure b) (S.Gives R I) :=
  done hS fun _ _ hs => ⟨h, hs⟩

theorem seq {x : ScriptReader α} {y : ScriptReader β} {f : α → ScriptReader γ} {g : β → ScriptReader δ}
    (hx : Follows S I w x y (S.Gives R J)) (hf : ∀ w' a b, S.le w w' → R w' a b → Follows S J w' (f a) (g b) Q) :
    Follows S I w (x >>= f) (y >>= g) Q :=
  fun s s' hs => Build.Follows.seq hS (hx s s' hs) fun w' r r' hle hr => hf w' r.1 r'.1 hle hr.1 r.2 r'.2 hr.2

theorem lift {x : Build α} {y : Build β} (hx : Build.Follows S w x y R) :
    Follows S I w (liftM x : ScriptReader α) (liftM y) (S.Gives R I) :=
  fun _ _ hs => Build.Follows.seq hS hx fun _ _ _ _ hab => Build.Follows.done hS ⟨hab, hs⟩

theorem map {x : ScriptReader α} {y : ScriptReader β} {f : α → γ} {g : β → δ} (hx : Follows S I w x y (S.Gives R J))
    (h : ∀ w' a b s s', R w' a b → J s s' → Q w' (f a, s) (g b, s')) : Follows S I w (f <$> x) (g <$> y) Q := by
  rw [map_eq_pure_bind, map_eq_pure_bind]
  exact seq hS hx fun w' a b _ hab => done hS fun s s' hs => h w' a b s s' hab hs

theorem rejects {span span' : Span} (cause : Cause) (token : Option TokenKind) (h : S.Spans span span') :
    Follows S I w (liftM (Build.reject cause span token : Build γ) : ScriptReader γ)
      (liftM (Build.reject cause span' token : Build δ)) Q :=
  fun _ _ _ => Build.Follows.fails (hS.reject cause token h)

/-- A loop that makes a node in each turn. -/
theorem collect {turn turn' : ScriptReader (Reader.Turn NodeId)}
    (h : ∀ w, Follows S I w turn turn' (S.Turned I K)) : ∀ {n n' : Nat}, S.Enough n n' → ∀ w : S.World,
      Follows S I w (Reader.collect turn n) (Reader.collect turn' n') (S.Gives S.Lists K)
  | n, n', hn, w => by
    rcases hn.cases with ⟨rfl, hn'⟩ | ⟨k, k', rfl, rfl, hk⟩
    · rcases hn' with rfl | hlost
      · exact fails hS.exhausted
      · exact lostLeft hlost _
    · intro s s' hs
      refine Build.Follows.seq hS (h w s s' hs) fun w' r r' _ hr => ?_
      cases hr with
      | stop hK => exact Build.Follows.done hS ⟨.nil, hK⟩
      | last hn hK => exact Build.Follows.done hS ⟨.cons hn .nil, hK⟩
      | @more n n' s₁ s₁' hn hI =>
        refine Build.Follows.seq hS (collect h hk w' s₁ s₁' hI) fun w'' items items' hle hitems => ?_
        exact Build.Follows.done hS ⟨.cons (hS.ids_mono hn hle) hitems.1, hitems.2⟩

/-- A loop that makes one node over the last in each turn. -/
theorem extend {step step' : NodeId → ScriptReader (Option NodeId)}
    (h : ∀ w n n', S.Ids w n n' → Follows S I w (step n) (step' n') (S.Gives (fun w => Option.Rel (S.Ids w)) I)) :
    ∀ {n n' : Nat}, S.Enough n n' → ∀ (w : S.World) (a a' : NodeId), S.Ids w a a' →
      Follows S I w (Reader.extend step n a) (Reader.extend step' n' a') (S.Gives S.Ids I)
  | n, n', hn, w, a, a', ha => by
    rcases hn.cases with ⟨rfl, hn'⟩ | ⟨k, k', rfl, rfl, hk⟩
    · rcases hn' with rfl | hlost
      · exact fails hS.exhausted
      · exact lostLeft hlost _
    · refine seq hS (h w a a' ha) fun w' r r' hle hr => ?_
      cases hr with
      | none => exact gives hS (hS.ids_mono ha hle)
      | some hb => exact extend h hk w' _ _ hb

/-! ### Tokens -/

/-- Both actions look at what comes next before all else. -/
theorem looks {x : ScriptReader γ} {y : ScriptReader δ}
    (hx : ∀ s e, s.head = .error e → x s = throw (.rejected e))
    (hy : ∀ s e, s.head = .error e → y s = throw (.rejected e))
    (h : ∀ t t', S.Tokens t t' → Follows S (S.At t t') w x y Q) : Follows S S.Inputs w x y Q := by
  intro s s' hs
  have hheads := hS.head hs
  cases hh : s.head <;> cases hh' : s'.head <;> rw [hh, hh'] at hheads <;> cases hheads
  case error.error h =>
    rw [hx s _ hh, hy s' _ hh']
    exact Build.Follows.fails h
  case ok.ok t t' ht => exact h t t' ht s s' ⟨hs, hh, hh'⟩

theorem seqPeek {f : Token → ScriptReader γ} {g : Token → ScriptReader δ}
    (h : ∀ t t', S.Tokens t t' → Follows S (S.At t t') w (f t) (g t') Q) :
    Follows S S.Inputs w (peek >>= f) (peek >>= g) Q := by
  refine looks hS (fun s e he => peek_bind_of_error he f) (fun s e he => peek_bind_of_error he g)
    fun t t' ht s s' hs => ?_
  rw [peek_bind_of_head hs.left f, peek_bind_of_head hs.right g]
  exact h t t' ht s s' hs

/-- Reads the token that was looked at. -/
theorem consume_at {t t' : Token} (ht : S.Tokens t t') (hk : t.kind.Inner) :
    Follows S (S.At t t') w consume consume (S.Gives (fun _ => S.Tokens) S.Inputs) := by
  intro s s' hs
  rw [consume_of_head hs.left, consume_of_head hs.right]
  exact Build.Follows.done hS ⟨ht, hS.read hs.inputs hs.left hs.right hk⟩

theorem consume_semicolon_at {t t' : Token} (ht : S.Tokens t t') (hk : t.kind = .semicolon) :
    Follows S (S.At t t') w consume consume (S.Gives (fun _ => S.Tokens) S.After) := by
  intro s s' hs
  rw [consume_of_head hs.left, consume_of_head hs.right]
  exact Build.Follows.done hS ⟨ht, hS.read_after hs.inputs hs.left hs.right hk⟩

/-- Any token is read. What comes after one that may put the runs out of step looks at no input. -/
theorem seqConsume {f : Token → ScriptReader γ} {g : Token → ScriptReader δ}
    (h : ∀ t t', S.Tokens t t' → t.kind.Inner → Follows S S.Inputs w (f t) (g t') Q)
    (hend : ∀ t t', S.Tokens t t' → ¬ t.kind.Inner → Follows S (fun _ _ => True) w (f t) (g t') Q) :
    Follows S S.Inputs w (consume >>= f) (consume >>= g) Q := by
  have herror {ε : Type} (f : Token → ScriptReader ε) (s : Input) (e : SyntaxError) (he : s.head = .error e) :
      (consume >>= f) s = throw (.rejected e) := by
    show consume s >>= (fun r => f r.1 r.2) = _
    rw [show consume s = throw (.rejected e) from peek_bind_of_error he _]
    rfl
  refine looks hS (herror f) (herror g) fun t t' ht s s' hs => ?_
  show Build.Follows S w (consume s >>= fun r => f r.1 r.2) (consume s' >>= fun r => g r.1 r.2) Q
  rw [consume_of_head hs.left, consume_of_head hs.right]
  by_cases hk : t.kind.Inner
  · exact h t t' ht hk _ _ (hS.read hs.inputs hs.left hs.right hk)
  · exact hend t t' ht hk _ _ trivial

end Follows

end ScriptReader

end ScriptIndex
