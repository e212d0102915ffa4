import ScriptIndex.Proofs.Planting
import ScriptIndex.Proofs.Simulation

/-! # Runs before a closing parenthesis

Whatever a rule makes of the undocumented tokens of a text, it makes of them also where a closing parenthesis and
more tokens come in place of the end of the text, and what it makes is planted trees (`Grammar.within_continues`).
Only a rule that looks whether something closes there can tell the two apart, and it does so with no token left.
So `Continues` says of an action how many tokens it `needs` to be left after it for the two runs to agree, and how
many it has `taken` at least: an action that takes a token leaves at its start what the action before it needs. -/

namespace ScriptIndex

/-- The first of the tokens is a closing parenthesis. -/
def Stream.Closes (stream : Stream) : Prop := ∃ t rest, stream.tokens = t :: rest ∧ t.kind = .parenClose

namespace Input

/-- The input, with more tokens in place of the end of its text. -/
def before (s : Input) (more : Stream) : Input := ⟨⟨s.stream.tokens ++ more.tokens, more.last⟩, s.lastEnd⟩

/-- Undocumented tokens, after which the text ends. -/
structure Bare (s : Input) : Prop where
  tokens : ∀ t ∈ s.stream.tokens, t.doc = none
  last : ∃ t, s.stream.last = .ok t ∧ t.kind = .eof ∧ t.doc = none

theorem Bare.read {s : Input} (hs : s.Bare) (t : Token) : (s.read t).Bare :=
  ⟨fun t ht => hs.tokens t (List.mem_of_mem_tail ht), hs.last⟩

/-- What comes next, with more tokens and without: the same token, or the end of the text and the parenthesis. -/
inductive Meets (more : Stream) (s : Input) : Prop
  | token (t : Token) (head : s.head = .ok t) (head' : (s.before more).head = .ok t) (doc : t.doc = none)
      (read : (s.before more).read t = (s.read t).before more)
      (left : (s.read t).stream.tokens.length + 1 = s.stream.tokens.length)
  | ended (t u : Token) (head : s.head = .ok t) (head' : (s.before more).head = .ok u) (doc : t.doc = none)
      (kind : t.kind = .eof) (kind' : u.kind = .parenClose) (left : s.stream.tokens.length = 0)

theorem Bare.meets {s : Input} {more : Stream} (hs : s.Bare) (hmore : more.Closes) : s.Meets more := by
  obtain ⟨⟨tokens, last⟩, lastEnd⟩ := s
  obtain ⟨htokens, t, rfl, hkind, hdoc⟩ := hs
  cases tokens with
  | cons t tokens => exact .token t rfl rfl (htokens t List.mem_cons_self) rfl rfl
  | nil =>
    obtain ⟨u, rest, hu, hclose⟩ := hmore
    refine .ended t u rfl ?_ hdoc hkind hclose rfl
    simp only [before, List.nil_append, hu, head]

end Input

/-- The node is the root of some planted tree. -/
def Sprouts (arena : Arena) (n : NodeId) (after : Arena) : Prop := ∃ t, Planted arena t n after

def SproutsAll (arena : Arena) (ns : List NodeId) (after : Arena) : Prop := ∃ ts, PlantedAll arena ts ns after

section
variable {arena mid after : Arena} {n : NodeId} {ns : List NodeId}

theorem SproutsAll.nil : SproutsAll arena [] arena := ⟨[], .nil⟩

theorem Sprouts.cons (h : Sprouts arena n mid) (hs : SproutsAll mid ns after) : SproutsAll arena (n :: ns) after := by
  obtain ⟨t, ht⟩ := h
  obtain ⟨ts, hts⟩ := hs
  exact ⟨t :: ts, .cons ht hts⟩

theorem Sprouts.all (h : Sprouts arena n after) : SproutsAll arena [n] after := h.cons .nil

/-- A node that is made over sprouts. -/
theorem SproutsAll.node (h : SproutsAll arena ns mid) {kind : Kind} {span : Span}
    (hrun : Build.node kind span ns mid = .ok n after) : Sprouts arena n after := by
  obtain ⟨ts, hts⟩ := h
  obtain ⟨after', hrun', hmade⟩ := Build.run_node kind span fun c hc => (hts.grown.2.1 c hc).2
  cases hrun.symm.trans hrun'
  exact ⟨.node kind ts, .node hts hmade⟩

end

namespace ScriptReader

variable {more : Stream} {α β : Type}

/-- What a run from `s` comes to that has left `s'`. -/
structure Continued (more : Stream) (taken needs : Nat) (y : ScriptReader α) (s : Input) (arena : Arena) (a : α)
    (s' : Input) (after : Arena) : Prop where
  bare : s'.Bare
  left : s'.stream.tokens.length + taken ≤ s.stream.tokens.length
  /-- Before more tokens the other action does the same. -/
  runs : needs ≤ s'.stream.tokens.length → y (s.before more) arena = .ok (a, s'.before more) after

/-- What `x` makes of the tokens of a text, `y` makes of them also before more tokens. -/
def Continues (more : Stream) (taken needs : Nat) (x y : ScriptReader α) (arena : Arena) (Q : α → Arena → Prop) :
    Prop :=
  ∀ s a s' after, s.Bare → x s arena = .ok (a, s') after →
    Continued more taken needs y s arena a s' after ∧ Q a after

namespace Continues

variable {m n k needs taken : Nat} {arena : Arena} {x y : ScriptReader α} {Q : α → Arena → Prop} {R : β → Arena → Prop}

theorem done {a : α} (h : Q a arena) : Continues more 0 needs (pure a) (pure a) arena Q := by
  intro s b s' after hs hrun
  cases hrun
  exact ⟨⟨hs, Nat.le_refl _, fun _ => rfl⟩, h⟩

theorem fails (h : ∀ s, (x s).Fails) : Continues more taken needs x y arena Q := by
  intro s a s' after _ hrun
  obtain ⟨e, after', herror⟩ := h s arena
  cases hrun.symm.trans herror

theorem mono (h : Continues more m n x y arena Q) (htaken : taken ≤ m) (hneeds : n ≤ needs) :
    Continues more taken needs x y arena Q := by
  intro s a s' after hs hrun
  obtain ⟨hc, ha⟩ := h s a s' after hs hrun
  exact ⟨⟨hc.bare, by have := hc.left; omega, fun hle => hc.runs (Nat.le_trans hneeds hle)⟩, ha⟩

/-- What was taken need not be known. -/
theorem forget (h : Continues more m n x y arena Q) : Continues more 0 n x y arena Q :=
  h.mono (Nat.zero_le _) (Nat.le_refl _)

theorem seq {f g : α → ScriptReader β} (hx : Continues more m n x y arena Q)
    (hf : ∀ a mid, Q a mid → Continues more k needs (f a) (g a) mid R) (hn : n ≤ k + needs) :
    Continues more (m + k) needs (x >>= f) (y >>= g) arena R := by
  intro s b s'' after hs hrun
  obtain ⟨⟨a, s'⟩, mid, hfirst, hrest⟩ := Build.bind_eq_ok hrun
  obtain ⟨hc, ha⟩ := hx s a s' mid hs hfirst
  obtain ⟨hc', hb⟩ := hf a mid ha s' b s'' after hc.bare hrest
  have hleft := hc.left
  have hleft' := hc'.left
  refine ⟨⟨hc'.bare, by omega, fun hle => ?_⟩, hb⟩
  exact (Build.run_bind_ok (hc.runs (by omega))).trans (hc'.runs hle)

/-- The token that is taken is one of the first action. -/
theorem seqTaken {f g : α → ScriptReader β} (hx : Continues more 1 0 x y arena Q)
    (hf : ∀ a mid, Q a mid → Continues more 0 needs (f a) (g a) mid R) :
    Continues more 1 needs (x >>= f) (y >>= g) arena R :=
  hx.seq hf (Nat.zero_le _)

/-- What is taken is taken by the second action, which leaves what the first one needs. -/
theorem seqNeeding {f g : α → ScriptReader β} (hx : Continues more m n x y arena Q)
    (hf : ∀ a mid, Q a mid → Continues more taken needs (f a) (g a) mid R) (hn : n ≤ taken + needs) :
    Continues more taken needs (x >>= f) (y >>= g) arena R :=
  (hx.seq hf hn).mono (Nat.le_add_left ..) (Nat.le_refl _)

theorem seqFree {f g : α → ScriptReader β} (hx : Continues more m 0 x y arena Q)
    (hf : ∀ a mid, Q a mid → Continues more taken needs (f a) (g a) mid R) :
    Continues more taken needs (x >>= f) (y >>= g) arena R :=
  hx.seqNeeding hf (Nat.zero_le _)

theorem map {f : α → β} (hx : Continues more m n x y arena Q) (h : ∀ a mid, Q a mid → R (f a) mid) :
    Continues more m n (f <$> x) (f <$> y) arena R := by
  rw [map_eq_pure_bind, map_eq_pure_bind]
  intro s b s' after hs hrun
  obtain ⟨⟨a, s₁⟩, mid, hfirst, hrest⟩ := Build.bind_eq_ok hrun
  obtain ⟨hc, ha⟩ := hx s a s₁ mid hs hfirst
  cases hrest
  exact ⟨⟨hc.bare, hc.left, fun hle => Build.run_bind_ok (hc.runs hle)⟩, h a _ ha⟩

theorem branch {c : Prop} [Decidable c] {x' y' : ScriptReader α} (hx : c → Continues more m n x y arena Q)
    (hx' : ¬ c → Continues more m n x' y' arena Q) :
    Continues more m n (if c then x else x') (if c then y else y') arena Q := by
  split
  · exact hx ‹_›
  · exact hx' ‹_›

/-- An action on the arena alone. -/
theorem lift {x : Build α} (h : ∀ a after, x arena = .ok a after → Q a after) :
    Continues more 0 needs (liftM x) (liftM x) arena Q := by
  intro s a s' after hs hrun
  obtain ⟨b, mid, hx, hrest⟩ := Build.bind_eq_ok (show (x >>= fun b => pure (b, s)) arena = _ from hrun)
  cases hrest
  exact ⟨⟨hs, Nat.le_refl _, fun _ => Build.run_bind_ok hx⟩, h a _ hx⟩

theorem rejects {cause : Cause} {span : Span} {token : Option TokenKind} :
    Continues more taken needs (liftM (Build.reject cause span token : Build α)) y arena Q :=
  fails fun _ arena => ⟨_, arena, rfl⟩

theorem seqArena {f g : Arena → ScriptReader α} (h : Continues more m n (f arena) (g arena) arena Q) :
    Continues more m n (getThe Arena >>= f) (getThe Arena >>= g) arena Q := by
  intro s a s' after hs hrun
  have hget (f : Arena → ScriptReader α) (s : Input) : (getThe Arena >>= f) s arena = f arena s arena := rfl
  obtain ⟨hc, ha⟩ := h s a s' after hs hrun
  refine ⟨⟨hc.bare, hc.left, fun hle => ?_⟩, ha⟩
  rw [hget]
  exact hc.runs hle

/-! ### Tokens -/

theorem bind_fails {x : ScriptReader α} (h : ∀ s, (x s).Fails) (f : α → ScriptReader β) (s : Input) :
    ((x >>= f) s).Fails :=
  (h s).seq fun r => f r.1 r.2

theorem refuse_fails (t : Token) (cause : Cause) (s : Input) : (refuse t cause s : Build (α × Input)).Fails :=
  fun arena => ⟨_, arena, rfl⟩

variable {kind : TokenKind} (hmore : more.Closes)
include hmore

/-- At the end of the text the rest can neither take a token nor leave one. -/
theorem seqPeek {f g : Token → ScriptReader α}
    (h : ∀ t, t.doc = none → Continues more taken needs (f t) (g t) arena Q) (hpos : 1 ≤ taken + needs) :
    Continues more taken needs (peek >>= f) (peek >>= g) arena Q := by
  intro s a s' after hs hrun
  cases hs.meets hmore with
  | token t head head' doc =>
    rw [peek_bind_of_head head] at hrun
    obtain ⟨hc, ha⟩ := h t doc s a s' after hs hrun
    refine ⟨⟨hc.bare, hc.left, fun hle => ?_⟩, ha⟩
    rw [peek_bind_of_head head']
    exact hc.runs hle
  | ended t u head _ doc _ _ left =>
    rw [peek_bind_of_head head] at hrun
    obtain ⟨hc, ha⟩ := h t doc s a s' after hs hrun
    have hleft := hc.left
    exact ⟨⟨hc.bare, hc.left, fun hle => by omega⟩, ha⟩

/-- Both runs stop, one at the end of the text and one at the parenthesis. -/
theorem seqStop {f g : Token → ScriptReader α} {a : α}
    (h : ∀ t, t.doc = none → Continues more 0 0 (f t) (g t) arena Q) (hend : ∀ t, t.kind = .eof → f t = pure a)
    (hclose : ∀ u, u.kind = .parenClose → g u = pure a) :
    Continues more 0 0 (peek >>= f) (peek >>= g) arena Q := by
  intro s b s' after hs hrun
  cases hs.meets hmore with
  | token t head head' doc =>
    rw [peek_bind_of_head head] at hrun
    obtain ⟨hc, hb⟩ := h t doc s b s' after hs hrun
    refine ⟨⟨hc.bare, hc.left, fun hle => ?_⟩, hb⟩
    rw [peek_bind_of_head head']
    exact hc.runs hle
  | ended t u head head' doc kind kind' =>
    rw [peek_bind_of_head head] at hrun
    obtain ⟨hc, hb⟩ := h t doc s b s' after hs hrun
    refine ⟨⟨hc.bare, hc.left, fun _ => ?_⟩, hb⟩
    rw [hend t kind] at hrun
    cases hrun
    rw [peek_bind_of_head head', hclose u kind']
    rfl

theorem consume_continues : Continues more 0 1 consume consume arena fun _ after => after = arena := by
  intro s a s' after hs hrun
  cases hs.meets hmore with
  | token t head head' doc read left =>
    rw [consume_of_head head] at hrun
    cases hrun
    refine ⟨⟨hs.read a, by omega, fun _ => ?_⟩, rfl⟩
    rw [consume_of_head head', read]
    rfl
  | ended t u head _ _ _ _ left =>
    rw [consume_of_head head] at hrun
    cases hrun
    have hnil : (s.read a).stream.tokens.length = 0 := by
      show s.stream.tokens.tail.length = 0
      rw [List.length_tail, left]
    exact ⟨⟨hs.read a, by omega, fun hle => by omega⟩, rfl⟩

/-- A token is read, and the rest takes or leaves another. -/
theorem seqRead {f g : Token → ScriptReader α} (h : ∀ t, Continues more taken needs (f t) (g t) arena Q)
    (hpos : 1 ≤ taken + needs) : Continues more taken needs (consume >>= f) (consume >>= g) arena Q :=
  (consume_continues hmore).seqNeeding (fun t _ hmid => hmid ▸ h t) hpos

/-- A token is read that the rest refuses at the end of the text. -/
theorem seqConsume {f g : Token → ScriptReader α} (h : ∀ t, Continues more 0 needs (f t) (g t) arena Q)
    (hend : ∀ t, t.kind = .eof → ∀ s, (f t s).Fails) :
    Continues more 1 needs (consume >>= f) (consume >>= g) arena Q := by
  intro s a s' after hs hrun
  cases hs.meets hmore with
  | token t head head' _ read left =>
    rw [consume_bind_of_head head] at hrun
    obtain ⟨hc, ha⟩ := h t _ a s' after (hs.read t) hrun
    have hleft := hc.left
    refine ⟨⟨hc.bare, by omega, fun hle => ?_⟩, ha⟩
    rw [consume_bind_of_head head', read]
    exact hc.runs hle
  | ended t u head _ _ kind =>
    rw [consume_bind_of_head head] at hrun
    obtain ⟨e, after', herror⟩ := hend t kind _ arena
    cases hrun.symm.trans herror

theorem require_continues (hk : kind ≠ .eof) :
    Continues more 1 0 (require kind) (require kind) arena fun _ after => after = arena := by
  intro s a s' after hs hrun
  have hrefused {t : Token} {s₁ : Input} (hne : t.kind ≠ kind)
      (hrun : (if t.kind = kind then consume else refuse t (.missingToken kind)) s₁ arena = .ok (a, s') after) :
      False := by
    rw [if_neg hne] at hrun
    obtain ⟨e, after', herror⟩ := refuse_fails (α := Token) t (.missingToken kind) s₁ arena
    cases hrun.symm.trans herror
  cases hs.meets hmore with
  | token t head head' _ read left =>
    rw [require, peek_bind_of_head head] at hrun
    by_cases heq : t.kind = kind
    · rw [if_pos heq, consume_of_head head] at hrun
      cases hrun
      refine ⟨⟨hs.read a, by omega, fun _ => ?_⟩, rfl⟩
      rw [require, peek_bind_of_head head', if_pos heq, consume_of_head head', read]
      rfl
    · exact (hrefused heq hrun).elim
  | ended t u head _ _ heof =>
    rw [require, peek_bind_of_head head] at hrun
    exact (hrefused (by rw [heof]; exact hk.symm) hrun).elim

theorem seqRequire {f g : Token → ScriptReader α} (hk : kind ≠ .eof)
    (h : ∀ t, Continues more (taken - 1) needs (f t) (g t) arena Q) :
    Continues more taken needs (require kind >>= f) (require kind >>= g) arena Q :=
  ((require_continues hmore hk).seq (fun t _ hmid => hmid ▸ h t) (Nat.zero_le _)).mono (by omega) (Nat.le_refl _)

/-- Whether a parenthesis is accepted tells the two runs apart, unless the rest takes or leaves a token. -/
theorem seqAccept {f g : Option Token → ScriptReader α} (hk : kind ≠ .eof)
    (hsome : ∀ t, Continues more (taken - 1) needs (f (some t)) (g (some t)) arena Q)
    (hnone : Continues more taken needs (f none) (g none) arena Q)
    (hclose : kind ≠ .parenClose ∨ 1 ≤ taken + needs) :
    Continues more taken needs (accept kind >>= f) (accept kind >>= g) arena Q := by
  intro s a s' after hs hrun
  cases hs.meets hmore with
  | token t head head' _ read left =>
    rw [accept_bind_of_head head] at hrun
    split at hrun
    · next heq =>
      obtain ⟨hc, ha⟩ := hsome t _ a s' after (hs.read t) hrun
      have hleft := hc.left
      refine ⟨⟨hc.bare, by omega, fun hle => ?_⟩, ha⟩
      rw [accept_bind_of_head head', if_pos heq, read]
      exact hc.runs hle
    · next heq =>
      obtain ⟨hc, ha⟩ := hnone s a s' after hs hrun
      have hleft := hc.left
      refine ⟨⟨hc.bare, by omega, fun hle => ?_⟩, ha⟩
      rw [accept_bind_of_head head', if_neg heq]
      exact hc.runs hle
  | ended t u head head' _ heof hu left =>
    rw [accept_bind_of_head head, if_neg (by rw [heof]; exact hk.symm)] at hrun
    obtain ⟨hc, ha⟩ := hnone s a s' after hs hrun
    have hleft := hc.left
    refine ⟨⟨hc.bare, by omega, fun hle => ?_⟩, ha⟩
    have hne : u.kind ≠ kind := by
      rw [hu]
      rcases hclose with hclose | hpos
      · exact hclose.symm
      · omega
    rw [accept_bind_of_head head', if_neg hne]
    exact hc.runs hle

end Continues

/-! ### Nodes and loops -/

variable {m needs : Nat} {base arena : Arena} {Q : α → Arena → Prop}

theorem seqTurns {f g : Nat → ScriptReader α}
    (h : ∀ n n', n ≤ n' → Continues more m needs (f n) (g n') arena Q) :
    Continues more m needs (turns >>= f) (turns >>= g) arena Q := by
  intro s a s' after hs hrun
  have hle : s.stream.tokens.length + 1 ≤ (s.before more).stream.tokens.length + 1 := by
    simp [Input.before]
  obtain ⟨hc, ha⟩ := h _ _ hle s a s' after hs hrun
  exact ⟨⟨hc.bare, hc.left, fun hle' => hc.runs hle'⟩, ha⟩

theorem node_continues {kind : Kind} {start : Token} {ns : List NodeId} (h : SproutsAll base ns arena) :
    Continues more 0 needs (node kind start ns) (node kind start ns) arena (Sprouts base) := by
  intro s n s' after hs hrun
  obtain ⟨hc, hn⟩ := Continues.lift (fun _ _ => h.node) s n s' after hs hrun
  exact ⟨⟨hc.bare, hc.left, hc.runs⟩, hn⟩

theorem leaf_continues {kind : Kind} {t : Token} :
    Continues more 0 needs (leaf kind t) (leaf kind t) arena (Sprouts arena) :=
  .lift fun _ _ => SproutsAll.nil.node

/-- A loop over the last node that was made. -/
theorem extend_continues {step step' : NodeId → ScriptReader (Option NodeId)}
    (h : ∀ arena n, Sprouts base n arena →
      Continues more 0 0 (step n) (step' n) arena fun r after => Sprouts base (r.getD n) after) :
    ∀ {k k' : Nat}, k ≤ k' → ∀ (arena : Arena) (n : NodeId), Sprouts base n arena →
      Continues more 0 0 (Reader.extend step k n) (Reader.extend step' k' n) arena (Sprouts base)
  | 0, _, _, _, _, _ => .fails fun _ arena => ⟨_, arena, rfl⟩
  | k + 1, 0, hle, _, _, _ => absurd hle (Nat.not_succ_le_zero k)
  | k + 1, k' + 1, hle, arena, n, hn => by
    refine (h arena n hn).seqFree fun r mid hr => ?_
    cases r with
    | none => exact .done hr
    | some m => exact extend_continues h (Nat.le_of_succ_le_succ hle) mid m hr

/-- A turn of a loop, whatever comes of it: the loop takes a token after a turn that goes on. -/
def TurnContinues (more : Stream) (turn turn' : ScriptReader (Reader.Turn NodeId)) : Prop :=
  ∀ {α : Type} (arena : Arena) (f g : Reader.Turn NodeId → ScriptReader α) (Q : α → Arena → Prop),
    Continues more 0 0 (f .stop) (g .stop) arena Q →
    (∀ n mid, Sprouts arena n mid → Continues more 0 0 (f (.last n)) (g (.last n)) mid Q) →
    (∀ n mid, Sprouts arena n mid → Continues more 1 0 (f (.more n)) (g (.more n)) mid Q) →
    Continues more 1 0 (turn >>= f) (turn' >>= g) arena Q

theorem collect_continues {turn turn' : ScriptReader (Reader.Turn NodeId)} (h : TurnContinues more turn turn') :
    ∀ {k k' : Nat}, k ≤ k' → ∀ arena : Arena,
      Continues more 1 0 (Reader.collect turn k) (Reader.collect turn' k') arena (SproutsAll arena)
  | 0, _, _, _ => .fails fun _ arena => ⟨_, arena, rfl⟩
  | k + 1, 0, hle, _ => absurd hle (Nat.not_succ_le_zero k)
  | k + 1, k' + 1, hle, arena => by
    refine h arena _ _ _ (.done .nil) (fun n mid hn => .done hn.all) fun n mid hn => ?_
    exact (collect_continues h (Nat.le_of_succ_le_succ hle) mid).seqTaken fun ns after hns => .done (hn.cons hns)

variable {item item' : ScriptReader NodeId} {close : TokenKind} (hmore : more.Closes)
include hmore

theorem itemsUntil_continues (hk : close ≠ .eof)
    (h : ∀ arena, Continues more 0 1 item item' arena (Sprouts arena)) :
    Continues more 1 0 (itemsUntil close item) (itemsUntil close item') arena (SproutsAll arena) := by
  refine seqTurns fun k k' hle => collect_continues (fun arena f g Q hstop _ hgoes => ?_) hle arena
  rw [bind_assoc, bind_assoc]
  refine Continues.seqAccept hmore hk (fun t => hstop) ?_ (.inr (Nat.le_refl 1))
  show Continues more 1 0 ((item >>= fun n => pure (.more n)) >>= f) ((item' >>= fun n => pure (.more n)) >>= g) arena Q
  rw [bind_assoc, bind_assoc]
  exact (h arena).seqNeeding hgoes (Nat.le_refl 1)

theorem separatedUntil_continues (hk : close ≠ .eof)
    (h : ∀ arena, Continues more 1 0 item item' arena (Sprouts arena)) :
    Continues more 1 0 (separatedUntil close item) (separatedUntil close item') arena (SproutsAll arena) := by
  refine seqTurns fun k k' hle => collect_continues (fun arena f g Q hstop hlast hgoes => ?_) hle arena
  rw [bind_assoc, bind_assoc]
  refine Continues.seqAccept hmore hk (fun t => hstop) ?_ (.inr (Nat.le_refl 1))
  show Continues more 1 0 ((item >>= fun n => accept .comma >>= fun comma =>
    if comma.isSome then pure (.more n) else require close >>= fun _ => pure (.last n)) >>= f)
    ((item' >>= fun n => accept .comma >>= fun comma =>
      if comma.isSome then pure (.more n) else require close >>= fun _ => pure (.last n)) >>= g) arena Q
  rw [bind_assoc, bind_assoc]
  refine (h arena).seqFree fun n mid hn => ?_
  rw [bind_assoc, bind_assoc]
  refine Continues.seqAccept hmore (by decide) (fun t => (hgoes n mid hn).forget) ?_ (.inl (by decide))
  show Continues more 1 0 ((require close >>= fun _ => pure (.last n)) >>= f)
    ((require close >>= fun _ => pure (.last n)) >>= g) mid Q
  rw [bind_assoc, bind_assoc]
  exact Continues.seqRequire hmore hk fun _ => hlast n mid hn

end ScriptReader

end ScriptIndex
