import ScriptIndex.Proofs.Planting
import ScriptIndex.Script.Statement

/-! # What an action comes to

`Yields x s arena Q`: from the given input and arena the action succeeds, and its result, the input left and
the arena satisfy `Q`. This module says so of the actions on tokens and of the loops over them. -/

namespace ScriptIndex

namespace Reader

variable {σ α β : Type}

def Yields (x : Reader σ α) (s : σ) (arena : Arena) (Q : α → σ → Arena → Prop) : Prop :=
  ∃ a s' after, x s arena = .ok (a, s') after ∧ Q a s' after

namespace Yields
variable {x : Reader σ α} {s : σ} {arena : Arena} {Q Q' : α → σ → Arena → Prop} {R : β → σ → Arena → Prop}

theorem done {a : α} (h : Q a s arena) : Yields (pure a) s arena Q :=
  ⟨a, s, arena, rfl, h⟩

theorem seq {f : α → Reader σ β} (hx : Yields x s arena Q)
    (hf : ∀ a s' mid, Q a s' mid → Yields (f a) s' mid R) : Yields (x >>= f) s arena R := by
  obtain ⟨a, s', mid, hrun, ha⟩ := hx
  obtain ⟨b, s'', after, hrun', hb⟩ := hf a s' mid ha
  exact ⟨b, s'', after, (Build.run_bind_ok hrun).trans hrun', hb⟩

/-- After an action that only gives `a`. -/
theorem seqSame {a : α} {f : α → Reader σ β} (hx : Yields x s arena fun b s' after => b = a ∧ s' = s ∧ after = arena)
    (hf : Yields (f a) s arena R) : Yields (x >>= f) s arena R := by
  refine hx.seq ?_
  rintro _ _ _ ⟨rfl, rfl, rfl⟩
  exact hf

theorem map {f : α → β} (hx : Yields x s arena fun a => R (f a)) : Yields (f <$> x) s arena R := by
  rw [map_eq_pure_bind]
  exact hx.seq fun _ _ _ h => done h

theorem weaken (hx : Yields x s arena Q) (h : ∀ a s' after, Q a s' after → Q' a s' after) :
    Yields x s arena Q' := by
  obtain ⟨a, s', after, hrun, ha⟩ := hx
  exact ⟨a, s', after, hrun, h a s' after ha⟩

end Yields

end Reader

namespace ScriptReader
open Reader Reader.Yields

variable {s : Input} {arena mid : Arena} {w : Lexeme} {ws rest : List Lexeme} {kind : TokenKind}

/-- The kind of the token that comes next. -/
def nextKind : List Lexeme → TokenKind
  | [] => .eof
  | w :: _ => w.kind

theorem peek_yields (hs : s.stream.Shows ws) :
    Yields peek s arena fun t s' after =>
      (t.kind = nextKind ws ∧ t.doc = none ∧ ∀ w ∈ ws.head?, t.Shows w) ∧ s' = s ∧ after = arena := by
  obtain ⟨⟨tokens, last⟩, lastEnd⟩ := s
  obtain ⟨htokens, t, rfl, hkind, hdoc⟩ := hs
  cases htokens with
  | nil => exact ⟨t, _, _, rfl, ⟨hkind, hdoc, fun _ hw => by cases hw⟩, rfl, rfl⟩
  | cons hw _ => exact ⟨_, _, _, rfl, ⟨hw.kind, hw.doc, fun _ hv => by cases hv; exact hw⟩, rfl, rfl⟩

theorem peek_seq {α : Type} {f : Token → ScriptReader α} {Q : α → Input → Arena → Prop} (hs : s.stream.Shows ws)
    (hf : ∀ t : Token, t.kind = nextKind ws → Yields (f t) s arena Q) : Yields (peek >>= f) s arena Q := by
  refine (peek_yields hs).seq ?_
  rintro t _ _ ⟨⟨hkind, -⟩, rfl, rfl⟩
  exact hf t hkind

theorem consume_yields (hs : s.stream.Shows (w :: ws)) :
    Yields consume s arena fun t s' after => t.Shows w ∧ s'.stream.Shows ws ∧ after = arena := by
  obtain ⟨⟨tokens, last⟩, lastEnd⟩ := s
  obtain ⟨htokens, hlast⟩ := hs
  cases htokens with
  | cons hw h => exact ⟨_, _, _, rfl, hw, ⟨h, hlast⟩, rfl⟩

theorem require_yields (hs : s.stream.Shows (w :: ws)) (hk : w.kind = kind) :
    Yields (require kind) s arena fun t s' after => t.Shows w ∧ s'.stream.Shows ws ∧ after = arena := by
  refine peek_seq hs fun t hkind => ?_
  rw [if_pos (hkind.trans hk)]
  exact consume_yields hs

theorem accept_yields (hs : s.stream.Shows (w :: ws)) (hk : w.kind = kind) :
    Yields (accept kind) s arena fun r s' after =>
      (∃ t : Token, r = some t ∧ t.Shows w) ∧ s'.stream.Shows ws ∧ after = arena := by
  refine peek_seq hs fun t hkind => ?_
  rw [if_pos (hkind.trans hk)]
  refine (consume_yields hs).seq ?_
  rintro t s' _ ⟨ht, hs', rfl⟩
  exact done ⟨⟨t, rfl, ht⟩, hs', rfl⟩

theorem accept_none (hs : s.stream.Shows ws) (hk : nextKind ws ≠ kind) :
    Yields (accept kind) s arena fun r s' after => r = none ∧ s' = s ∧ after = arena := by
  refine peek_seq hs fun t hkind => ?_
  rw [if_neg (hkind ▸ hk)]
  exact done ⟨rfl, rfl, rfl⟩

theorem turns_yields (hs : s.stream.Shows ws) :
    Yields turns s arena fun n s' after => n = ws.length + 1 ∧ s' = s ∧ after = arena :=
  ⟨_, _, _, rfl, congrArg (· + 1) hs.tokens.length_eq, rfl, rfl⟩

/-- A node is made without a look at the tokens. -/
theorem lift_node (kind : Kind) (span : Span) {ns : List NodeId} (s : Input) (h : ∀ n ∈ ns, n < arena.size) :
    ∃ after, (liftM (Build.node kind span ns) : ScriptReader NodeId) s arena = .ok (arena.size, s) after ∧
      Made arena kind span ns after := by
  obtain ⟨after, hrun, hmade⟩ := Build.run_node kind span h
  exact ⟨after, Build.run_bind_ok (f := fun n => pure (n, s)) hrun, hmade⟩

/-- A node over planted trees. -/
theorem made_plants {kind : Kind} {ts : List Tree} {ns : List NodeId} (hs : s.stream.Shows rest)
    (h : PlantedAll arena ts ns mid) (span : Span) :
    Yields (liftM (Build.node kind span ns) : ScriptReader NodeId) s mid fun n s' after =>
      s'.stream.Shows rest ∧ Planted arena (.node kind ts) n after := by
  obtain ⟨after, hrun, hmade⟩ := lift_node kind span s fun n hn => (h.grown.2.1 n hn).2
  exact ⟨_, s, after, hrun, hs, .node h hmade⟩

theorem node_plants {kind : Kind} {start : Token} {ts : List Tree} {ns : List NodeId} (hs : s.stream.Shows rest)
    (h : PlantedAll arena ts ns mid) : Yields (node kind start ns) s mid fun n s' after =>
      s'.stream.Shows rest ∧ Planted arena (.node kind ts) n after := by
  have hspan : Yields (spanFrom start) s mid fun _ s' after => s' = s ∧ after = mid := ⟨_, _, _, rfl, rfl, rfl⟩
  refine hspan.seq ?_
  rintro span _ _ ⟨rfl, rfl⟩
  exact made_plants hs h span

theorem leaf_plants {kind : Kind} {t : Token} (hs : s.stream.Shows rest) : Yields (leaf kind t) s arena
    fun n s' after => s'.stream.Shows rest ∧ Planted arena (.node kind []) n after :=
  made_plants hs .nil t.span

/-- Before a token of a kind in `ends`, the rule reads exactly the given lexemes and plants the tree. -/
def Plants (x : ScriptReader NodeId) (ends : TokenKind → Prop) (ws : List Lexeme) (t : Tree) : Prop :=
  ∀ (s : Input) (arena : Arena) (rest : List Lexeme), ends (nextKind rest) → s.stream.Shows (ws ++ rest) →
    Yields x s arena fun n s' after => s'.stream.Shows rest ∧ Planted arena t n after

/-- The turns of a loop, from some lexemes to what is left of them, plant the trees. -/
inductive Loops (turn : ScriptReader (Turn NodeId)) : List Lexeme → List Tree → List Lexeme → Prop
  | stop {ws rest : List Lexeme}
      (h : ∀ s arena, s.stream.Shows ws → Yields turn s arena fun r s' after =>
        r = .stop ∧ s'.stream.Shows rest ∧ after = arena) : Loops turn ws [] rest
  | last {ws rest : List Lexeme} {t : Tree}
      (h : ∀ s arena, s.stream.Shows ws → Yields turn s arena fun r s' after =>
        ∃ n, r = .last n ∧ s'.stream.Shows rest ∧ Planted arena t n after) : Loops turn ws [t] rest
  | more {ws mid rest : List Lexeme} {t : Tree} {ts : List Tree}
      (h : ∀ s arena, s.stream.Shows ws → Yields turn s arena fun r s' after =>
        ∃ n, r = .more n ∧ s'.stream.Shows mid ∧ Planted arena t n after)
      (shorter : mid.length < ws.length) (more : Loops turn mid ts rest) : Loops turn ws (t :: ts) rest

theorem extend_stop {step : NodeId → ScriptReader (Option NodeId)} {turns : Nat} {n : NodeId} (hturns : 0 < turns)
    (h : Yields (step n) s arena fun r s' after => r = none ∧ s' = s ∧ after = arena) :
    Yields (Reader.extend step turns n) s arena fun m s' after => m = n ∧ s' = s ∧ after = arena := by
  obtain ⟨turns, rfl⟩ := Nat.exists_eq_succ_of_ne_zero (Nat.ne_of_gt hturns)
  refine h.seq ?_
  rintro _ _ _ ⟨rfl, rfl, rfl⟩
  exact done ⟨rfl, rfl, rfl⟩

/-- One step is made, and another is not. -/
theorem extend_once {step : NodeId → ScriptReader (Option NodeId)} {turns : Nat} {n : NodeId}
    {Q : NodeId → Input → Arena → Prop} (hturns : 1 < turns)
    (h : Yields (step n) s arena fun r s' after => ∃ m, r = some m ∧ Q m s' after)
    (hstop : ∀ m s' after, Q m s' after →
      Yields (step m) s' after fun r s'' after' => r = none ∧ s'' = s' ∧ after' = after) :
    Yields (Reader.extend step turns n) s arena Q := by
  obtain ⟨turns, rfl⟩ := Nat.exists_eq_succ_of_ne_zero (Nat.ne_of_gt (Nat.lt_of_succ_lt hturns))
  refine h.seq ?_
  rintro _ s' after ⟨m, rfl, hm⟩
  refine (extend_stop (Nat.lt_of_succ_lt_succ hturns) (hstop m s' after hm)).weaken ?_
  rintro _ _ _ ⟨rfl, rfl, rfl⟩
  exact hm

theorem collect_yields {turn : ScriptReader (Turn NodeId)} {ts : List Tree} (h : Loops turn ws ts rest) :
    ∀ (turns : Nat) (s : Input) (arena : Arena), ws.length < turns → s.stream.Shows ws →
      Yields (Reader.collect turn turns) s arena fun ns s' after =>
        s'.stream.Shows rest ∧ PlantedAll arena ts ns after := by
  induction h with
  | stop h =>
    rintro (_ | turns) s arena hlt hs
    · exact absurd hlt (Nat.not_lt_zero _)
    refine (h s arena hs).seq ?_
    rintro _ s' _ ⟨rfl, hs', rfl⟩
    exact done ⟨hs', .nil⟩
  | last h =>
    rintro (_ | turns) s arena hlt hs
    · exact absurd hlt (Nat.not_lt_zero _)
    refine (h s arena hs).seq ?_
    rintro _ s' after ⟨n, rfl, hs', hn⟩
    exact done ⟨hs', .cons hn .nil⟩
  | more h shorter _ ih =>
    rintro (_ | turns) s arena hlt hs
    · exact absurd hlt (Nat.not_lt_zero _)
    refine (h s arena hs).seq ?_
    rintro _ s' mid ⟨n, rfl, hs', hn⟩
    refine (ih turns s' mid (by omega) hs').seq ?_
    rintro ns s'' after ⟨hs'', hns⟩
    exact done ⟨hs'', .cons hn hns⟩

/-- A part of a list: it begins with a token of a kind in `begins`, and before one in `ends` the rule plants
the tree. -/
structure Item (item : ScriptReader NodeId) (begins ends : TokenKind → Prop) (part : List Lexeme) (t : Tree) :
    Prop where
  first : ∃ w ws, part = w :: ws ∧ begins w.kind
  plants : Plants item ends part t

variable {item : ScriptReader NodeId} {begins ends : TokenKind → Prop} {close : TokenKind}
  {parts : List (List Lexeme)} {ts : List Tree}

theorem itemsUntil_yields (hbegins : ∀ kind, begins kind → kind ≠ close ∧ ends kind) (hclose : ends close)
    (hw : w.kind = close) (items : List.Forall₂ (Item item begins ends) parts ts)
    (hs : s.stream.Shows (parts.flatten ++ w :: rest)) :
    Yields (itemsUntil close item) s arena fun ns s' after =>
      s'.stream.Shows rest ∧ PlantedAll arena ts ns after := by
  refine (turns_yields hs).seqSame ?_
  refine collect_yields ?_ _ _ _ (Nat.lt_succ_self _) hs
  clear hs
  induction items with
  | nil =>
    refine .stop fun s arena hs => (accept_yields hs hw).seq ?_
    rintro _ s' _ ⟨⟨t, rfl, -⟩, hs', rfl⟩
    exact done ⟨rfl, hs', rfl⟩
  | @cons part t parts ts hitem items ih =>
    obtain ⟨⟨v, vs, rfl, hv⟩, hplants⟩ := hitem
    have hends : ends (nextKind (parts.flatten ++ w :: rest)) := by
      cases items with
      | nil =>
        show ends w.kind
        rw [hw]
        exact hclose
      | cons hitem _ =>
        obtain ⟨v', vs', rfl, hv'⟩ := hitem.first
        exact (hbegins _ hv').2
    refine .more (fun s arena hs => ?_) ?_ ih
    · rw [List.flatten_cons, List.append_assoc] at hs
      refine (accept_none hs (hbegins _ hv).1).seqSame ?_
      refine (hplants _ _ _ hends hs).seq ?_
      rintro n s' after ⟨hs', hn⟩
      exact done ⟨n, rfl, hs', hn⟩
    · simp only [List.flatten_cons, List.length_append, List.length_cons]
      omega

theorem separatedUntil_yields (hbegins : ∀ kind, begins kind → kind ≠ close) (hcomma : ends .comma)
    (hclose : ends close) (hne : close ≠ .comma) (hw : w.kind = close)
    (items : List.Forall₂ (Item item begins ends) parts ts)
    (hs : s.stream.Shows (Phrase.commas parts ++ w :: rest)) :
    Yields (separatedUntil close item) s arena fun ns s' after =>
      s'.stream.Shows rest ∧ PlantedAll arena ts ns after := by
  refine (turns_yields hs).seqSame ?_
  refine collect_yields ?_ _ _ _ (Nat.lt_succ_self _) hs
  clear hs
  have hnext : nextKind (w :: rest) = close := hw
  induction items with
  | nil =>
    refine .stop fun s arena hs => (accept_yields hs hw).seq ?_
    rintro _ s' _ ⟨⟨t, rfl, -⟩, hs', rfl⟩
    exact done ⟨rfl, hs', rfl⟩
  | @cons part t parts ts hitem items ih =>
    obtain ⟨⟨v, vs, rfl, hv⟩, hplants⟩ := hitem
    cases items with
    | nil =>
      refine .last fun s arena hs => ?_
      refine (accept_none hs (hbegins _ hv)).seqSame ?_
      refine (hplants _ _ _ (hnext ▸ hclose) hs).seq ?_
      rintro n s' after ⟨hs', hn⟩
      refine (accept_none hs' (hnext ▸ hne)).seqSame ?_
      refine (require_yields hs' hw).seq ?_
      rintro _ s' _ ⟨-, hs', rfl⟩
      exact done ⟨n, rfl, hs', hn⟩
    | @cons part' _ parts _ _ items =>
      refine .more (fun s arena hs => ?_) ?_ ih
      · have hs : s.stream.Shows (v :: vs ++ Lexeme.fixed .comma :: (Phrase.commas (part' :: parts) ++ w :: rest)) := by
          simpa [Phrase.commas] using hs
        refine (accept_none hs (hbegins _ hv)).seqSame ?_
        refine (hplants _ _ (Lexeme.fixed .comma :: _) hcomma hs).seq ?_
        rintro n s' after ⟨hs', hn⟩
        refine (accept_yields hs' rfl).seq ?_
        rintro _ s' _ ⟨⟨t, rfl, -⟩, hs', rfl⟩
        exact done ⟨n, rfl, hs', hn⟩
      · simp only [Phrase.commas, List.length_append, List.length_cons]
        omega

end ScriptReader

end ScriptIndex
