import ScriptIndex.Proofs.ScriptSimulation
import ScriptIndex.Proofs.ScriptRuns
import ScriptIndex.Proofs.TypeRelocation

/-! # Reading a script elsewhere

A relocation is a comparison of runs (`Relocation.comparison`), so that a script makes the same nodes over the
same tokens, whatever the arena holds before and wherever the tokens stand. -/

namespace ScriptIndex

namespace Relocation
variable (m : Relocation)

structure DocTexts (a b : DocText) : Prop where
  start : m.near a.span.start b.span.start
  bytes : b.bytes = a.bytes

/-- Tokens that differ in their positions only. -/
structure Tokens (t t' : Token) : Prop where
  kind : t'.kind = t.kind
  span : m.Spans t.span t'.span
  bytes : t'.bytes = t.bytes
  doc : Option.Rel m.DocTexts t.doc t'.doc

/-- What ends the tokens, in both runs. -/
inductive Ends : Except SyntaxError Token → Except SyntaxError Token → Prop
  | ok {t t' : Token} (h : m.Tokens t t') : Ends (.ok t) (.ok t')
  | error {e e' : SyntaxError} (h : m.Errors e e') : Ends (.error e) (.error e')

structure Streams (s s' : Stream) : Prop where
  tokens : List.Forall₂ m.Tokens s.tokens s'.tokens
  last : m.Ends s.last s'.last

structure Inputs (s s' : Input) : Prop where
  stream : m.Streams s.stream s'.stream
  lastEnd : m.near s.lastEnd s'.lastEnd

/-- The second run takes place elsewhere. How the inputs are related, and what is lost, is left open. -/
def comparison (inputs after : Input → Input → Prop) (lost : Failure → Prop) : Comparison where
  World := Nat
  le := (· ≤ ·)
  Arenas size left right := m.Arenas left right ∧ left.size = size
  Ids := m.Ids
  Spans := m.Spans
  Tokens := m.Tokens
  Inputs := inputs
  After := after
  Fails := m.Failures
  LostLeft := lost
  LostRight _ := False

variable {m} {inputs after : Input → Input → Prop} {lost : Failure → Prop}

theorem Inputs.head {s s' : Input} (h : m.Inputs s s') :
    (m.comparison inputs after lost).Heads s.head s'.head := by
  obtain ⟨⟨tokens, last⟩, lastEnd⟩ := s
  obtain ⟨⟨tokens', last'⟩, lastEnd'⟩ := s'
  obtain ⟨⟨htokens, hlast⟩, -⟩ := h
  cases htokens with
  | cons ht _ => exact .ok ht
  | nil =>
    cases hlast with
    | ok ht => exact .ok ht
    | error he => exact .error (.rejected he)

theorem Inputs.head_of_ok {s s' : Input} {t : Token} (h : m.Inputs s s') (ht : s.head = .ok t) :
    ∃ t', s'.head = .ok t' ∧ m.Tokens t t' := by
  have hheads : (m.comparison m.Inputs m.Inputs fun _ => False).Heads s.head s'.head := h.head
  rw [ht] at hheads
  generalize s'.head = head at hheads
  cases hheads with
  | ok ht => exact ⟨_, rfl, ht⟩

theorem Inputs.read {s s' : Input} {t t' : Token} (h : m.Inputs s s') (hl : s.head = .ok t) (hr : s'.head = .ok t') :
    m.Inputs (s.read t) (s'.read t') := by
  obtain ⟨u, hu, htokens⟩ := h.head_of_ok hl
  cases hr.symm.trans hu
  refine ⟨⟨?_, h.stream.last⟩, htokens.span.stop⟩
  obtain ⟨⟨tokens, last⟩, lastEnd⟩ := s
  obtain ⟨⟨tokens', last'⟩, lastEnd'⟩ := s'
  cases h.stream.tokens with
  | nil => exact .nil
  | cons _ hrest => exact hrest

end Relocation

namespace Build
open Relocation

variable {m : Relocation} {inputs after : Input → Input → Prop} {lost : Failure → Prop} {size : Nat} {α β : Type}

theorem Relocates.follows {x : Build α} {y : Build β} {R : Nat → α → β → Prop} (h : Relocates m size x y R) :
    Follows (m.comparison inputs after lost) size x y R := by
  rintro left right ⟨harenas, rfl⟩
  have h := h left right harenas (Nat.le_refl _)
  generalize x left = r at h
  generalize y right = r' at h
  cases h with
  | ok harenas' hle hab => exact .ok hle ⟨harenas', rfl⟩ hab
  | error harenas' hfail => exact .error ⟨harenas', rfl⟩ hfail

theorem describe_relocates {t t' : Token} (ht : m.Tokens t t') {n n' : NodeId} (hn : m.Ids size n n') :
    Relocates m size (describe t n) (describe t' n') fun _ _ _ => True := by
  obtain ⟨kind, span, bytes, doc⟩ := t
  obtain ⟨kind', span', bytes', doc'⟩ := t'
  cases ht.doc with
  | none => exact .done fun _ _ => trivial
  | some hdoc =>
    exact (document_relocates hn ⟨hdoc.start, hdoc.bytes⟩).seq fun _ _ _ _ _ => .done fun _ _ => trivial

end Build

namespace Relocation

theorem sound {m : Relocation} {inputs after : Input → Input → Prop} {lost : Failure → Prop}
    (h : (m.comparison inputs after lost).Steps) : (m.comparison inputs after lost).Sound where
  toSteps := h
  le_refl := Nat.le_refl
  le_trans := Nat.le_trans
  ids_mono h hle := h.mono hle
  kind h := h.kind
  bytes h := h.bytes
  token_span h := h.span
  stop_span h := ⟨h.span.stop, h.span.stop⟩
  reject _ _ h := .rejected ⟨rfl, h, rfl⟩
  exhausted := .exhausted
  node _ hs hc := (Build.Relocates.node hs hc).follows
  kind? h hn := h.1.kind? (h.2 ▸ hn)
  document ht hn := (Build.describe_relocates ht hn).follows

/-- The same tokens, at other places. -/
theorem steps (m : Relocation) (lost : Failure → Prop) : (m.comparison m.Inputs m.Inputs lost).Steps where
  span_from hs ht := ⟨ht.span.start, m.near_max hs.lastEnd ht.span.stop⟩
  after h := h
  head h := h.head
  read_after h hl hr _ := h.read hl hr
  read h hl hr _ := h.read hl hr
  turns h := .inl h.stream.tokens.length_eq
  ended h := .inl h

end Relocation

namespace ScriptReader
open Relocation

theorem Alike.moves {m : Relocation} {x : ScriptReader NodeId}
    (h : Alike (m.comparison m.Inputs m.Inputs fun _ => False) m.Inputs x x) : Reader.Moves m m.Inputs x := by
  intro size s s' hs left right harenas hle
  have h := h left.size s s' hs left right ⟨harenas, rfl⟩
  generalize x s left = r at h
  generalize x s' right = r' at h
  cases h with
  | ok hle harenas hn =>
    obtain ⟨harenas, rfl⟩ := harenas
    exact .ok harenas hle hn
  | error harenas hfail => exact .error harenas.1 hfail
  | lostLeft hlost => exact hlost.elim
  | lostRight hlost => exact hlost.elim

/-- Both runs take the script to begin where the source begins. -/
theorem script_moves (m : Relocation) (hzero : m.near 0 0) (module : Option ModuleId) :
    Reader.Moves m m.Inputs (script module) :=
  (script_follows (sound (m.steps _)) (fun _ _ h => h) (fun _ _ ht => ⟨hzero, ht.span.stop⟩) module).moves

theorem expression_moves (m : Relocation) : Reader.Moves m m.Inputs expression :=
  (expression_follows (sound (m.steps _))).moves

end ScriptReader

end ScriptIndex
