import ScriptIndex.Proofs.Operands
import ScriptIndex.Proofs.Operations

/-! # Operators by precedence

Operands in parentheses with binary operators between them are read as the only grouped tree that is read in their
order (`Build.expression_grouped`). The rule for operators of at least some level reads every grouped tree with
such an operator at its root: its loop goes down the left side of the tree, and the rule of the next level reads
each right operand. -/

namespace ScriptIndex

namespace Phrase
open Lexeme

/-- An operator and its right operand in parentheses, and so on. -/
def entryWords (rest : List (BinaryOp × Operand)) : List Lexeme :=
  rest.flatMap fun entry => fixed (binarySign entry.1) :: parens entry.2.words

def chainWords (c : Chain Operand) : List Lexeme := parens c.first.words ++ entryWords c.rest

theorem entryWords_append (rest rest' : List (BinaryOp × Operand)) :
    entryWords (rest ++ rest') = entryWords rest ++ entryWords rest' :=
  List.flatMap_append

theorem entryWords_cons (op : BinaryOp) (c : Chain Operand) :
    entryWords ((op, c.first) :: c.rest) = fixed (binarySign op) :: chainWords c := by
  simp [entryWords, chainWords]

theorem chainWords_reads (c : Chain Operand) : AllRead (chainWords c) := by
  have hentries : ∀ entry ∈ c.rest, AllRead (fixed (binarySign entry.1) :: parens entry.2.words) := fun entry _ =>
    allRead_cons.2 ⟨reads_binarySign entry.1, allRead_parens.2 entry.2.reads⟩
  refine allRead_append.2 ⟨allRead_parens.2 c.first.reads, fun w hw => ?_⟩
  obtain ⟨entry, hentry, hw⟩ := List.mem_flatMap.1 hw
  exact hentries entry hentry w hw

/-- The tree of nodes, over those of the operands. -/
def operationTree : Operation Operand → Tree
  | .operand u => u.tree
  | .binary op left right => .node (.binary op) [operationTree left, operationTree right]

end Phrase

namespace ScriptReader
open Reader Reader.Yields Phrase Lexeme

theorem binaryOp?_binarySign (op : BinaryOp) : (binarySign op).binaryOp? = some (op, op.level) := by
  cases op <;> rfl

/-- An operator ends those that bind tighter. -/
theorem endsOperation_binarySign {least : Nat} {op : BinaryOp} (h : op.level < least) :
    EndsOperation least (binarySign op) := by
  refine ⟨Grammar.endsChain_binarySign op, fun op' precedence hop => ?_⟩
  cases (binaryOp?_binarySign op).symm.trans hop
  exact h

namespace Grammar

variable {g : Grammar} {depth : Nat}

/-- The rules of operands and of operators read what has at most `depth` lexemes. -/
structure Climbs (g : Grammar) (depth : Nat) : Prop where
  operand (u : Operand) (h : u.words.length < depth) : Plants g.assignment (· = .parenClose) u.words u.tree
  binary (least : Nat) {e : Operation Operand} (he : e.Grouped) (hroot : ∀ op ∈ e.root?, least ≤ op.level)
    (h : (chainWords e.inOrder).length ≤ depth) :
    Plants (g.binary least) (EndsOperation least) (chainWords e.inOrder) (operationTree e)

namespace Climbs

/-- The loop over the operators on the left side of a tree, before what ends them. -/
theorem extend (hg : g.Climbs depth) {least : Nat} {start : Token} {base : Arena}
    {Q : NodeId → Input → Arena → Prop} : ∀ {e : Operation Operand} {rest : List Lexeme}, e.Grouped →
    (∀ op ∈ e.root?, least ≤ op.level ∧ EndsOperation (op.level + 1) (nextKind rest)) →
    (chainWords e.inOrder).length ≤ depth + 1 →
    (∀ turns n s arena, rest.length < turns → s.stream.Shows rest → Planted base (operationTree e) n arena →
      Yields (Reader.extend (g.operation least start) turns n) s arena Q) →
    ∀ turns n s arena, (entryWords e.inOrder.rest ++ rest).length < turns →
      s.stream.Shows (entryWords e.inOrder.rest ++ rest) → Planted base e.inOrder.first.tree n arena →
      Yields (Reader.extend (g.operation least start) turns n) s arena Q
  | .operand u, rest, _, _, _, hnext => hnext
  | .binary op left right, rest, ⟨hleft, hright, hl, hr⟩, hroot, hlength, hnext => by
    obtain ⟨hle, hends⟩ := hroot op rfl
    have hwords : entryWords (Operation.binary op left right).inOrder.rest ++ rest =
        entryWords left.inOrder.rest ++ (fixed (binarySign op) :: (chainWords right.inOrder ++ rest)) := by
      rw [Operation.inOrder, entryWords_append, entryWords_cons, List.append_assoc, List.cons_append]
    have hsum : (chainWords (Operation.binary op left right).inOrder).length =
        (chainWords left.inOrder).length + ((chainWords right.inOrder).length + 1) := by
      simp [chainWords, Operation.inOrder, entryWords_append, entryWords_cons, Nat.add_assoc]
    rw [hwords]
    refine hg.extend hl (fun op' h => ⟨Nat.le_trans hle (hleft op' h), ?_⟩) (by omega) ?_
    · exact endsOperation_binarySign (Nat.lt_succ_of_le (hleft op' h))
    · intro turns n s arena hturns hs hn
      obtain ⟨turns, rfl⟩ := Nat.exists_eq_succ_of_ne_zero (Nat.ne_of_gt (Nat.zero_lt_of_lt hturns))
      have hplants := hg.binary (op.level + 1) hr hright (by omega)
      refine (operation_plants (binaryOp?_binarySign op) hle hplants hends hn hs).seq ?_
      rintro _ s' after ⟨m, rfl, hs', hm⟩
      refine hnext turns m s' after ?_ hs' hm
      simp only [List.length_cons, List.length_append] at hturns
      omega

theorem binaryRule (hg : g.Climbs depth) (least : Nat) {e : Operation Operand} (he : e.Grouped)
    (hroot : ∀ op ∈ e.root?, least ≤ op.level) (hlength : (chainWords e.inOrder).length ≤ depth + 1) :
    Plants (g.binaryRule least) (EndsOperation least) (chainWords e.inOrder) (operationTree e) := by
  intro s arena rest hends hs
  have hfirst : e.inOrder.first.words.length < depth := by
    rw [chainWords, List.length_append, length_parens] at hlength
    omega
  have hunary := unaryRule_of_primary_parens
    (primary_of_parenthesized (parenthesized_of_assignment (hg.operand _ hfirst) rfl))
  have hchain : EndsChain (nextKind (entryWords e.inOrder.rest ++ rest)) := by
    cases e.inOrder.rest with
    | nil => exact hends.chain
    | cons entry _ => exact endsChain_binarySign entry.1
  rw [chainWords, List.append_assoc] at hs
  refine peek_seq hs fun start _ => ?_
  refine (hunary _ _ _ hchain hs).seq ?_
  rintro n s' mid ⟨hs', hn⟩
  refine (turns_yields hs').seqSame ?_
  refine hg.extend he (fun op h => ⟨hroot op h, hends.mono (Nat.le_succ_of_le (hroot op h))⟩) hlength ?_ _ n s' mid
    (Nat.lt_succ_self _) hs' hn
  intro turns m s'' after hturns hs'' hm
  refine (extend_stop (Nat.zero_lt_of_lt hturns) (operation_none hs'' hends)).weaken ?_
  rintro _ _ _ ⟨rfl, rfl, rfl⟩
  exact ⟨hs'', hm⟩

end Climbs

theorem within_climbs : ∀ depth, (within depth).Climbs depth
  | 0 => by
    refine ⟨fun u h => absurd h (Nat.not_lt_zero _), fun least e _ _ h => ?_⟩
    rw [chainWords, List.length_append, length_parens] at h
    omega
  | depth + 1 => ⟨fun u h => u.plants h, fun least _ he hroot h => (within_climbs depth).binaryRule least he hroot h⟩

end Grammar

end ScriptReader

namespace Build
open Phrase ScriptReader.Grammar

/-- Operands in parentheses and operators between them, written with spaces between all tokens, are read as a tree
of the operators over what the operands are read as alone. It is the only one in which each operator takes on its
left what binds at least as tightly, and on its right what binds tighter. -/
theorem expression_grouped (c : Chain Operand) (options : Options) (arena : Arena) :
    ∃ e : Operation Operand, (e.Grouped ∧ e.inOrder = c) ∧ (∀ e', e'.Grouped ∧ e'.inOrder = c → e' = e) ∧
      ∃ n after, expression (spaced (chainWords c)) options arena = .ok n after ∧
        after.Holds (operationTree e) none n ∧ Grown arena (operationTree e).size after := by
  refine ⟨.group c, Operation.grouped_iff_eq_group.2 rfl, fun e' h => Operation.grouped_iff_eq_group.1 h, ?_⟩
  obtain ⟨hgrouped, horder⟩ := Operation.grouped_iff_eq_group.2 (rfl : Operation.group c = .group c)
  have hroot : ∀ op ∈ (Operation.group c).root?, 1 ≤ op.level := fun op _ => by cases op <;> decide
  have hlength : (chainWords (Operation.group c).inOrder).length ≤ (chainWords c).length + 1 := by
    rw [horder]
    exact Nat.le_succ _
  have hbinary := (within_climbs (chainWords c).length).binaryRule 1 hgrouped hroot hlength
  rw [horder] at hbinary
  have hshows : (Input.ofStream (options.stream (spaced (chainWords c)))).stream.Shows (chainWords c) :=
    options.stream_shows (spaced_shows (chainWords_reads c))
  obtain ⟨n, s, after, hrun, -, hplanted⟩ :=
    ScriptReader.expression_plants hshows arena (assignmentRule_of_binaryRule hbinary)
  refine ⟨n, after, ?_, hplanted.holds_none, hplanted.grown.1⟩
  rw [expression, StateT.run', map_eq_pure_bind, run_bind_ok hrun]
  rfl

end Build

end ScriptIndex
