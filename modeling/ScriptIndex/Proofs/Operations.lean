import ScriptIndex.Arena.Kind

/-! # Grouping operators

Operands with binary operators between them are the reading in order of many trees, but of only one in which
operators that bind tighter stand lower and operators of one level lean to the left
(`Operation.grouped_iff_eq_group`). -/

namespace ScriptIndex

/-- How tightly the operator binds. -/
def BinaryOp.level : BinaryOp → Nat
  | .logicalOr => 1
  | .logicalAnd => 2
  | .equality | .inequality | .strictEquality | .strictInequality => 3
  | .lessThan | .greaterThan => 4
  | .add | .sub => 5
  | .mul | .div => 6

/-- An operand, and more operands, each with an operator before it. -/
structure Chain (α : Type) where
  first : α
  rest : List (BinaryOp × α)
deriving Repr, DecidableEq

/-- A tree of operators over operands. -/
inductive Operation (α : Type)
  | operand (a : α)
  | binary (op : BinaryOp) (left right : Operation α)
deriving Repr, DecidableEq

namespace Operation

variable {α : Type}

def root? : Operation α → Option BinaryOp
  | operand _ => none
  | binary op _ _ => some op

/-- The operands and operators from left to right. -/
def inOrder : Operation α → Chain α
  | operand a => ⟨a, []⟩
  | binary op left right =>
    ⟨left.inOrder.first, left.inOrder.rest ++ (op, right.inOrder.first) :: right.inOrder.rest⟩

/-- At every operator, the one on the left binds at least as tightly and the one on the right tighter. -/
def Grouped : Operation α → Prop
  | operand _ => True
  | binary op left right => (∀ op' ∈ left.root?, op.level ≤ op'.level) ∧ (∀ op' ∈ right.root?, op.level < op'.level) ∧
      left.Grouped ∧ right.Grouped

/-- One more operator and operand at the end. The operator takes what does not bind less tightly. -/
def push : Operation α → BinaryOp → α → Operation α
  | operand a, op, b => binary op (operand a) (operand b)
  | binary op' left right, op, b =>
    if op.level ≤ op'.level then binary op (binary op' left right) (operand b)
    else binary op' left (right.push op b)

def pushAll (e : Operation α) (rest : List (BinaryOp × α)) : Operation α :=
  rest.foldl (fun e entry => e.push entry.1 entry.2) e

/-- The tree that a chain is read as. -/
def group (c : Chain α) : Operation α := (operand c.first).pushAll c.rest

variable {e left right : Operation α} {op op' : BinaryOp} {a b : α}

theorem pushAll_append (rest rest' : List (BinaryOp × α)) :
    e.pushAll (rest ++ rest') = (e.pushAll rest).pushAll rest' :=
  List.foldl_append

theorem inOrder_push (op : BinaryOp) (b : α) : ∀ e : Operation α,
    (e.push op b).inOrder = ⟨e.inOrder.first, e.inOrder.rest ++ [(op, b)]⟩
  | operand a => rfl
  | binary op' left right => by
    rw [push]
    split
    · rfl
    · simp [inOrder, inOrder_push op b right]

theorem inOrder_pushAll : ∀ (rest : List (BinaryOp × α)) (e : Operation α),
    (e.pushAll rest).inOrder = ⟨e.inOrder.first, e.inOrder.rest ++ rest⟩
  | [], e => by simp [pushAll]
  | (op, b) :: rest, e => by
    show ((e.push op b).pushAll rest).inOrder = _
    simp [inOrder_pushAll rest, inOrder_push]

/-- A chain is read in its order. -/
theorem inOrder_group (c : Chain α) : (group c).inOrder = c :=
  inOrder_pushAll c.rest (operand c.first)

theorem root?_push (h : op' ∈ (e.push op b).root?) : op' = op ∨ op' ∈ e.root? ∧ op'.level < op.level := by
  cases e with
  | operand a => exact .inl (Option.some.inj h).symm
  | binary op₁ left right =>
    rw [push] at h
    split at h
    · exact .inl (Option.some.inj h).symm
    · next hlt =>
      cases Option.some.inj h
      exact .inr ⟨rfl, Nat.lt_of_not_le hlt⟩

theorem Grouped.push (op : BinaryOp) (b : α) : ∀ {e : Operation α}, e.Grouped → (e.push op b).Grouped
  | operand a, _ => ⟨by simp [root?], by simp [root?], trivial, trivial⟩
  | binary op' left right, ⟨hleft, hright, hl, hr⟩ => by
    rw [Operation.push]
    split
    · next hle =>
      have hroot : ∀ op'' ∈ (binary op' left right).root?, op.level ≤ op''.level := by
        rintro _ ⟨⟩
        exact hle
      exact ⟨hroot, by simp [root?], ⟨hleft, hright, hl, hr⟩, trivial⟩
    · next hlt =>
      refine ⟨hleft, fun op'' h => ?_, hl, hr.push op b⟩
      rcases root?_push h with rfl | ⟨h, -⟩
      · exact Nat.lt_of_not_le hlt
      · exact hright op'' h

theorem Grouped.pushAll : ∀ (rest : List (BinaryOp × α)) {e : Operation α}, e.Grouped → (e.pushAll rest).Grouped
  | [], _, h => h
  | (op, b) :: rest, _, h => (h.push op b).pushAll rest

theorem grouped_group (c : Chain α) : (group c).Grouped :=
  Grouped.pushAll c.rest (e := operand c.first) trivial

/-! ### There is no other tree -/

/-- No operator binds less tightly than the one at the root. -/
theorem Grouped.le_level : ∀ {e : Operation α} {least : Nat}, e.Grouped → (∀ op ∈ e.root?, least ≤ op.level) →
    ∀ entry ∈ e.inOrder.rest, least ≤ entry.1.level
  | operand _, _, _, _, _, hmem => by cases hmem
  | binary op left right, least, ⟨hleft, hright, hl, hr⟩, hroot, entry, hmem => by
    have hle : least ≤ op.level := hroot op rfl
    rcases List.mem_append.1 hmem with hmem | hmem
    · exact Nat.le_trans hle (hl.le_level hleft entry hmem)
    · rcases List.mem_cons.1 hmem with rfl | hmem
      · exact hle
      · exact Nat.le_trans hle (hr.le_level (fun op' h => Nat.le_of_lt (hright op' h)) entry hmem)

theorem push_of_le (h : ∀ op' ∈ e.root?, op.level ≤ op'.level) : e.push op b = binary op e (operand b) := by
  cases e with
  | operand a => rfl
  | binary op' left right => exact if_pos (h op' rfl)

/-- What binds tighter goes to the right operand. -/
theorem pushAll_right : ∀ {rest : List (BinaryOp × α)} {right : Operation α},
    (∀ entry ∈ rest, op.level < entry.1.level) →
      (binary op left right).pushAll rest = binary op left (right.pushAll rest)
  | [], _, _ => rfl
  | (op', b) :: rest, right, h => by
    obtain ⟨hop, hrest⟩ := List.forall_mem_cons.1 h
    have hpush : (binary op left right).push op' b = binary op left (right.push op' b) := if_neg (Nat.not_le.2 hop)
    show ((binary op left right).push op' b).pushAll rest = _
    rw [hpush, pushAll_right hrest]
    rfl

/-- A grouped tree is the one that its reading is read as. -/
theorem Grouped.group_inOrder : ∀ {e : Operation α}, e.Grouped → group e.inOrder = e
  | operand _, _ => rfl
  | binary op left right, ⟨hleft, hright, hl, hr⟩ => by
    have htighter : ∀ entry ∈ right.inOrder.rest, op.level < entry.1.level := hr.le_level hright
    calc group (binary op left right).inOrder
        = ((group left.inOrder).push op right.inOrder.first).pushAll right.inOrder.rest := pushAll_append _ _
      _ = (left.push op right.inOrder.first).pushAll right.inOrder.rest := by rw [hl.group_inOrder]
      _ = (binary op left (operand right.inOrder.first)).pushAll right.inOrder.rest := by rw [push_of_le hleft]
      _ = binary op left (group right.inOrder) := pushAll_right htighter
      _ = binary op left right := by rw [hr.group_inOrder]

theorem grouped_iff_eq_group {c : Chain α} : e.Grouped ∧ e.inOrder = c ↔ e = group c := by
  constructor
  · rintro ⟨h, rfl⟩
    exact h.group_inOrder.symm
  · rintro rfl
    exact ⟨grouped_group c, inOrder_group c⟩

example : group (Chain.mk 0 [(.sub, 1), (.mul, 2), (.sub, 3)]) =
    .binary .sub (.binary .sub (.operand 0) (.binary .mul (.operand 1) (.operand 2))) (.operand 3) := by decide

end Operation

end ScriptIndex
