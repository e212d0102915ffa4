import Mathlib.Data.Finset.Card
import Mathlib.Data.Finset.Range
import Mathlib.Data.List.Nodup
import Mathlib.Logic.Relation
import ScriptIndex.Arena.Name

/-! # Links between nodes

A node has links to its children and to the types in its documentation. In a linked arena without
cycles each node has a rank below the size of the arena, which falls along every link, so that recursions
as deep as the arena is large come to the end of every path. -/

namespace ScriptIndex.Arena

variable {arena : Arena} {n m root a b : NodeId}

def IsParent (arena : Arena) (p c : NodeId) : Prop := c ∈ arena.children p

/-- `n` is in the tree below `root`. -/
def Below (arena : Arena) (root n : NodeId) : Prop := Relation.ReflTransGen arena.IsParent root n

def Link (arena : Arena) (n m : NodeId) : Prop := m ∈ arena.children n ∨ m ∈ arena.typeRoots n

/-- Parent and child links are inverse to each other, and no link leaves the arena. -/
structure Linked (arena : Arena) : Prop where
  mem_children : ∀ n c, c ∈ arena.children n ↔ arena.parent? c = some n
  typeRoots_lt : ∀ n t, t ∈ arena.typeRoots n → t < arena.size

def Acyclic (arena : Arena) : Prop := ∀ n, ¬ Relation.TransGen arena.Link n n

open Classical in
/-- How many nodes the links of a node lead to. -/
noncomputable def rank (arena : Arena) (n : NodeId) : Nat :=
  ((Finset.range arena.size).filter (Relation.TransGen arena.Link n)).card

theorem Linked.lt_of_link (hl : arena.Linked) (h : arena.Link n m) : m < arena.size := by
  rcases h with h | h
  · exact lt_of_parent? ((hl.mem_children n m).1 h)
  · exact hl.typeRoots_lt n m h

theorem acyclic_of_measure (measure : NodeId → Nat) (h : ∀ n m, arena.Link n m → measure m < measure n) :
    arena.Acyclic := by
  have hlt : ∀ n m, Relation.TransGen arena.Link n m → measure m < measure n := by
    intro n m hnm
    induction hnm with
    | single h1 => exact h _ _ h1
    | tail _ h1 ih => exact Nat.lt_trans (h _ _ h1) ih
  exact fun n hn => Nat.lt_irrefl _ (hlt n n hn)

namespace Acyclic
variable (ha : arena.Acyclic) (hl : arena.Linked)
include ha hl

open Classical in
theorem rank_lt (h : arena.Link n m) : arena.rank m < arena.rank n := by
  refine Finset.card_lt_card ((Finset.ssubset_iff_of_subset fun k hk => ?_).2 ⟨m, ?_, fun hm => ?_⟩)
  · obtain ⟨hlt, hk⟩ := Finset.mem_filter.1 hk
    exact Finset.mem_filter.2 ⟨hlt, hk.head h⟩
  · exact Finset.mem_filter.2 ⟨Finset.mem_range.2 (hl.lt_of_link h), .single h⟩
  · exact ha m (Finset.mem_filter.1 hm).2

open Classical in
omit hl in
theorem rank_lt_size (h : n < arena.size) : arena.rank n < arena.size := by
  have hsub : (Finset.range arena.size).filter (Relation.TransGen arena.Link n) ⊂ Finset.range arena.size :=
    Finset.filter_ssubset.2 ⟨n, Finset.mem_range.2 h, ha n⟩
  calc arena.rank n < (Finset.range arena.size).card := Finset.card_lt_card hsub
    _ = arena.size := Finset.card_range _

open Classical in
omit hl in
/-- Outside the arena there are no links. -/
theorem rank_lt_of_pos (hpos : 0 < arena.size) (n : NodeId) : arena.rank n < arena.size := by
  rcases Nat.lt_or_ge n arena.size with h | h
  · exact ha.rank_lt_size h
  · have hnone : ∀ m, ¬ Relation.TransGen arena.Link n m := by
      intro m hm
      obtain ⟨m', hlink, -⟩ := Relation.TransGen.head'_iff.1 hm
      rcases hlink with hc | ht
      · exact absurd (lt_of_mem_children hc) (Nat.not_lt.2 h)
      · simp [typeRoots, doc?, node?_eq_none h] at ht
    rw [rank, Finset.filter_eq_empty_iff.2 fun m _ => hnone m, Finset.card_empty]
    exact hpos

end Acyclic

/-! ### Trees of children -/

theorem Acyclic.not_below_of_isParent (ha : arena.Acyclic) (h : arena.IsParent n m) : ¬ arena.Below m n := by
  intro hb
  have hb : Relation.ReflTransGen arena.Link m n := Relation.ReflTransGen.mono (fun _ _ hc => Or.inl hc) _ _ hb
  exact ha n (Relation.TransGen.head' (Or.inl h) hb)

namespace Linked
variable (hl : arena.Linked)
include hl

theorem parent_unique {p q : NodeId} (hp : arena.IsParent p n) (hq : arena.IsParent q n) : p = q := by
  have hp := (hl.mem_children p n).1 hp
  have hq := (hl.mem_children q n).1 hq
  exact Option.some.inj (hp.symm.trans hq)

/-- Two nodes above one node are above one another. -/
theorem below_or_below (h : arena.Below a n) (h' : arena.Below b n) : arena.Below a b ∨ arena.Below b a := by
  induction h with
  | refl => exact .inr h'
  | @tail p n hp hpn ih =>
    rcases Relation.ReflTransGen.cases_tail h' with rfl | ⟨q, hq, hqn⟩
    · exact .inl (hp.tail hpn)
    · exact ih (hl.parent_unique hqn hpn ▸ hq)

theorem sibling_eq_of_below {p : NodeId} (ha : arena.Acyclic) (hn : arena.IsParent p n)
    (hm : arena.IsParent p m) (h : arena.Below n m) : n = m := by
  rcases Relation.ReflTransGen.cases_tail h with rfl | ⟨q, hq, hqm⟩
  · rfl
  · exact absurd (hl.parent_unique hqm hm ▸ hq) (ha.not_below_of_isParent hn)

theorem eq_of_below_free (hfree : arena.parent? b = none) (h : arena.Below a b) : b = a := by
  rcases Relation.ReflTransGen.cases_tail h with heq | ⟨p, -, hp⟩
  · exact heq
  · rw [(hl.mem_children p b).1 hp] at hfree
    cases hfree

/-- Trees below different nodes without parent are disjoint. -/
theorem disjoint_below (hne : a ≠ b) (hfa : arena.parent? a = none) (hfb : arena.parent? b = none)
    (h : arena.Below a n) : ¬ arena.Below b n := by
  intro h'
  rcases hl.below_or_below h h' with hab | hba
  · exact hne (hl.eq_of_below_free hfb hab).symm
  · exact hne (hl.eq_of_below_free hfa hba)

end Linked

end ScriptIndex.Arena
