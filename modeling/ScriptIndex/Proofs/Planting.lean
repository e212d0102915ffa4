import ScriptIndex.Proofs.Phrases
import ScriptIndex.Proofs.Runs

/-! # Planting trees

A tree is *planted* in an arena by making its nodes one after the other, children before their parents. An
arena holds a tree that was planted in it, and is otherwise as it was. -/

namespace ScriptIndex

mutual

def Tree.size : Tree → Nat
  | .node _ trees => Tree.sizes trees + 1

def Tree.sizes : List Tree → Nat
  | [] => 0
  | t :: ts => t.size + Tree.sizes ts

end

mutual

/-- The node is the root of the tree, under the given parent, and no node of the tree is documented. -/
def Arena.Holds (arena : Arena) : Tree → Option NodeId → NodeId → Prop
  | .node kind trees, parent, n => ∃ span children,
      arena.node? n = some { kind, span, parent, children, doc := none } ∧ children.Nodup ∧
        arena.HoldsAll trees n children

/-- The nodes are the roots of the trees, in order. -/
def Arena.HoldsAll (arena : Arena) : List Tree → NodeId → List NodeId → Prop
  | [], _, [] => True
  | t :: ts, parent, n :: ns => arena.Holds t (some parent) n ∧ arena.HoldsAll ts parent ns
  | _, _, _ => False

end

mutual

/-- `after` is `arena` with the nodes of the tree made in it, its root `n` last. -/
inductive Planted : Arena → Tree → NodeId → Arena → Prop
  | node {arena mid after : Arena} {kind : Kind} {span : Span} {trees : List Tree} {children : List NodeId}
      (all : PlantedAll arena trees children mid) (made : Made mid kind span children after) :
      Planted arena (.node kind trees) mid.size after

inductive PlantedAll : Arena → List Tree → List NodeId → Arena → Prop
  | nil {arena : Arena} : PlantedAll arena [] [] arena
  | cons {arena mid after : Arena} {t : Tree} {ts : List Tree} {n : NodeId} {ns : List NodeId}
      (head : Planted arena t n mid) (tail : PlantedAll mid ts ns after) :
      PlantedAll arena (t :: ts) (n :: ns) after

end

/-- `after` is `arena` with some more nodes. -/
structure Grown (arena : Arena) (count : Nat) (after : Arena) : Prop where
  size : after.size = arena.size + count
  old : ∀ n : Nat, n < arena.size → after.node? n = arena.node? n

mutual

theorem Planted.grown {arena after : Arena} {t : Tree} {n : Nat} :
    Planted arena t n after → Grown arena t.size after ∧ arena.size ≤ n ∧ after.size = n + 1
  | @Planted.node arena mid after kind _ trees children all made => by
    obtain ⟨⟨hsize, hold⟩, hchildren, -⟩ := all.grown
    have hsize' : after.size = arena.size + Tree.size (.node kind trees) := by
      rw [made.size, hsize, Tree.size, Nat.add_assoc]
    refine ⟨⟨hsize', fun k hk => ?_⟩, hsize ▸ Nat.le_add_right _ _, made.size⟩
    have hne : k ≠ mid.size := by omega
    have hnotMem : k ∉ children := fun hmem => absurd (hchildren k hmem).1 (Nat.not_le.2 hk)
    rw [made.node?, if_neg hne, if_neg hnotMem, hold k hk]

/-- The roots come one after the other, among the new nodes. -/
theorem PlantedAll.grown {arena after : Arena} {ts : List Tree} {ns : List NodeId} :
    PlantedAll arena ts ns after → Grown arena (Tree.sizes ts) after ∧
      (∀ n : Nat, n ∈ ns → arena.size ≤ n ∧ n < after.size) ∧ ns.Pairwise (· < ·)
  | .nil => ⟨⟨rfl, fun _ _ => rfl⟩, by simp, .nil⟩
  | @PlantedAll.cons arena mid after t ts n ns head tail => by
    obtain ⟨⟨hsize, hold⟩, hroot, hlast⟩ := head.grown
    obtain ⟨⟨hsize', hold'⟩, hroots, hpairs⟩ := tail.grown
    refine ⟨⟨?_, fun k hk => ?_⟩, List.forall_mem_cons.2 ⟨by omega, fun k hk => ?_⟩,
      List.pairwise_cons.2 ⟨fun k hk => ?_, hpairs⟩⟩
    · rw [hsize', hsize, Tree.sizes, Nat.add_assoc]
    · rw [hold' k (by omega), hold k hk]
    · have hk := hroots k hk
      omega
    · exact Nat.lt_of_lt_of_le (hlast ▸ Nat.lt_succ_self n) (hroots k hk).1

end

mutual

/-- The arena holds the tree, also after its root was put under a parent. -/
theorem Planted.holds {arena after later : Arena} {t : Tree} {n : Nat} {parent : Option NodeId}
    (hroot : later.node? n = (after.node? n).map fun x => { x with parent := parent })
    (hrest : ∀ k : Nat, arena.size ≤ k → k < n → later.node? k = after.node? k) :
    Planted arena t n after → later.Holds t parent n
  | @Planted.node arena mid after kind span trees children all made => by
    obtain ⟨⟨hsize, hold⟩, hchildren, hpairs⟩ := all.grown
    refine ⟨span, children, ?_, hpairs.imp Nat.ne_of_lt, all.holds fun k hk hlt => ?_⟩
    · rw [hroot, made.node?, if_pos rfl]
      rfl
    · rw [hrest k hk hlt, made.node?, if_neg (Nat.ne_of_lt hlt)]

theorem PlantedAll.holds {arena after later : Arena} {ts : List Tree} {ns : List NodeId} {parent : NodeId}
    (hk : ∀ k : Nat, arena.size ≤ k → k < after.size → later.node? k =
      if k ∈ ns then (after.node? k).map fun x => { x with parent := some parent } else after.node? k) :
    PlantedAll arena ts ns after → later.HoldsAll ts parent ns
  | .nil => trivial
  | @PlantedAll.cons arena mid after t ts n ns head tail => by
    obtain ⟨⟨hsize, hold⟩, hroot, hlast⟩ := head.grown
    obtain ⟨⟨hsize', hold'⟩, hroots, hpairs⟩ := tail.grown
    have hnotMem (k : Nat) (hlt : k < mid.size) : k ∉ ns := fun hmem =>
      absurd (hroots k hmem).1 (Nat.not_le.2 hlt)
    refine ⟨head.holds ?_ fun k hle hlt => ?_, tail.holds fun k hle hlt => ?_⟩
    · rw [hk n hroot (by omega), if_pos (List.mem_cons_self ..), hold' n (by omega)]
    · have hne : k ∉ n :: ns := by
        intro hmem
        rcases List.mem_cons.1 hmem with rfl | hmem
        · exact Nat.lt_irrefl _ hlt
        · exact hnotMem k (by omega) hmem
      rw [hk k hle (by omega), if_neg hne, hold' k (by omega)]
    · have hne : k ≠ n := by omega
      rw [hk k (by omega) hlt]
      simp [hne]

end

/-- At first the root is under no parent. -/
theorem Planted.holds_none {arena after : Arena} {t : Tree} {n : Nat} (h : Planted arena t n after) :
    after.Holds t none n := by
  refine h.holds ?_ fun _ _ _ => rfl
  cases h with
  | node all made =>
    rw [made.node?, if_pos rfl]
    rfl

end ScriptIndex
