import ScriptIndex.Proofs.Links

/-! # Pre-order

In a linked arena without cycles the pre-order of a tree names each of its nodes once, however deep the
recursion is allowed to go beyond the rank of the root. -/

namespace ScriptIndex.Arena

variable {arena : Arena} {n m root : NodeId}

theorem below_of_mem_preorderWithin : ∀ {depth : Nat} {n : NodeId},
    m ∈ arena.preorderWithin depth n → arena.Below n m
  | 0, _, h => by cases h
  | depth + 1, n, h => by
    rw [preorderWithin] at h
    rcases List.mem_cons.1 h with rfl | h
    · exact Relation.ReflTransGen.refl
    · obtain ⟨c, hc, h⟩ := List.mem_flatMap.1 h
      exact Relation.ReflTransGen.head hc (below_of_mem_preorderWithin h)

namespace Linked
variable (hl : arena.Linked) (ha : arena.Acyclic)
include hl ha

theorem preorderWithin_nodup (hnd : ∀ n, (arena.children n).Nodup) :
    ∀ depth n, (arena.preorderWithin depth n).Nodup
  | 0, _ => List.nodup_nil
  | depth + 1, n => by
    rw [preorderWithin]
    refine List.nodup_cons.2 ⟨fun hmem => ?_, List.nodup_flatMap.2 ⟨fun c _ =>
      preorderWithin_nodup hnd depth c, ?_⟩⟩
    · obtain ⟨c, hc, hmem⟩ := List.mem_flatMap.1 hmem
      exact ha.not_below_of_isParent hc (below_of_mem_preorderWithin hmem)
    · refine List.Pairwise.imp_of_mem (fun {c c'} hc hc' hne => ?_) (hnd n)
      -- a node below both children would put one of them below the other
      refine List.disjoint_left.2 fun m hm hm' => ?_
      rcases hl.below_or_below (below_of_mem_preorderWithin hm) (below_of_mem_preorderWithin hm') with h | h
      · exact hne (hl.sibling_eq_of_below ha hc hc' h)
      · exact hne (hl.sibling_eq_of_below ha hc' hc h).symm

theorem preorderWithin_eq : ∀ {depth depth' : Nat} {n : NodeId}, arena.rank n < depth → arena.rank n < depth' →
    arena.preorderWithin depth n = arena.preorderWithin depth' n
  | depth + 1, depth' + 1, n, h, h' => by
    rw [preorderWithin, preorderWithin]
    congr 1
    refine List.flatMap_congr fun c hc => ?_
    have hlt := ha.rank_lt hl (.inl hc)
    exact preorderWithin_eq (by omega) (by omega)

/-- The pre-order of a tree names no node twice. -/
theorem preorder_nodup (hnd : ∀ n, (arena.children n).Nodup) (root : NodeId) : (arena.preorder root).Nodup :=
  hl.preorderWithin_nodup ha hnd _ root

end Linked

theorem below_of_mem_preorder (h : m ∈ arena.preorder root) : arena.Below root m :=
  below_of_mem_preorderWithin h

end ScriptIndex.Arena
