import ScriptIndex.Proofs.Preorder

/-! # Trees of children

`Arena.Trees` says that the child links of an arena make trees, whatever its documentation says. What is
known of linked arenas without cycles holds of the arena without documentation, which has the same trees. -/

namespace ScriptIndex.Arena

variable {arena : Arena} {n m root a b c p q : NodeId}

/-- Each child has its parent as parent, is its child once, and is not above it. -/
structure Trees (arena : Arena) : Prop where
  mem_children : ∀ n c, c ∈ arena.children n ↔ arena.parent? c = some n
  children_nodup : ∀ n, (arena.children n).Nodup
  acyclic : ∀ n, ¬ Relation.TransGen arena.IsParent n n

theorem Linked.trees (hl : arena.Linked) (ha : arena.Acyclic) (hnd : ∀ n, (arena.children n).Nodup) :
    arena.Trees where
  mem_children := hl.mem_children
  children_nodup := hnd
  acyclic n hn := ha n (Relation.TransGen.mono (fun _ _ hc => Or.inl hc) _ _ hn)

/-- A node on the path from a root to another. -/
def OnPath (arena : Arena) (root n a : NodeId) : Prop := arena.Below root a ∧ arena.Below a n

/-- The arena without documentation. -/
def bare (arena : Arena) : Arena := ⟨arena.nodes.map ({ · with doc := none })⟩

theorem size_bare (arena : Arena) : arena.bare.size = arena.size := by
  simp [bare, size]

theorem node?_bare (arena : Arena) (n : NodeId) :
    arena.bare.node? n = (arena.node? n).map ({ · with doc := none }) := by
  simp [bare, node?]

theorem children_bare (arena : Arena) (n : NodeId) : arena.bare.children n = arena.children n := by
  unfold children
  rw [node?_bare]
  cases arena.node? n <;> rfl

theorem parent?_bare (arena : Arena) (n : NodeId) : arena.bare.parent? n = arena.parent? n := by
  unfold parent?
  rw [node?_bare]
  cases arena.node? n <;> rfl

theorem typeRoots_bare (arena : Arena) (n : NodeId) : arena.bare.typeRoots n = [] := by
  unfold typeRoots doc?
  rw [node?_bare]
  cases arena.node? n <;> rfl

theorem isParent_bare (arena : Arena) : arena.bare.IsParent = arena.IsParent := by
  funext p c
  rw [IsParent, IsParent, children_bare]

theorem below_bare (arena : Arena) : arena.bare.Below = arena.Below := by
  funext p c
  rw [Below, Below, isParent_bare]

theorem preorderWithin_bare (arena : Arena) : arena.bare.preorderWithin = arena.preorderWithin := by
  funext depth
  induction depth with
  | zero => rfl
  | succ depth ih =>
    funext n
    rw [preorderWithin, preorderWithin, children_bare, ih]

theorem Below.eq_or_below_parent (h : arena.Below a n) : n = a ∨ ∃ p, arena.IsParent p n ∧ arena.Below a p := by
  rcases Relation.ReflTransGen.cases_tail h with heq | ⟨p, hp, hpn⟩
  · exact .inl heq
  · exact .inr ⟨p, hpn, hp⟩

namespace Trees
variable (ht : arena.Trees)
include ht

theorem linked_bare : arena.bare.Linked where
  mem_children n c := by
    rw [children_bare, parent?_bare]
    exact ht.mem_children n c
  typeRoots_lt n t h := by
    rw [typeRoots_bare] at h
    cases h

theorem acyclic_bare : arena.bare.Acyclic := by
  intro n hn
  refine ht.acyclic n (Relation.TransGen.mono (fun a b h => ?_) _ _ hn)
  rcases h with hc | htype
  · rwa [children_bare] at hc
  · rw [typeRoots_bare] at htype
    cases htype

theorem parent_unique (hp : arena.IsParent p n) (hq : arena.IsParent q n) : p = q :=
  Option.some.inj (((ht.mem_children p n).1 hp).symm.trans ((ht.mem_children q n).1 hq))

theorem below_or_below (h : arena.Below a n) (h' : arena.Below b n) : arena.Below a b ∨ arena.Below b a := by
  rw [← below_bare] at *
  exact ht.linked_bare.below_or_below h h'

theorem not_below_of_isParent (h : arena.IsParent n m) : ¬ arena.Below m n := by
  rw [← isParent_bare] at h
  rw [← below_bare]
  exact ht.acyclic_bare.not_below_of_isParent h

theorem sibling_eq_of_below (hn : arena.IsParent p n) (hm : arena.IsParent p m) (h : arena.Below n m) : n = m := by
  rw [← isParent_bare] at hn hm
  rw [← below_bare] at h
  exact ht.linked_bare.sibling_eq_of_below ht.acyclic_bare hn hm h

theorem below_antisymm (h : arena.Below a b) (h' : arena.Below b a) : a = b := by
  rcases h.eq_or_below_parent with heq | ⟨p, hp, hap⟩
  · exact heq.symm
  · exact absurd (h'.trans hap) (ht.not_below_of_isParent hp)

/-- What is above a child, and not the child, is above its parent. -/
theorem below_parent (hp : arena.IsParent p n) (h : arena.Below a n) (hne : a ≠ n) : arena.Below a p := by
  rcases h.eq_or_below_parent with heq | ⟨q, hq, haq⟩
  · exact absurd heq.symm hne
  · exact ht.parent_unique hq hp ▸ haq

/-- The path from a node to what is below a child of it goes on from that child. -/
theorem onPath_of_child (hc : arena.IsParent n c) (hm : arena.Below c m) :
    arena.OnPath n m a ↔ a = n ∨ arena.OnPath c m a := by
  constructor
  · rintro ⟨hna, ham⟩
    rcases ht.below_or_below hm ham with hca | hac
    · exact .inr ⟨hca, ham⟩
    · by_cases heq : a = c
      · exact .inr ⟨heq ▸ .refl, ham⟩
      · exact .inl (ht.below_antisymm (ht.below_parent hc hac heq) hna)
  · rintro (rfl | ⟨hca, ham⟩)
    · exact ⟨.refl, hm.head hc⟩
    · exact ⟨hca.head hc, ham⟩

/-! ### Pre-order -/

theorem rank_child_lt (hc : arena.IsParent n c) : arena.bare.rank c < arena.bare.rank n :=
  ht.acyclic_bare.rank_lt ht.linked_bare (.inl ((children_bare arena n).symm ▸ hc))

theorem rank_lt_size (h : n < arena.size) : arena.bare.rank n < arena.size := by
  rw [← size_bare] at h ⊢
  exact ht.acyclic_bare.rank_lt_size h

theorem preorderWithin_eq {depth depth' : Nat} (h : arena.bare.rank n < depth) (h' : arena.bare.rank n < depth') :
    arena.preorderWithin depth n = arena.preorderWithin depth' n := by
  rw [← preorderWithin_bare]
  exact ht.linked_bare.preorderWithin_eq ht.acyclic_bare h h'

theorem preorderWithin_nodup (depth : Nat) (n : NodeId) : (arena.preorderWithin depth n).Nodup := by
  rw [← preorderWithin_bare]
  refine ht.linked_bare.preorderWithin_nodup ht.acyclic_bare (fun n => ?_) depth n
  rw [children_bare]
  exact ht.children_nodup n

/-- A node comes first, and then its children in order, each with what is below it. -/
theorem preorder_eq (h : n < arena.size) :
    arena.preorder n = n :: (arena.children n).flatMap arena.preorder := by
  obtain ⟨depth, hdepth⟩ := Nat.exists_eq_add_one_of_ne_zero (Nat.ne_zero_of_lt h)
  have hrank := ht.rank_lt_size h
  unfold preorder
  rw [hdepth, preorderWithin]
  congr 1
  refine List.flatMap_congr fun c hc => ?_
  have hlt := ht.rank_child_lt hc
  exact ht.preorderWithin_eq (by omega) (by omega)

theorem mem_preorderWithin_iff : ∀ {depth : Nat} {n : NodeId}, arena.bare.rank n < depth →
    (m ∈ arena.preorderWithin depth n ↔ arena.Below n m)
  | depth + 1, n, h => by
    refine ⟨below_of_mem_preorderWithin, fun hm => ?_⟩
    rw [preorderWithin]
    rcases Relation.ReflTransGen.cases_head hm with rfl | ⟨c, hc, hm⟩
    · exact List.mem_cons_self
    · have hlt := ht.rank_child_lt hc
      exact List.mem_cons_of_mem _ (List.mem_flatMap.2 ⟨c, hc, (mem_preorderWithin_iff (by omega)).2 hm⟩)

theorem mem_preorder_iff (h : root < arena.size) : m ∈ arena.preorder root ↔ arena.Below root m :=
  ht.mem_preorderWithin_iff (ht.rank_lt_size h)

end Trees

end ScriptIndex.Arena
