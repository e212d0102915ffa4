import ScriptIndex.Arena.Descendants
import ScriptIndex.Proofs.Programs
import ScriptIndex.Proofs.RecordedTraversals
import ScriptIndex.Proofs.Trees

/-! # Traversals and descendants

The iterator over a tree gives its pre-order. A traversal that keeps to a predicate on nodes goes through
the pre-order too, but for what is below nodes that fail it. -/

namespace ScriptIndex

/-- An iterator gives one sequence of nodes. -/
theorem Descendants.Yields.unique {it : Descendants} {nodes nodes' : List NodeId} (h : it.Yields nodes)
    (h' : it.Yields nodes') : nodes = nodes' := by
  induction h generalizing nodes' with
  | done hend =>
    cases h' with
    | done => rfl
    | next hnext => cases hend.symm.trans hnext
  | next hnext _ ih =>
    cases h' with
    | done hend => cases hend.symm.trans hnext
    | next hnext' h' =>
      cases hnext.symm.trans hnext'
      rw [ih h']

namespace Arena

variable {arena : Arena} {parent : Option NodeId} {a c m n root : NodeId} {P : NodeId → Bool}

/-- No node on the path from the root, both ends included, fails. -/
def Clear (arena : Arena) (P : NodeId → Bool) (root n : NodeId) : Prop :=
  ∀ a, arena.OnPath root n a → P a = true

/-- No node on the path from the root fails before its end. -/
def Reached (arena : Arena) (P : NodeId → Bool) (root n : NodeId) : Prop :=
  ∀ a, arena.OnPath root n a → a ≠ n → P a = true

/-- The node that another one is reached from when its tree is entered at `root` from `parent`. -/
def reachedFrom (arena : Arena) (root : NodeId) (parent : Option NodeId) (n : NodeId) : Option NodeId :=
  if n = root then parent else arena.parent? n

theorem clear_iff (hn : arena.Below root n) : arena.Clear P root n ↔ arena.Reached P root n ∧ P n = true := by
  refine ⟨fun h => ⟨fun a ha _ => h a ha, h n ⟨hn, .refl⟩⟩, fun ⟨h, hn⟩ a ha => ?_⟩
  by_cases heq : a = n
  · exact heq ▸ hn
  · exact h a ha heq

namespace Trees
variable (ht : arena.Trees)
include ht

/-! ### The iterator -/

/-- What is below the node on top comes before the rest of the stack. -/
theorem yields_cons : ∀ {depth : Nat} {n : NodeId} {rest nodes : List NodeId}, arena.bare.rank n < depth →
    (⟨arena, rest⟩ : Descendants).Yields nodes →
      (⟨arena, n :: rest⟩ : Descendants).Yields (arena.preorderWithin depth n ++ nodes)
  | depth + 1, n, rest, nodes, hrank, h => by
    have hchildren : ∀ {children : List NodeId}, (∀ c ∈ children, arena.IsParent n c) →
        (⟨arena, children ++ rest⟩ : Descendants).Yields
          (children.flatMap (arena.preorderWithin depth) ++ nodes) := by
      intro children
      induction children with
      | nil => exact fun _ => h
      | cons c children ih =>
        intro hc
        obtain ⟨hc, hchildren⟩ := List.forall_mem_cons.1 hc
        have hlt := ht.rank_child_lt hc
        rw [List.flatMap_cons, List.append_assoc]
        exact yields_cons (by omega) (ih hchildren)
    rw [preorderWithin]
    exact .next rfl (hchildren fun _ hc => hc)

theorem descendants_yields_iff (hroot : root < arena.size) {nodes : List NodeId} :
    (arena.descendants root).Yields nodes ↔ nodes = arena.preorder root := by
  have hempty : (⟨arena, []⟩ : Descendants).Yields [] := .done rfl
  have h : (arena.descendants root).Yields (arena.preorder root ++ []) :=
    ht.yields_cons (ht.rank_lt_size hroot) hempty
  rw [List.append_nil] at h
  refine ⟨fun h' => h'.unique h, ?_⟩
  rintro rfl
  exact h

/-! ### Traversals -/

theorem onPath_self : arena.OnPath n n a ↔ a = n := by
  refine ⟨fun h => ht.below_antisymm h.2 h.1, ?_⟩
  rintro rfl
  exact ⟨.refl, .refl⟩

theorem reached_self : arena.Reached P n n :=
  fun _ ha hne => absurd (ht.onPath_self.1 ha) hne

theorem ne_of_below_child (hc : arena.IsParent n c) (hm : arena.Below c m) : m ≠ n := by
  rintro rfl
  exact ht.not_below_of_isParent hc hm

theorem reached_child (hc : arena.IsParent n c) (hm : arena.Below c m) :
    arena.Reached P n m ↔ P n = true ∧ arena.Reached P c m := by
  constructor
  · intro h
    exact ⟨h n ((ht.onPath_of_child hc hm).2 (.inl rfl)) (ht.ne_of_below_child hc hm).symm,
      fun a ha => h a ((ht.onPath_of_child hc hm).2 (.inr ha))⟩
  · rintro ⟨hn, h⟩ a ha hne
    rcases (ht.onPath_of_child hc hm).1 ha with rfl | ha
    · exact hn
    · exact h a ha hne

theorem reachedFrom_child (hc : arena.IsParent n c) (hm : arena.Below c m) :
    arena.reachedFrom c (some n) m = arena.reachedFrom n parent m := by
  unfold reachedFrom
  rw [if_neg (ht.ne_of_below_child hc hm)]
  split_ifs with heq
  · rw [heq, (ht.mem_children n c).1 hc]
  · rfl

open Classical in
/-- A walk by a predicate comes to the nodes of the pre-order that no failing node is above. -/
theorem walkWithin_eq : ∀ {depth : Nat} (around : Place) (parent : Option NodeId) {n : NodeId},
    arena.bare.rank n < depth →
    (arena.walkWithin ⟨fun n _ => P n, .never⟩ depth around parent n).map (fun a => (a.node, a.parent, a.entered)) =
      ((arena.preorderWithin depth n).filter fun m => arena.Reached P n m).map
        fun m => (m, arena.reachedFrom n parent m, P m)
  | depth + 1, around, parent, n, hrank => by
    have hself : arena.reachedFrom n parent n = parent := if_pos rfl
    have hreached : decide (arena.Reached P n n) = true := decide_eq_true ht.reached_self
    rw [preorderWithin, List.filter_cons, if_pos hreached, List.map_cons, hself]
    cases hP : P n with
    | false =>
      have hnone : ((arena.children n).flatMap (arena.preorderWithin depth)).filter
          (fun m => arena.Reached P n m) = [] := by
        refine List.filter_eq_nil_iff.2 fun m hm => ?_
        obtain ⟨c, hc, hm⟩ := List.mem_flatMap.1 hm
        simp [ht.reached_child hc (below_of_mem_preorderWithin hm), hP]
      rw [walkWithin_of_not_enters hP, hnone]
      rfl
    | true =>
      have hnone (order : TypeOrder) (hne : TypeOrder.never ≠ order) : arena.typeWalk ⟨fun n _ => P n, .never⟩ order
          depth (arena.placeAt around n) n = [] := if_neg hne
      have hchild : ∀ p ∈ arena.childPlaces (arena.placeAt around n) n parent,
          (arena.walkWithin ⟨fun n _ => P n, .never⟩ depth p.1 (some n) p.2).map
              (fun a => (a.node, a.parent, a.entered)) =
            ((arena.preorderWithin depth p.2).filter fun m => arena.Reached P n m).map
              fun m => (m, arena.reachedFrom n parent m, P m) := by
        intro p hp
        have hc : arena.IsParent n p.2 := mem_children_of_childPlaces hp
        have hlt := ht.rank_child_lt hc
        rw [walkWithin_eq p.1 (some n) (by omega)]
        have hbelow {m : NodeId} (hm : m ∈ arena.preorderWithin depth p.2) : arena.Below p.2 m :=
          below_of_mem_preorderWithin hm
        have hfilter : (arena.preorderWithin depth p.2).filter (fun m => arena.Reached P p.2 m) =
            (arena.preorderWithin depth p.2).filter fun m => arena.Reached P n m := by
          refine List.filter_congr fun m hm => ?_
          rw [decide_eq_decide, ht.reached_child hc (hbelow hm), hP, eq_self_iff_true, true_and]
        rw [hfilter]
        refine List.map_congr_left fun m hm => ?_
        rw [ht.reachedFrom_child hc (hbelow (List.mem_filter.1 hm).1)]
      rw [walkWithin_of_enters hP, hnone _ TypeOrder.noConfusion, hnone _ TypeOrder.noConfusion, List.nil_append,
        List.append_nil, List.singleton_append, List.map_cons, childWalk, List.map_flatMap,
        ← map_snd_childPlaces arena (arena.placeAt around n) n parent, List.flatMap_map, List.filter_flatMap,
        List.map_flatMap]
      exact congrArg _ (List.flatMap_congr hchild)

open Classical in
/-- The nodes that the walk goes into, and those that it is kept out of. -/
theorem nodes_walkWithin {depth : Nat} (around : Place) (parent : Option NodeId)
    (hrank : arena.bare.rank root < depth) (entered : Bool) :
    ((arena.walkWithin ⟨fun n _ => P n, .never⟩ depth around parent root).filter (·.entered == entered)).map
        (fun a => (a.node, a.parent)) =
      ((arena.preorderWithin depth root).filter fun n => arena.Reached P root n ∧ P n = entered).map
        fun n => (n, arena.reachedFrom root parent n) := by
  have h := congrArg (fun l => (l.filter (·.2.2 == entered)).map fun t => (t.1, t.2.1))
    (ht.walkWithin_eq (P := P) around parent hrank)
  rw [List.filter_map, List.filter_map, List.map_map, List.map_map, List.filter_filter] at h
  refine h.trans (congrArg _ (List.filter_congr fun n _ => ?_))
  rw [Bool.decide_and, Bool.and_comm]
  exact congrArg (decide _ && ·) (Bool.beq_eq_decide_eq (P n) entered)

end Trees

open Classical in
/-- The iterator gives each node of a tree once, a parent before its children and these in order with what is
below them. A traversal that keeps to a predicate visits those of the nodes that no failing node is above,
each from its parent, and is kept out of the failing ones among these. That is what it gives, and what the callback
is told. -/
theorem Trees.walkers_agree (ht : arena.Trees) (hroot : root < arena.size) :
    (∀ nodes, (arena.descendants root).Yields nodes ↔ nodes = arena.preorder root) ∧
      (arena.preorder root).Nodup ∧ (∀ n, n ∈ arena.preorder root ↔ arena.Below root n) ∧
      (∀ n < arena.size, arena.preorder n = n :: (arena.children n).flatMap arena.preorder) ∧
      ∀ (σ : Type) (callback : Callback σ) (P : NodeId → Bool) (depth : Nat) (before : Context) (s : σ),
        callback.Plain P → arena.size ≤ depth →
          ∃ (arrivals : List Arrival) (s' : σ),
            (arena.traverse callback depth root).run ⟨before, s⟩ = (arrivals.map (.mk · []), ⟨before, s'⟩) ∧
            (arena.traverse callback.recording depth root).run ⟨before, (s, [])⟩ =
              (arrivals.map (.mk · []), ⟨before, (s', arrivals)⟩) ∧
            (arrivals.filter (·.entered)).map (fun a => (a.node, a.parent)) =
              ((arena.preorder root).filter (fun n => arena.Clear P root n)).map
                (fun n => (n, if n = root then none else arena.parent? n)) ∧
            (arrivals.filter (!·.entered)).map (·.node) =
              (arena.preorder root).filter fun n => P n = false ∧ arena.Reached P root n := by
  refine ⟨fun _ => ht.descendants_yields_iff hroot, ht.preorderWithin_nodup _ _, fun n => ht.mem_preorder_iff hroot,
    fun n hn => ht.preorder_eq hn, fun σ callback P depth before s hplain hdepth => ?_⟩
  have hrank := ht.rank_lt_size hroot
  have hpre : arena.preorderWithin depth root = arena.preorder root := ht.preorderWithin_eq (by omega) hrank
  obtain ⟨_, s', hrun, rfl⟩ := branch_plain hplain depth none root before s
  have hnodes := ht.nodes_walkWithin (P := P) before.place none (Nat.lt_of_lt_of_le hrank hdepth)
  rw [hpre] at hnodes
  have hnoted := traverse_recording hrun
  rw [Call.flatMap_arrivals] at hnoted
  refine ⟨_, s', hrun, hnoted, ?_, ?_⟩
  · have hclear : ((arena.preorder root).filter fun n => arena.Clear P root n) =
        (arena.preorder root).filter fun n => arena.Reached P root n ∧ P n = true :=
      List.filter_congr fun n hn => decide_eq_decide.2 (clear_iff (below_of_mem_preorder hn))
    rw [hclear]
    exact (congrArg _ (List.filter_congr fun a _ => (beq_true a.entered).symm)).trans (hnodes true)
  · have h := congrArg (List.map Prod.fst) (hnodes false)
    rw [List.map_map, List.map_map] at h
    refine (congrArg _ (List.filter_congr fun a _ => (beq_false a.entered).symm)).trans (h.trans ?_)
    refine (List.map_id _).trans (List.filter_congr fun n _ => ?_)
    rw [decide_eq_decide, and_comm]

end Arena

/-- A policy that stays out of types and goes by nodes alone. -/
theorem Policy.callback_plain {σ : Type} (P : NodeId → Bool) (arena : Arena) (note : σ → Arrival → σ) :
    ((⟨fun n _ => P n, .never⟩ : Policy).callback arena note).Plain P :=
  ⟨fun _ _ _ _ => rfl, fun _ _ _ _ => ⟨_, rfl⟩⟩

open Classical in
/-- A traversal that is kept out of functions. -/
theorem Arena.Trees.walkers_agree_functions :
    let arena := Program.ofScripts
      [⟨.source, ascii "function f(p) { var b; } var g = function h() {}; { let c; }", .standard⟩]
    let root := Region.source.root
    let P := fun n => !arena.isFunction n
    let callback := (⟨fun n _ => P n, .never⟩ : Policy).callback arena fun arrivals a => arrivals ++ [a]
    arena.Trees ∧ root < arena.size ∧ callback.Plain P ∧ arena.size ≤ arena.size ∧
      (∀ nodes, (arena.descendants root).Yields nodes ↔ nodes = arena.preorder root) ∧
      (arena.preorder root).Nodup ∧ (∀ n, n ∈ arena.preorder root ↔ arena.Below root n) ∧
      ∃ (arrivals : List Arrival) (s' : List Arrival),
        (arena.traverse callback arena.size root).run ⟨.outermost, []⟩ = (arrivals.map (.mk · []), ⟨.outermost, s'⟩) ∧
        (arena.traverse callback.recording arena.size root).run ⟨.outermost, ([], [])⟩ =
          (arrivals.map (.mk · []), ⟨.outermost, (s', arrivals)⟩) ∧
        (arrivals.filter (·.entered)).map (fun a => (a.node, a.parent)) =
          ((arena.preorder root).filter (fun n => arena.Clear P root n)).map
            (fun n => (n, if n = root then none else arena.parent? n)) ∧
        (arrivals.filter (!·.entered)).map (·.node) =
          (arena.preorder root).filter fun n => P n = false ∧ arena.Reached P root n := by
  intro arena root P callback
  have hs : Program.Shape arena := Program.shape _
  have ht : arena.Trees := hs.linked.trees hs.acyclic hs.children_nodup
  have hroot : root < arena.size := hs.root_lt .source
  have hplain : callback.Plain P := Policy.callback_plain P arena _
  obtain ⟨hyields, hnodup, hmem, -, htraverse⟩ := Arena.Trees.walkers_agree ht hroot
  exact ⟨ht, hroot, hplain, Nat.le_refl _, hyields, hnodup, hmem,
    htraverse _ callback P _ .outermost [] hplain (Nat.le_refl _)⟩

end ScriptIndex
