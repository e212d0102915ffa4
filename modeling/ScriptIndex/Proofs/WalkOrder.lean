import Mathlib.Data.List.Flatten
import Mathlib.Tactic.SplitIfs
import ScriptIndex.Arena.Walk
import ScriptIndex.Index.Gathering
import ScriptIndex.Proofs.Preorder

/-! # The order of walks

What a walk carries from a node to its children and types, it carries to each arrival. -/

namespace ScriptIndex.Arena

variable {arena : Arena} {policy : Policy} {depth : Nat} {around here : Place} {parent : Option NodeId}
  {n root : NodeId}

/-- The walk through the types of a node. -/
def typeWalk (arena : Arena) (policy : Policy) (order : TypeOrder) (depth : Nat) (here : Place)
    (n : NodeId) : List Arrival :=
  if policy.types = order then (arena.typeRoots n).flatMap (arena.walkWithin policy depth here none) else []

/-- The walk through the children of a node. -/
def childWalk (arena : Arena) (policy : Policy) (depth : Nat) (here : Place) (parent : Option NodeId)
    (n : NodeId) : List Arrival :=
  (arena.childPlaces here n parent).flatMap fun (place, child) =>
    arena.walkWithin policy depth place (some n) child

theorem walkWithin_of_enters (h : policy.enters n parent = true) :
    arena.walkWithin policy (depth + 1) around parent n =
      arena.typeWalk policy .beforeOwner depth (arena.placeAt around n) n ++
        [⟨n, parent, arena.placeAt around n, true⟩] ++
        arena.typeWalk policy .afterOwner depth (arena.placeAt around n) n ++
        arena.childWalk policy depth (arena.placeAt around n) parent n := by
  rw [walkWithin, if_pos h]
  rfl

theorem walkWithin_of_not_enters (h : policy.enters n parent = false) :
    arena.walkWithin policy (depth + 1) around parent n = [⟨n, parent, around, false⟩] := by
  rw [walkWithin, if_neg (by simp [h])]

theorem map_snd_childPlaces (arena : Arena) (here : Place) (n : NodeId) (parent : Option NodeId) :
    (arena.childPlaces here n parent).map Prod.snd = arena.children n := by
  unfold childPlaces
  cases arena.children n with
  | nil => rfl
  | cons c rest => simp [Function.comp_def]

theorem module_childPlaces {place : Place} {c : NodeId} (h : (place, c) ∈ arena.childPlaces here n parent) :
    place.module = here.module := by
  have hinner : (if arena.opensScope n parent then here.enclosed else here).module = here.module := by
    split_ifs <;> rfl
  unfold childPlaces at h
  cases hch : arena.children n with
  | nil => simp [hch] at h
  | cons first rest =>
    simp only [hch] at h
    rcases List.mem_cons.1 h with h | h
    · obtain ⟨rfl, -⟩ := Prod.mk.inj h
      cases arena.isFunctionDeclaration n
      · exact hinner
      · rfl
    · obtain ⟨c', -, h⟩ := List.mem_map.1 h
      obtain ⟨rfl, -⟩ := Prod.mk.inj h
      exact hinner

theorem mem_children_of_childPlaces {place : Place} {c : NodeId}
    (h : (place, c) ∈ arena.childPlaces here n parent) : c ∈ arena.children n := by
  rw [← map_snd_childPlaces arena here n parent]
  exact List.mem_map_of_mem h

/-- What holds of a node, the place around it and its parent, holds of those that the walk reaches from
the node. -/
structure Carries (arena : Arena) (policy : Policy) (P : Place → Option NodeId → NodeId → Prop) : Prop where
  child : ∀ around parent n place c, P around parent n →
    (place, c) ∈ arena.childPlaces (arena.placeAt around n) n parent → P place (some n) c
  type : policy.types ≠ .never → ∀ around parent n t, P around parent n → t ∈ arena.typeRoots n →
    P (arena.placeAt around n) none t

theorem Carries.arrival {P : Place → Option NodeId → NodeId → Prop} (hc : Carries arena policy P) :
    ∀ depth around parent n, P around parent n → ∀ a ∈ arena.walkWithin policy depth around parent n,
      ∃ place, P place a.parent a.node ∧ (a.entered = true → a.place = arena.placeAt place a.node)
  | 0, _, _, _, _, a, ha => by cases ha
  | depth + 1, around, parent, n, hn, a, ha => by
    have htypes : ∀ order ≠ TypeOrder.never,
        a ∈ arena.typeWalk policy order depth (arena.placeAt around n) n →
        ∃ place, P place a.parent a.node ∧ (a.entered = true → a.place = arena.placeAt place a.node) := by
      intro order hne ha
      unfold typeWalk at ha
      split_ifs at ha with horder
      · obtain ⟨t, ht, ha⟩ := List.mem_flatMap.1 ha
        exact hc.arrival depth _ none t (hc.type (horder ▸ hne) around parent n t hn ht) a ha
      · cases ha
    cases henters : policy.enters n parent with
    | false =>
      rw [walkWithin_of_not_enters henters, List.mem_singleton] at ha
      subst ha
      exact ⟨around, hn, fun h => by cases h⟩
    | true =>
      rw [walkWithin_of_enters henters] at ha
      simp only [List.mem_append, List.mem_singleton] at ha
      rcases ha with ((ha | rfl) | ha) | ha
      · exact htypes _ (by simp) ha
      · exact ⟨around, hn, fun _ => rfl⟩
      · exact htypes _ (by simp) ha
      · obtain ⟨⟨place, c⟩, hmem, ha⟩ := List.mem_flatMap.1 ha
        exact hc.arrival depth place (some n) c (hc.child around parent n place c hn hmem) a ha

/-- A property of nodes that goes along links holds of all arrivals. -/
theorem arrival_of_link {P : NodeId → Prop} (hlink : ∀ n m, P n → arena.Link n m → P m) (hn : P n)
    {a : Arrival} (ha : a ∈ arena.walkWithin policy depth around parent n) : P a.node := by
  have hc : Carries arena policy fun _ _ n => P n :=
    ⟨fun _ _ n _ c hn hmem => hlink n c hn (.inl (mem_children_of_childPlaces hmem)),
      fun _ _ _ n t hn ht => hlink n t hn (.inr ht)⟩
  obtain ⟨-, h, -⟩ := hc.arrival depth around parent n hn a ha
  exact h

theorem forM_check : ∀ {arrivals : List Arrival}, (∀ a ∈ arrivals, a.node < arena.size) →
    (arrivals.forM fun a => arena.check a.node) = Except.ok ()
  | [], _ => rfl
  | a :: arrivals, h => by
    rw [List.forM_eq_forM, List.forM_cons, check, if_pos (contains_iff.2 (h a List.mem_cons_self))]
    exact forM_check fun a ha => h a (List.mem_cons_of_mem _ ha)

/-- No walk leaves a linked arena. -/
theorem Linked.walk_eq_ok (hl : arena.Linked) (hroot : root < arena.size) :
    arena.walk policy root = .ok (arena.walkWithin policy (arena.size + 1) .outermost none root) := by
  have hlt : ∀ a ∈ arena.walkWithin policy (arena.size + 1) .outermost none root, a.node < arena.size :=
    fun a ha => arrival_of_link (P := (· < arena.size)) (fun _ _ _ h => hl.lt_of_link h) hroot ha
  unfold walk
  dsimp only
  rw [forM_check hlt]
  rfl

/-! ### Walks and pre-order -/

theorem nodes_childWalk {f : Arrival → Bool} {g : NodeId → List NodeId}
    (h : ∀ place c, (((arena.walkWithin policy depth place (some n) c).filter f).map (·.node)).Sublist (g c)) :
    (((arena.childWalk policy depth here parent n).filter f).map (·.node)).Sublist
      ((arena.children n).flatMap g) := by
  rw [← map_snd_childPlaces arena here n parent, List.flatMap_map, childWalk, List.filter_flatMap,
    List.map_flatMap]
  exact List.Sublist.flatMap_right _ fun ⟨place, c⟩ _ => h place c

/-- Arrivals outside the types come in pre-order. -/
theorem nodes_sublist_preorderWithin {f : Arrival → Bool} {typed : NodeId → Prop}
    (hf : ∀ a, typed a.node → f a = false) (hroot : ∀ n t, t ∈ arena.typeRoots n → typed t)
    (hlink : ∀ n m, typed n → arena.Link n m → typed m) :
    ∀ depth around parent n, (((arena.walkWithin policy depth around parent n).filter f).map
      (·.node)).Sublist (arena.preorderWithin depth n)
  | 0, _, _, _ => List.Sublist.refl _
  | depth + 1, around, parent, n => by
    have htypes : ∀ order here, (arena.typeWalk policy order depth here n).filter f = [] := by
      intro order here
      refine List.filter_eq_nil_iff.2 fun a ha => ?_
      unfold typeWalk at ha
      split_ifs at ha
      · obtain ⟨t, ht, ha⟩ := List.mem_flatMap.1 ha
        have htyped : typed a.node := arrival_of_link hlink (hroot n t ht) ha
        rw [hf a htyped]
        exact Bool.false_ne_true
      · cases ha
    have hone : ∀ a : Arrival, a.node = n → (([a].filter f).map (·.node)).Sublist [n] := by
      intro a ha
      rw [← ha]
      exact (List.filter_sublist (l := [a])).map _
    cases henters : policy.enters n parent with
    | false =>
      rw [walkWithin_of_not_enters henters, preorderWithin]
      exact (hone _ rfl).trans (List.singleton_sublist.2 List.mem_cons_self)
    | true =>
      rw [walkWithin_of_enters henters, preorderWithin]
      simp only [List.filter_append, htypes, List.nil_append, List.append_nil, List.map_append]
      exact (hone _ rfl).append
        (nodes_childWalk fun place c => nodes_sublist_preorderWithin hf hroot hlink depth place (some n) c)

/-- A walk that goes everywhere but into types is the pre-order. -/
theorem nodes_walkWithin_source (depth : Nat) (around : Place) (parent : Option NodeId) (n : NodeId) :
    (∀ a ∈ arena.walkWithin (arena.gatherPolicy .source) depth around parent n, a.entered = true) ∧
      (arena.walkWithin (arena.gatherPolicy .source) depth around parent n).map (·.node) =
        arena.preorderWithin depth n := by
  induction depth generalizing around parent n with
  | zero => exact ⟨fun _ ha => absurd ha List.not_mem_nil, rfl⟩
  | succ depth ih =>
    have hwalk : arena.walkWithin (arena.gatherPolicy .source) (depth + 1) around parent n =
        ⟨n, parent, arena.placeAt around n, true⟩ ::
          arena.childWalk (arena.gatherPolicy .source) depth (arena.placeAt around n) parent n := by
      rw [walkWithin_of_enters rfl]
      simp [typeWalk, gatherPolicy]
    rw [hwalk]
    constructor
    · refine List.forall_mem_cons.2 ⟨rfl, fun a ha => ?_⟩
      obtain ⟨p, -, ha⟩ := List.mem_flatMap.1 ha
      exact (ih p.1 (some n) p.2).1 a ha
    · rw [List.map_cons, preorderWithin, ← map_snd_childPlaces arena (arena.placeAt around n) n parent,
        List.flatMap_map, childWalk, List.map_flatMap]
      congr 1
      exact List.flatMap_congr fun p _ => (ih p.1 (some n) p.2).2

end ScriptIndex.Arena
