import ScriptIndex.Proofs.GatherRuns
import ScriptIndex.Proofs.Programs
import ScriptIndex.Proofs.RecordedTraversals
import ScriptIndex.Proofs.Trees

/-! # Places of nodes

Where a traversal sees a node is told by the path to it from the root alone: the module is that of the
nearest script on the path, and the place is global unless a node above opens a scope around it.
`Arena.Leads` tells what a traversal carries along such a path, `Arena.PlacedAt` what the path says. -/

namespace ScriptIndex

namespace Arena

variable {arena : Arena} {around here outer : Place} {parent : Option NodeId} {a c n root : NodeId} {place : Place}

/-- The last script on the path is in a module. -/
def NearestScript (arena : Arena) (root n s : NodeId) (module : Option ModuleId) : Prop :=
  arena.OnPath root n s ∧ arena.kind? s = some (.script module) ∧
    ∀ s' m, arena.OnPath root n s' → arena.kind? s' = some (.script m) → arena.Below s' s

/-- A block opens a scope unless it is the body of a function, and a function does, but for its name when
it is declared. The root of a traversal is no body. -/
def Opens (arena : Arena) (root a n : NodeId) : Prop :=
  arena.kind? a = some .block ∧ (∀ p, arena.IsParent p a → arena.Below root p → arena.isFunction p = false) ∨
    arena.isFunction a = true ∧
      ¬ (arena.isFunctionDeclaration a = true ∧ ∃ name, arena.firstChild? a = some name ∧ arena.Below name n)

/-- A node on the path to another opens a scope around it. -/
def Encloses (arena : Arena) (root n a : NodeId) : Prop :=
  arena.OnPath root n a ∧ a ≠ n ∧ arena.Opens root a n

/-- The place that the path from a root to a node gives it, when the root is around the place `outer`. -/
structure PlacedAt (arena : Arena) (outer : Place) (root n : NodeId) (here : Place) : Prop where
  below : arena.Below root n
  module : (∃ s, arena.NearestScript root n s here.module) ∨
    (∀ s m, arena.OnPath root n s → arena.kind? s ≠ some (.script m)) ∧ here.module = outer.module
  isGlobal : here.isGlobal = true ↔ outer.isGlobal = true ∧ ∀ a, ¬ arena.Encloses root n a

/-- A traversal from a root comes to a node from `parent`, with a place around it. -/
inductive Leads (arena : Arena) (outer : Place) (root : NodeId) : Place → Option NodeId → NodeId → Prop
  | root : Leads arena outer root outer none root
  | child {around : Place} {parent : Option NodeId} {n : NodeId} {place : Place} {c : NodeId} :
      Leads arena outer root around parent n →
      (place, c) ∈ arena.childPlaces (arena.placeAt around n) n parent → Leads arena outer root place (some n) c

theorem placeAt_script {m : Option ModuleId} (h : arena.kind? n = some (.script m)) :
    arena.placeAt around n = { around with module := m } := by
  simp [placeAt, h]

theorem placeAt_other (h : ∀ m, arena.kind? n ≠ some (.script m)) : arena.placeAt around n = around := by
  unfold placeAt
  split
  · next hk => exact absurd hk (h _)
  · rfl

theorem isGlobal_placeAt (around : Place) (n : NodeId) : (arena.placeAt around n).isGlobal = around.isGlobal := by
  unfold placeAt
  split <;> rfl

/-- Whether a child is in the scope that a node opens. -/
theorem isGlobal_childPlaces (hnd : (arena.children n).Nodup)
    (h : (place, c) ∈ arena.childPlaces here n parent) :
    place.isGlobal = true ↔ here.isGlobal = true ∧
      ¬ (arena.opensScope n parent = true ∧
        ¬ (arena.isFunctionDeclaration n = true ∧ arena.firstChild? n = some c)) := by
  have hinner : (if arena.opensScope n parent then here.enclosed else here).isGlobal =
      (here.isGlobal && !arena.opensScope n parent) := by
    cases arena.opensScope n parent <;> simp [Place.enclosed]
  unfold childPlaces at h
  unfold firstChild?
  cases hch : arena.children n with
  | nil => simp [hch] at h
  | cons first rest =>
    simp only [hch] at h
    rw [hch] at hnd
    rcases List.mem_cons.1 h with h | h
    · obtain ⟨rfl, rfl⟩ := Prod.mk.inj h
      cases arena.isFunctionDeclaration n <;> simp [hinner]
    · obtain ⟨c', hc', h⟩ := List.mem_map.1 h
      obtain ⟨rfl, rfl⟩ := Prod.mk.inj h
      have hne : first ≠ c' := fun heq => (List.nodup_cons.1 hnd).1 (heq ▸ hc')
      simp [hinner, hne]

namespace Trees
variable (ht : arena.Trees) (hp : arena.IsParent n c)
include ht hp

theorem onPath_child (hn : arena.Below root n) : arena.OnPath root c a ↔ arena.OnPath root n a ∨ a = c := by
  constructor
  · rintro ⟨hroot, hac⟩
    by_cases heq : a = c
    · exact .inr heq
    · exact .inl ⟨hroot, ht.below_parent hp hac heq⟩
  · rintro (⟨hroot, han⟩ | rfl)
    · exact ⟨hroot, han.tail hp⟩
    · exact ⟨hn.tail hp, .refl⟩

/-- What is above a node and opens a scope around it does so around its children. -/
theorem opens_child (hne : a ≠ n) : arena.Opens root a c ↔ arena.Opens root a n := by
  have hname (name : NodeId) (hf : arena.firstChild? a = some name) :
      arena.Below name c ↔ arena.Below name n := by
    refine ⟨fun h => ht.below_parent hp h ?_, fun h => h.tail hp⟩
    rintro rfl
    exact hne (ht.parent_unique (List.mem_of_mem_head? hf) hp)
  unfold Opens
  refine or_congr_right (and_congr_right fun _ => not_congr (and_congr_right fun _ => exists_congr fun name => ?_))
  exact and_congr_right (hname name)

theorem encloses_child (hn : arena.Below root n) :
    arena.Encloses root c a ↔ arena.Encloses root n a ∨ a = n ∧ arena.Opens root n c := by
  have hc : n ≠ c := fun heq => ht.not_below_of_isParent hp (heq ▸ .refl)
  constructor
  · rintro ⟨hpath, hne, hopens⟩
    have hpath := ((ht.onPath_child hp hn).1 hpath).resolve_right hne
    by_cases heq : a = n
    · exact .inr ⟨heq, heq ▸ hopens⟩
    · exact .inl ⟨hpath, heq, (ht.opens_child hp heq).1 hopens⟩
  · rintro (⟨hpath, hne, hopens⟩ | ⟨rfl, hopens⟩)
    · refine ⟨(ht.onPath_child hp hn).2 (.inl hpath), ?_, (ht.opens_child hp hne).2 hopens⟩
      rintro rfl
      exact ht.not_below_of_isParent hp hpath.2
    · exact ⟨⟨hn, .single hp⟩, hc, hopens⟩

end Trees

namespace Leads

theorem isBelow (h : arena.Leads outer root around parent n) : arena.Below root n := by
  induction h with
  | root => exact .refl
  | child _ hc ih => exact ih.tail (mem_children_of_childPlaces hc)

theorem parent_eq (h : arena.Leads outer root around parent n) :
    parent = none ∧ n = root ∨ ∃ p, parent = some p ∧ arena.IsParent p n ∧ arena.Below root p := by
  cases h with
  | root => exact .inl ⟨rfl, rfl⟩
  | child h hc => exact .inr ⟨_, rfl, mem_children_of_childPlaces hc, h.isBelow⟩

/-- What opens a scope for a traversal does so for the path. -/
theorem opensScope_iff (ht : arena.Trees) (h : arena.Leads outer root around parent n)
    (hc : arena.IsParent n c) :
    arena.opensScope n parent = true ∧
        ¬ (arena.isFunctionDeclaration n = true ∧ arena.firstChild? n = some c) ↔
      arena.Opens root n c := by
  have hname : (arena.isFunctionDeclaration n = true ∧ arena.firstChild? n = some c) ↔
      arena.isFunctionDeclaration n = true ∧ ∃ name, arena.firstChild? n = some name ∧ arena.Below name c := by
    refine and_congr_right fun _ => ⟨fun hf => ⟨c, hf, .refl⟩, fun ⟨name, hf, hbelow⟩ => ?_⟩
    rw [hf, ht.sibling_eq_of_below (List.mem_of_mem_head? hf) hc hbelow]
  have hbody : parent.any arena.isFunction = false ↔
      ∀ p, arena.IsParent p n → arena.Below root p → arena.isFunction p = false := by
    rcases h.parent_eq with ⟨rfl, rfl⟩ | ⟨p, rfl, hp, hbelow⟩
    · exact ⟨fun _ p hp hbelow => absurd hbelow (ht.not_below_of_isParent hp), fun _ => rfl⟩
    · refine ⟨fun hf q hq _ => ?_, fun hf => hf p hp hbelow⟩
      rw [ht.parent_unique hq hp]
      exact hf
  unfold Opens
  rw [hname, ← hbody]
  by_cases hfunction : arena.kind? n = some .function
  · simp [opensScope, isFunction, hfunction]
  · have hplain : arena.isFunction n = false := by simp [isFunction, hfunction]
    have hdeclared : arena.isFunctionDeclaration n = false := by simp [isFunctionDeclaration, hplain]
    by_cases hblock : arena.kind? n = some .block
    · simp [opensScope, hplain, hdeclared, hblock]
    · have hopens : arena.opensScope n parent = false := by
        unfold opensScope
        split
        · next hk => exact absurd hk hfunction
        · next hk => exact absurd hk hblock
        · rfl
      simp [hopens, hplain, hblock]

/-- The path says where a traversal sees a node. -/
theorem placedAt (ht : arena.Trees) (h : arena.Leads outer root around parent n) :
    arena.PlacedAt outer root n (arena.placeAt around n) := by
  induction h with
  | root =>
    have hpath : ∀ a, arena.OnPath root root a → a = root := fun a h => ht.below_antisymm h.2 h.1
    refine ⟨.refl, ?_, ?_⟩
    · by_cases hk : ∃ m, arena.kind? root = some (.script m)
      · obtain ⟨m, hk⟩ := hk
        rw [placeAt_script hk]
        exact .inl ⟨root, ⟨.refl, .refl⟩, hk, fun s' _ hs' _ => hs'.2⟩
      · rw [not_exists] at hk
        rw [placeAt_other hk]
        exact .inr ⟨fun s m hs => hpath s hs ▸ hk m, rfl⟩
    · rw [isGlobal_placeAt]
      exact ⟨fun hg => ⟨hg, fun a ha => ha.2.1 (hpath a ha.1)⟩, And.left⟩
  | @child around parent n place c h hc ih =>
    have hp : arena.IsParent n c := mem_children_of_childPlaces hc
    refine ⟨ih.below.tail hp, ?_, ?_⟩
    · by_cases hk : ∃ m, arena.kind? c = some (.script m)
      · obtain ⟨m, hk⟩ := hk
        rw [placeAt_script hk]
        exact .inl ⟨c, ⟨ih.below.tail hp, .refl⟩, hk, fun s' _ hs' _ => hs'.2⟩
      · rw [not_exists] at hk
        have hscript {s : NodeId} {m : Option ModuleId} (hs : arena.OnPath root c s)
            (hm : arena.kind? s = some (.script m)) : arena.OnPath root n s :=
          ((ht.onPath_child hp ih.below).1 hs).resolve_right fun heq => hk m (heq ▸ hm)
        rw [placeAt_other hk, module_childPlaces hc]
        refine ih.module.imp ?_ ?_
        · rintro ⟨s, hs, hm, hlast⟩
          exact ⟨s, (ht.onPath_child hp ih.below).2 (.inl hs), hm, fun s' m' hs' hm' =>
            hlast s' m' (hscript hs' hm') hm'⟩
        · rintro ⟨hnone, hmodule⟩
          exact ⟨fun s m hs hm => hnone s m (hscript hs hm) hm, hmodule⟩
    · rw [isGlobal_placeAt, isGlobal_childPlaces (ht.children_nodup n) hc, ih.isGlobal, h.opensScope_iff ht hp,
        and_assoc]
      refine and_congr_right fun _ => ⟨?_, fun hnone => ⟨fun a ha => ?_, fun hopens => ?_⟩⟩
      · rintro ⟨hnone, hopens⟩ a ha
        rcases (ht.encloses_child hp ih.below).1 ha with ha | ⟨-, ha⟩
        · exact hnone a ha
        · exact hopens ha
      · exact hnone a ((ht.encloses_child hp ih.below).2 (.inl ha))
      · exact hnone n ((ht.encloses_child hp ih.below).2 (.inr ⟨rfl, hopens⟩))

end Leads

/-! ### Traversals -/

section
open Traversal

variable {σ : Type} {callback : Callback σ}

/-- What a traversal from a root visits stands where the path from the root says, and so it is in the
traversals that its visits start, each around the place of the visited node. -/
inductive Placed (arena : Arena) : Place → NodeId → Call → Prop
  | mk {outer : Place} {root : NodeId} {arrival : Arrival} {started : List (NodeId × List Call)} :
      (arrival.entered = true → arena.PlacedAt outer root arrival.node arrival.place) →
      (∀ p ∈ started, ∀ call ∈ p.2, Placed arena arrival.place p.1 call) →
      Placed arena outer root ⟨arrival, started⟩

theorem branch_placed (ht : arena.Trees) (callback : Callback σ) : ∀ (depth : Nat) {around : Context}
    {outer : Place} {root : NodeId} {parent : Option NodeId} {n : NodeId} (s : σ),
    arena.Leads outer root around.place parent n →
      Ends around s (arena.branch callback depth parent n) fun calls _ => ∀ call ∈ calls, arena.Placed outer root call
  | 0, _, _, _, _, _, _, _ => .done (List.forall_mem_nil _)
  | depth + 1, around, outer, root, parent, n, s, h => by
    rcases henters : callback.enters around.place n parent s with ⟨entered, s'⟩
    cases entered with
    | false =>
      refine (branch_refused henters).weaken ?_
      rintro _ _ ⟨rfl, -⟩
      exact List.forall_mem_singleton.2 (.mk (fun h => by cases h) (List.forall_mem_nil _))
    | true =>
      have hhere := h.placedAt ht
      rw [← place_contextAt] at hhere
      have hstarted := follow_forall (Q := fun t calls => ∀ call ∈ calls,
          arena.Placed (arena.contextAt around n).place t call) (fun t s => branch_placed ht callback depth s .root)
        (callback.visit (arena.contextAt around n).place n parent s') s'
      have hvisit : Ends (arena.contextAt around n) s' (visit callback (arena.branch callback depth none) parent n)
          fun call _ => arena.Placed outer root call :=
        visit_ends (hstarted.weaken fun _ _ h => .mk (fun _ => hhere) h)
      refine branch_entered henters (hvisit.weaken fun call t hcall => ?_)
      refine (EndsAll.of_forall (P := fun _ _ calls _ => ∀ call ∈ calls, arena.Placed outer root call)
        (J := fun _ _ calls _ => ∀ call ∈ calls, arena.Placed outer root call) (fun _ => List.forall_mem_nil _)
        (fun hp hj => List.forall_mem_append.2 ⟨hp, hj⟩) _ t fun p hp s => ?_).weaken
        fun calls _ hcalls => List.forall_mem_cons.2 ⟨hcall, hcalls⟩
      refine branch_placed ht callback depth s (h.child ?_)
      rw [← place_contextAt, ← map_childContexts]
      exact List.mem_map_of_mem hp

end

/-! ### Sites -/

/-- Where gathering the externs sees a node. It sees the types in the documentation of a node as trees around
the place of that node. -/
inductive Stands (arena : Arena) (externs : NodeId) : NodeId → Place → Prop
  | tree {n : NodeId} {here : Place} : arena.PlacedAt .outermost externs n here → Stands arena externs n here
  | type {owner t n : NodeId} {there here : Place} : Stands arena externs owner there →
      t ∈ arena.typeRoots owner → arena.PlacedAt there t n here → Stands arena externs n here

theorem placedAt_of_mem_visits (ht : arena.Trees) {a : Arrival} (ha : a ∈ arena.visits .source root) :
    arena.PlacedAt .outermost root a.node a.place := by
  have hcarries : arena.Carries (arena.gatherPolicy .source) (arena.Leads .outermost root) :=
    ⟨fun _ _ _ _ _ h hc => h.child hc, fun h => absurd rfl h⟩
  obtain ⟨hmem, hentered⟩ := List.mem_filter.1 ha
  obtain ⟨around, h, hplace⟩ := hcarries.arrival _ _ _ _ .root a hmem
  rw [hplace hentered]
  exact h.placedAt ht

theorem stands_of_mem_visits (ht : arena.Trees) {a : Arrival} (ha : a ∈ arena.visits .externs root) :
    arena.Stands root a.node a.place := by
  have hcarries : arena.Carries (arena.gatherPolicy .externs) fun around parent n =>
      ∃ outer top, (∀ m here, arena.PlacedAt outer top m here → arena.Stands root m here) ∧
        arena.Leads outer top around parent n := by
    refine ⟨?_, ?_⟩
    · rintro around parent n place c ⟨outer, top, hstands, h⟩ hc
      exact ⟨outer, top, hstands, h.child hc⟩
    · rintro - around parent n t ⟨outer, top, hstands, h⟩ htype
      exact ⟨_, t, fun m here hm => .type (hstands n _ (h.placedAt ht)) htype hm, .root⟩
  obtain ⟨hmem, hentered⟩ := List.mem_filter.1 ha
  obtain ⟨around, ⟨outer, top, hstands, h⟩, hplace⟩ :=
    hcarries.arrival _ _ _ _ ⟨.outermost, root, fun _ _ => .tree, .root⟩ a hmem
  rw [hplace hentered]
  exact hstands _ _ (h.placedAt ht)

end Arena

namespace Gathering
open Traversal

/-- Gathering a region is a traversal. -/
theorem visitEach_traverse {σ : Type} (arena : Arena) (extractor : StatefulExtractor σ) (region : Region)
    (root : NodeId) (g : Gathering) (state : σ) :
    Ends .outermost (g, state)
      (arena.traverse ((arena.gatherPolicy region).callback arena fun (g, state) a =>
        if a.entered then visit arena extractor region g a state else (g, state)) (arena.size + 1) root)
      fun _ after => after = visitEach arena extractor region root g state := by
  have hfold (arrivals : List Arrival) (g : Gathering) (state : σ) :
      arrivals.foldlM (visit arena extractor region) g state =
        arrivals.foldl (fun (g, state) a => visit arena extractor region g a state) (g, state) := by
    induction arrivals generalizing g state with
    | nil => rfl
    | cons a arrivals ih => exact ih _ _
  rw [visitEach, Arena.visits, hfold, List.foldl_filter]
  exact Arena.branch_policy _ _ _ _ _

end Gathering

namespace Arena

/-- Traversals see each node where the path to it says, whatever callbacks do, and are back where they began
when they end. So callbacks are told, and so are sites recorded, whatever the extractor says. -/
theorem Trees.places (ht : arena.Trees) :
    (∀ (σ : Type) (callback : Callback σ) (depth : Nat) (root : NodeId) (before : Context) (s : σ),
      ∃ calls s', (arena.traverse callback depth root).run ⟨before, s⟩ = (calls, ⟨before, s'⟩) ∧
        (arena.traverse callback.recording depth root).run ⟨before, (s, [])⟩ =
          (calls, ⟨before, (s', calls.flatMap Call.arrivals)⟩) ∧
        ∀ call ∈ calls, arena.Placed before.place root call) ∧
    ∀ (σ : Type) (extractor : StatefulExtractor σ) (state : σ) (externs source : NodeId), arena.Linked →
      externs < arena.size → source < arena.size →
      ∃ r sites, (Resolver.ofStateful arena extractor state).gather externs source = .ok r ∧ r.sites = .ok sites ∧
        ∀ site ∈ sites, match site.region with
          | .externs => arena.Stands externs site.node site.place
          | .source => arena.PlacedAt .outermost source site.node site.place := by
  constructor
  · intro σ callback depth root before s
    have hleads : arena.Leads before.place root before.place none root := .root
    obtain ⟨calls, s', hrun, hplaced⟩ := branch_placed ht callback depth s hleads
    exact ⟨calls, s', hrun, traverse_recording hrun, hplaced⟩
  · intro σ extractor state externs source hl he hs
    have hkept := Gathering.kept_sites arena fun n here region => match region with
      | .externs => arena.Stands externs n here
      | .source => arena.PlacedAt .outermost source n here
    obtain ⟨after, state', hrun, hsites⟩ := hkept.run hl extractor he hs state
      (fun a ha => stands_of_mem_visits ht ha) (fun a ha => placedAt_of_mem_visits ht ha)
      fun _ hmem => absurd hmem List.not_mem_nil
    exact ⟨_, _, Resolver.gather_of_run hrun, rfl, hsites⟩

/-- A module, a declaration, a function expression with a name, and a block. -/
theorem Trees.places_nested :
    let arena := Program.ofScripts [⟨.externs, ascii "/** @type {function(string)} */ var e;", .standard⟩,
      ⟨.source, ascii "function f(p) { var b; } var g = function h() {}; { let c; }", ⟨some 3, true⟩⟩]
    let callback := (arena.gatherPolicy .externs).callback arena fun arrivals a => arrivals ++ [a]
    arena.Trees ∧ arena.Linked ∧ Region.externs.root < arena.size ∧ Region.source.root < arena.size ∧
      (∃ calls arrivals, (arena.traverse callback arena.size Region.source.root).run ⟨⟨some 4, [14]⟩, []⟩ =
          (calls, ⟨⟨some 4, [14]⟩, arrivals⟩) ∧
        (arena.traverse callback.recording arena.size Region.source.root).run ⟨⟨some 4, [14]⟩, ([], [])⟩ =
          (calls, ⟨⟨some 4, [14]⟩, (arrivals, calls.flatMap Call.arrivals)⟩) ∧
        ∀ call ∈ calls, arena.Placed ⟨some 4, false⟩ Region.source.root call) ∧
      ∃ r sites, (Resolver.ofArena arena .syntactic).gather Region.externs.root Region.source.root = .ok r ∧
        r.sites = .ok sites ∧ ∀ site ∈ sites, match site.region with
          | .externs => arena.Stands Region.externs.root site.node site.place
          | .source => arena.PlacedAt .outermost Region.source.root site.node site.place := by
  intro arena callback
  have hs : Program.Shape arena := Program.shape _
  have ht : arena.Trees := hs.linked.trees hs.acyclic hs.children_nodup
  obtain ⟨htraverse, hsites⟩ := Trees.places ht
  exact ⟨ht, hs.linked, hs.root_lt .externs, hs.root_lt .source, htraverse _ callback _ _ ⟨some 4, [14]⟩ [],
    hsites _ Extractor.syntactic.stateless () _ _ hs.linked (hs.root_lt .externs) (hs.root_lt .source)⟩

end Arena

end ScriptIndex
