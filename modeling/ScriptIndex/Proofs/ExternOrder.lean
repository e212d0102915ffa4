import ScriptIndex.Proofs.Descent
import ScriptIndex.Proofs.Forest
import ScriptIndex.Proofs.RegionSplit

/-! # What gathering asks the extractor

`ExternReach` says which nodes gathering comes to from the root of the externs, and `externOrder` lists
them in the order of the visits: a node after the types in its documentation and before its children. No
node is asked about twice, since it has one link to it at most. What is asked is what an extractor has noted
in the end that takes note of each question. -/

namespace ScriptIndex

namespace Arena

variable {arena : Arena} {depth : Nat} {parent : Option NodeId} {n m a b root : NodeId}

/-- Anything but a function that does not begin with a name, as those in types. -/
def IsOpen (arena : Arena) (n : NodeId) : Prop :=
  arena.isFunction n = true → ∃ c, arena.firstChild? n = some c ∧ arena.isName c = true

/-- How gathering goes on from a node of the externs: to a child, of a function only to the first, and to
the types in the documentation. -/
inductive ExternStep (arena : Arena) (n m : NodeId) : Prop
  | child (hm : m ∈ arena.children n) (hfirst : arena.isFunction n = true → arena.firstChild? n = some m)
      (ho : arena.IsOpen m)
  | type (hm : m ∈ arena.typeRoots n) (ho : arena.IsOpen m)

/-- There is a path of such steps, all of whose nodes are open. -/
def ExternReach (arena : Arena) (root n : NodeId) : Prop :=
  arena.IsOpen root ∧ Relation.ReflTransGen arena.ExternStep root n

/-- The nodes that gathering from the externs goes into, from a node that is reached from `parent`. -/
def externOrder (arena : Arena) : Nat → Option NodeId → NodeId → List NodeId
  | 0, _, _ => []
  | depth + 1, parent, n =>
    if arena.entersExtern n parent then
      (arena.typeRoots n).flatMap (externOrder arena depth none) ++
        n :: (arena.children n).flatMap (externOrder arena depth (some n))
    else []

theorem entersExtern_iff : arena.entersExtern n parent = true ↔
    arena.IsOpen n ∧ ∀ p, parent = some p → arena.isFunction p = true → arena.firstChild? p = some n := by
  have hopen : (!arena.isFunction n || (arena.firstChild? n).any arena.isName) = true ↔ arena.IsOpen n := by
    unfold IsOpen
    cases arena.isFunction n <;> cases arena.firstChild? n <;> simp
  unfold entersExtern
  rw [Bool.and_eq_true, hopen]
  refine and_congr_right fun _ => ?_
  cases parent with
  | none => simp
  | some p => cases hp : arena.isFunction p <;> simp [hp]

/-- A node's own call stands between those for its types and those for its children. -/
theorem externOrder_of_enters (h : arena.entersExtern n parent = true) :
    arena.externOrder (depth + 1) parent n =
      (arena.typeRoots n).flatMap (arena.externOrder depth none) ++
        n :: (arena.children n).flatMap (arena.externOrder depth (some n)) := by
  rw [externOrder, if_pos h]

theorem externOrder_of_not_enters (h : arena.entersExtern n parent = false) :
    arena.externOrder (depth + 1) parent n = [] := by
  rw [externOrder, if_neg (by simp [h])]

theorem ExternStep.link (h : arena.ExternStep n m) : arena.Link n m := by
  cases h with
  | child hm => exact .inl hm
  | type hm => exact .inr hm

theorem reach_of_mem_externOrder : ∀ {depth : Nat} {parent : Option NodeId} {n : NodeId},
    m ∈ arena.externOrder depth parent n →
      arena.entersExtern n parent = true ∧ Relation.ReflTransGen arena.ExternStep n m
  | 0, _, _, h => by cases h
  | depth + 1, parent, n, h => by
    cases henters : arena.entersExtern n parent with
    | false =>
      rw [externOrder_of_not_enters henters] at h
      cases h
    | true =>
      refine ⟨rfl, ?_⟩
      rw [externOrder_of_enters henters] at h
      rcases List.mem_append.1 h with h | h
      · obtain ⟨t, ht, h⟩ := List.mem_flatMap.1 h
        obtain ⟨hopen, hreach⟩ := reach_of_mem_externOrder h
        exact hreach.head (.type ht (entersExtern_iff.1 hopen).1)
      · rcases List.mem_cons.1 h with rfl | h
        · exact .refl
        · obtain ⟨c, hc, h⟩ := List.mem_flatMap.1 h
          obtain ⟨hopen, hreach⟩ := reach_of_mem_externOrder h
          obtain ⟨hopen, hfirst⟩ := entersExtern_iff.1 hopen
          exact hreach.head (.child hc (hfirst n rfl) hopen)

/-- Deeper than the rank of a node, the order holds all that is reached from it. -/
theorem mem_externOrder_iff (hl : arena.Linked) (ha : arena.Acyclic) :
    ∀ {depth : Nat} {parent : Option NodeId} {n : NodeId}, arena.rank n < depth →
      (m ∈ arena.externOrder depth parent n ↔
        arena.entersExtern n parent = true ∧ Relation.ReflTransGen arena.ExternStep n m)
  | depth + 1, parent, n, hdepth => by
    refine ⟨reach_of_mem_externOrder, ?_⟩
    rintro ⟨henters, hreach⟩
    rw [externOrder_of_enters henters]
    rcases Relation.ReflTransGen.cases_head hreach with rfl | ⟨k, hstep, hreach⟩
    · exact List.mem_append_right _ List.mem_cons_self
    · have hrank := ha.rank_lt hl hstep.link
      have hk : arena.rank k < depth := by omega
      cases hstep with
      | type hm ho =>
        refine List.mem_append_left _ (List.mem_flatMap.2 ⟨k, hm, (mem_externOrder_iff hl ha hk).2 ⟨?_, hreach⟩⟩)
        exact entersExtern_iff.2 ⟨ho, fun p hp => by cases hp⟩
      | child hm hfirst ho =>
        refine List.mem_append_right _ (List.mem_cons_of_mem _ (List.mem_flatMap.2 ⟨k, hm, ?_⟩))
        refine (mem_externOrder_iff hl ha hk).2 ⟨entersExtern_iff.2 ⟨ho, ?_⟩, hreach⟩
        rintro p ⟨⟩
        exact hfirst

/-- Around each node of the order stands the order from that node, at a sufficient depth. -/
theorem externOrder_infix (hl : arena.Linked) (ha : arena.Acyclic) :
    ∀ {depth : Nat} {parent : Option NodeId} {n : NodeId}, arena.rank n < depth →
      m ∈ arena.externOrder depth parent n → ∃ d q, arena.rank m < d + 1 ∧ arena.entersExtern m q = true ∧
        arena.externOrder (d + 1) q m <:+: arena.externOrder depth parent n
  | depth + 1, parent, n, hdepth, h => by
    have henters := (reach_of_mem_externOrder h).1
    have hblock : ∀ (q : Option NodeId) {links : List NodeId} {k : NodeId}, k ∈ links →
        arena.externOrder depth q k <:+: links.flatMap (arena.externOrder depth q) := by
      intro q links k hk
      obtain ⟨before, after, rfl⟩ := List.append_of_mem hk
      exact ⟨before.flatMap (arena.externOrder depth q), after.flatMap (arena.externOrder depth q), by simp⟩
    rw [externOrder_of_enters henters] at h ⊢
    rcases List.mem_append.1 h with h | h
    · obtain ⟨t, ht, h⟩ := List.mem_flatMap.1 h
      have hrank := ha.rank_lt hl (.inr ht)
      obtain ⟨d, q, hd, hq, hsub⟩ := externOrder_infix hl ha (by omega) h
      exact ⟨d, q, hd, hq, (hsub.trans (hblock none ht)).trans (List.prefix_append _ _).isInfix⟩
    · rcases List.mem_cons.1 h with rfl | h
      · refine ⟨depth, parent, hdepth, henters, ?_⟩
        rw [externOrder_of_enters henters]
      · obtain ⟨c, hc, h⟩ := List.mem_flatMap.1 h
        have hrank := ha.rank_lt hl (.inl hc)
        obtain ⟨d, q, hd, hq, hsub⟩ := externOrder_infix hl ha (by omega) h
        refine ⟨d, q, hd, hq, (hsub.trans (hblock (some n) hc)).trans ?_⟩
        exact ((List.suffix_cons n _).trans (List.suffix_append _ _)).isInfix

/-- The visits of the externs are those of the order. -/
theorem nodes_walkWithin_externs (depth : Nat) (around : Place) (parent : Option NodeId) (n : NodeId) :
    ((arena.walkWithin (arena.gatherPolicy .externs) depth around parent n).filter (·.entered)).map (·.node) =
      arena.externOrder depth parent n := by
  induction depth generalizing around parent n with
  | zero => rfl
  | succ depth ih =>
    cases henters : arena.entersExtern n parent with
    | false =>
      have hpolicy : (arena.gatherPolicy .externs).enters n parent = false := henters
      rw [walkWithin_of_not_enters hpolicy, externOrder_of_not_enters henters]
      rfl
    | true =>
      have hpolicy : (arena.gatherPolicy .externs).enters n parent = true := henters
      have htypes : arena.typeWalk (arena.gatherPolicy .externs) .beforeOwner depth (arena.placeAt around n) n =
          (arena.typeRoots n).flatMap
            (arena.walkWithin (arena.gatherPolicy .externs) depth (arena.placeAt around n) none) := if_pos rfl
      have hafter : arena.typeWalk (arena.gatherPolicy .externs) .afterOwner depth (arena.placeAt around n) n =
          [] := if_neg fun h => by cases h
      rw [walkWithin_of_enters hpolicy, externOrder_of_enters henters, htypes, hafter, List.append_nil,
        List.append_assoc, List.filter_append, List.map_append, List.filter_flatMap, List.map_flatMap]
      congr 1
      · exact List.flatMap_congr fun t _ => ih _ none t
      · rw [List.singleton_append, List.filter_cons_of_pos rfl, List.map_cons, childWalk, List.filter_flatMap,
          List.map_flatMap, ← map_snd_childPlaces arena (arena.placeAt around n) n parent, List.flatMap_map]
        congr 1
        exact List.flatMap_congr fun p _ => ih p.1 (some n) p.2

/-! ### No node twice -/

section
variable (hs : Program.Shape arena) (hr : Assembly.RootInv ⟨arena, []⟩)
include hs hr

/-- A node is a child of one node or a type in the documentation of one node. -/
theorem link_unique (h : arena.Link a n) (h' : arena.Link b n) : a = b := by
  have hfree : ∀ p q, n ∈ arena.children p → n ∉ arena.typeRoots q := by
    intro p q hc ht
    have hp := (hs.linked.mem_children p n).1 hc
    rw [hr.root_free q n ht] at hp
    cases hp
  rcases h with hc | ht <;> rcases h' with hc' | ht'
  · exact hs.linked.parent_unique hc hc'
  · exact absurd ht' (hfree a b hc)
  · exact absurd ht (hfree b a hc')
  · exact hr.owner_unique a b n ht ht'

/-- What two links of one node lead to is apart. -/
theorem disjoint_of_link (ha : arena.Link n a) (hb : arena.Link n b) (hne : a ≠ b)
    (h : Relation.ReflTransGen arena.Link a m) : ¬ Relation.ReflTransGen arena.Link b m := by
  intro h'
  have hsame : ∀ x y, arena.Link n x → arena.Link n y → Relation.ReflTransGen arena.Link x y → x = y := by
    intro x y hx hy hxy
    rcases Relation.ReflTransGen.cases_tail hxy with heq | ⟨p, hxp, hpy⟩
    · exact heq.symm
    · rw [link_unique hs hr hpy hy] at hxp
      exact absurd (Relation.TransGen.head' hx hxp) (hs.acyclic n)
  have htotal : Relation.ReflTransGen arena.Link a b ∨ Relation.ReflTransGen arena.Link b a := by
    induction h with
    | refl => exact .inr h'
    | @tail p k hp hpk ih =>
      rcases Relation.ReflTransGen.cases_tail h' with rfl | ⟨q, hq, hqk⟩
      · exact .inl (hp.tail hpk)
      · exact ih (link_unique hs hr hqk hpk ▸ hq)
  rcases htotal with hab | hba
  · exact hne (hsame a b ha hb hab)
  · exact hne (hsame b a hb ha hba).symm

theorem externOrder_nodup : ∀ (depth : Nat) (parent : Option NodeId) (n : NodeId),
    (arena.externOrder depth parent n).Nodup
  | 0, _, _ => List.nodup_nil
  | depth + 1, parent, n => by
    have hreach : ∀ {q k m}, m ∈ arena.externOrder depth q k → Relation.ReflTransGen arena.Link k m := fun h =>
      Relation.ReflTransGen.mono (fun _ _ hstep => hstep.link) _ _ (reach_of_mem_externOrder h).2
    have hdisjoint : ∀ {q q' a b}, arena.Link n a → arena.Link n b → a ≠ b →
        List.Disjoint (arena.externOrder depth q a) (arena.externOrder depth q' b) := by
      intro q q' a b ha hb hne
      refine List.disjoint_left.2 fun m hm hm' => ?_
      exact disjoint_of_link hs hr ha hb hne (hreach hm) (hreach hm')
    have hself : ∀ {q k}, arena.Link n k → n ∉ arena.externOrder depth q k := fun hk h =>
      hs.acyclic n (Relation.TransGen.head' hk (hreach h))
    cases henters : arena.entersExtern n parent with
    | false =>
      rw [externOrder_of_not_enters henters]
      exact List.nodup_nil
    | true =>
      rw [externOrder_of_enters henters]
      refine List.nodup_append.2 ⟨?_, List.nodup_cons.2 ⟨fun h => ?_, ?_⟩, fun a hmem b hmem' => ?_⟩
      · refine List.nodup_flatMap.2 ⟨fun t _ => externOrder_nodup depth none t, ?_⟩
        exact (hr.roots_nodup n).imp_of_mem fun ha hb hne => hdisjoint (.inr ha) (.inr hb) hne
      · obtain ⟨c, hc, h⟩ := List.mem_flatMap.1 h
        exact hself (.inl hc) h
      · refine List.nodup_flatMap.2 ⟨fun c _ => externOrder_nodup depth (some n) c, ?_⟩
        exact (hs.children_nodup n).imp_of_mem fun ha hb hne => hdisjoint (.inl ha) (.inl hb) hne
      · rintro rfl
        obtain ⟨t, ht, hmem⟩ := List.mem_flatMap.1 hmem
        rcases List.mem_cons.1 hmem' with heq | hmem'
        · exact hself (.inr ht) (heq ▸ hmem)
        · obtain ⟨c, hc, hmem'⟩ := List.mem_flatMap.1 hmem'
          -- a type is no child
          have hne : t ≠ c := by
            rintro rfl
            have hp := (hs.linked.mem_children n t).1 hc
            rw [hr.root_free n t ht] at hp
            cases hp
          exact hdisjoint (.inr ht) (.inl hc) hne hmem hmem'

end

/-- In the order from an open root, each node comes after the blocks of its types and before those of its
children; a block is all that is reached from its node. -/
theorem externOrder_blocks (hl : arena.Linked) (ha : arena.Acyclic) (hdepth : arena.rank root < depth)
    (h : n ∈ arena.externOrder depth parent root) :
    ∃ before after ofType ofChild, arena.externOrder depth parent root =
        before ++ (arena.typeRoots n).flatMap ofType ++ [n] ++ (arena.children n).flatMap ofChild ++ after ∧
      (∀ t ∈ arena.typeRoots n, ∀ m, m ∈ ofType t ↔ arena.ExternReach t m) ∧
      ∀ c ∈ arena.children n, ∀ m, m ∈ ofChild c ↔
        (arena.isFunction n = true → arena.firstChild? n = some c) ∧ arena.ExternReach c m := by
  obtain ⟨d, q, hd, henters, before, after, heq⟩ := externOrder_infix hl ha hdepth h
  rw [externOrder_of_enters henters] at heq
  refine ⟨before, after, arena.externOrder d none, arena.externOrder d (some n), ?_, fun t ht m => ?_,
    fun c hc m => ?_⟩
  · rw [← heq]
    simp
  · have hrank := ha.rank_lt hl (.inr ht)
    rw [mem_externOrder_iff hl ha (by omega), entersExtern_iff]
    simp [ExternReach]
  · have hrank := ha.rank_lt hl (.inl hc)
    rw [mem_externOrder_iff hl ha (by omega), entersExtern_iff, ExternReach]
    constructor
    · rintro ⟨⟨hopen, hfirst⟩, hreach⟩
      exact ⟨hfirst n rfl, hopen, hreach⟩
    · rintro ⟨hfirst, hopen, hreach⟩
      refine ⟨⟨hopen, ?_⟩, hreach⟩
      rintro p ⟨⟩
      exact hfirst

end Arena

/-! ### What is asked -/

namespace Gathering

variable {σ : Type} {arena : Arena} {externs source : NodeId}

/-- The questions at some arrivals. -/
def questions (region : Region) (arrivals : List Arrival) : List (NodeId × Region) :=
  (arrivals.map (·.node)).map (·, region)

/-- A visit asks about its node once, and to take note of that changes nothing else. -/
theorem visit_recording (extractor : StatefulExtractor σ) (region : Region) (g : Gathering) (a : Arrival) (state : σ)
    (asked : List (NodeId × Region)) : visit arena extractor.recording region g a (state, asked) =
      ((visit arena extractor region g a state).1,
        ((visit arena extractor region g a state).2, asked ++ [(a.node, region)])) :=
  rfl

theorem foldlM_visit_recording (extractor : StatefulExtractor σ) (region : Region) :
    ∀ (arrivals : List Arrival) (g : Gathering) (state : σ) (asked : List (NodeId × Region)),
      arrivals.foldlM (visit arena extractor.recording region) g (state, asked) =
        ((arrivals.foldlM (visit arena extractor region) g state).1,
          ((arrivals.foldlM (visit arena extractor region) g state).2, asked ++ questions region arrivals))
  | [], g, state, asked => by
    rw [questions, List.map_nil, List.map_nil, List.append_nil]
    rfl
  | a :: arrivals, g, state, asked => by
    show arrivals.foldlM (visit arena extractor.recording region)
      (visit arena extractor.recording region g a (state, asked)).1
      (visit arena extractor.recording region g a (state, asked)).2 = _
    rw [visit_recording, foldlM_visit_recording extractor region arrivals, List.append_assoc]
    rfl

/-- A run whose questions are noted is the run without the notes, and asks at each visit. -/
theorem run_recording (hl : arena.Linked) (extractor : StatefulExtractor σ) (he : externs < arena.size)
    (hs : source < arena.size) (state : σ) :
    ∃ after state', empty.run arena extractor externs source state = .ok (after, state') ∧
      empty.run arena extractor.recording externs source (state, []) = .ok (after, (state',
        questions .externs (arena.visits .externs externs) ++ questions .source (arena.visits .source source))) := by
  obtain ⟨first, second, rfl, rfl, hrun⟩ := run_eq hl extractor he hs state
  obtain ⟨noted, noted', hfirst, hsecond, hnoted⟩ := run_eq hl extractor.recording he hs (state, [])
  rw [visitEach, foldlM_visit_recording] at hfirst
  subst hfirst
  rw [visitEach, foldlM_visit_recording] at hsecond
  subst hsecond
  exact ⟨_, _, hrun, hnoted⟩

end Gathering

namespace Program

/-- Gathering a program asks about the nodes reached from the externs and then about those of the source in
pre-order, about none twice: these are the notes of an extractor that takes note of each question and hands it on.
Whatever the extractor answers, and whatever it keeps from one question to the next, the types in the
documentation of an extern node come before the node, and what is below it comes after. -/
theorem asked_in_order (scripts : List Script) {σ : Type} (extractor : StatefulExtractor σ) (state : σ) :
    let arena := ofScripts scripts
    ∃ r noted calls,
      (Resolver.ofStateful arena extractor state).gather Region.externs.root Region.source.root = .ok r ∧
      (Resolver.ofStateful arena extractor.recording (state, [])).gather Region.externs.root Region.source.root =
        .ok noted ∧
      noted.gathering = r.gathering ∧
      noted.memory = (r.memory, calls.map (·, Region.externs) ++
        (arena.preorder Region.source.root).map (·, Region.source)) ∧
      (noted.memory.2.map Prod.fst).Nodup ∧
      (∀ n, n ∈ calls ↔ arena.ExternReach Region.externs.root n) ∧
      (∀ n ∈ calls, ∃ before after ofType ofChild, calls =
          before ++ (arena.typeRoots n).flatMap ofType ++ [n] ++ (arena.children n).flatMap ofChild ++ after ∧
        (∀ t ∈ arena.typeRoots n, ∀ m, m ∈ ofType t ↔ arena.ExternReach t m) ∧
        ∀ c ∈ arena.children n, ∀ m, m ∈ ofChild c ↔
          (arena.isFunction n = true → arena.firstChild? n = some c) ∧ arena.ExternReach c m) ∧
      ∀ nodes, (arena.descendants Region.source.root).Yields nodes ↔
        nodes = arena.preorder Region.source.root := by
  intro arena
  have hs : Shape arena := shape scripts
  have hroots : Assembly.RootInv ⟨arena, []⟩ := (forestInv scripts).roots
  have hrank : arena.rank Region.externs.root < arena.size + 1 :=
    Nat.lt_succ_of_lt (hs.acyclic.rank_lt_size (hs.root_lt .externs))
  obtain ⟨after, state', hrun, hnoted⟩ :=
    Gathering.run_recording hs.linked extractor (hs.root_lt .externs) (hs.root_lt .source) state
  have hexterns : (arena.visits .externs Region.externs.root).map (·.node) =
      arena.externOrder (arena.size + 1) none Region.externs.root :=
    Arena.nodes_walkWithin_externs _ _ _ _
  have hsource : (arena.visits .source Region.source.root).map (·.node) =
      arena.preorder Region.source.root :=
    Arena.nodes_visits_source hs.linked hs.acyclic (hs.root_lt .source)
  rw [Gathering.questions, Gathering.questions, hexterns, hsource] at hnoted
  refine ⟨_, _, arena.externOrder (arena.size + 1) none Region.externs.root, Resolver.gather_of_run hrun,
    Resolver.gather_of_run hnoted, rfl, rfl, ?_, fun n => ?_,
    fun n hn => Arena.externOrder_blocks hs.linked hs.acyclic hrank hn,
    fun _ => (hs.linked.trees hs.acyclic hs.children_nodup).descendants_yields_iff (hs.root_lt .source)⟩
  · rw [List.map_append, List.map_map, List.map_map]
    show (List.map id _ ++ List.map id _).Nodup
    rw [List.map_id, List.map_id]
    refine List.nodup_append.2 ⟨Arena.externOrder_nodup hs hroots _ _ _,
      hs.linked.preorder_nodup hs.acyclic hs.children_nodup _, fun a ha b hb => ?_⟩
    rintro rfl
    rw [← hexterns] at ha
    obtain ⟨arrival, hmem, rfl⟩ := List.mem_map.1 ha
    exact hs.visits_externs_not_mem hmem hb
  · rw [Arena.mem_externOrder_iff hs.linked hs.acyclic hrank, Arena.entersExtern_iff]
    simp [Arena.ExternReach]

end Program

end ScriptIndex
