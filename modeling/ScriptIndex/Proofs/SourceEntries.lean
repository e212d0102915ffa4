import ScriptIndex.Proofs.GatherRuns
import ScriptIndex.Proofs.IndexInv

/-! # What the source adds

In the source, gathering only records what the extractor finds at each node, in pre-order. -/

namespace ScriptIndex

namespace Index

variable {index : Index} {entries : List (String × Site)}

/-- Records sites under names, one after the other. -/
def insertAll (entries : List (String × Site)) (index : Index) : Index :=
  entries.foldl (fun index e => index.insert e.1 e.2) index

theorem definitions_insertAll (name : String) : ∀ (entries : List (String × Site)) (index : Index),
    (insertAll entries index).definitions name =
      index.definitions name ++ (entries.filter (·.1 = name)).map (·.2.definition)
  | [], index => by simp [insertAll]
  | e :: entries, index => by
    rw [insertAll, List.foldl_cons]
    refine (definitions_insertAll name entries (index.insert e.1 e.2)).trans ?_
    rw [definitions_insert]
    by_cases h : e.1 = name <;> simp [h]

theorem sites_insertAll : ∀ (entries : List (String × Site)) (index : Index),
    (∀ s ∈ index.sites, ∀ e ∈ entries, s.node ≠ e.2.node) → (entries.map (·.2.node)).Nodup →
      (insertAll entries index).sites = index.sites ++ entries.map Prod.snd
  | [], index, _, _ => by simp [insertAll]
  | e :: entries, index, hnew, hnd => by
    obtain ⟨hnot, hnd⟩ := List.nodup_cons.1 hnd
    have hinsert : (index.insert e.1 e.2).sites = index.sites ++ [e.2] := by
      refine putSite_eq_append fun hmem => ?_
      obtain ⟨s, hs, heq⟩ := List.mem_map.1 hmem
      exact hnew s hs e List.mem_cons_self heq
    rw [insertAll, List.foldl_cons]
    refine (sites_insertAll entries (index.insert e.1 e.2) (fun s hs e' he' heq => ?_) hnd).trans ?_
    · rw [hinsert] at hs
      rcases List.mem_append.1 hs with hs | hs
      · exact hnew s hs e' (List.mem_cons_of_mem _ he') heq
      · rw [List.mem_singleton.1 hs] at heq
        exact hnot (List.mem_map.2 ⟨e', he', heq.symm⟩)
    · rw [hinsert, List.append_assoc]
      rfl

/-- New names come after those there are, each where it first occurs. -/
theorem names_insertAll : ∀ (entries : List (String × Site)) (index : Index),
    (insertAll entries index).names =
      index.names ++ ((entries.map Prod.fst).filter (· ∉ index.names)).eraseDups
  | [], index => by simp [insertAll]
  | e :: entries, index => by
    have hinsert : (index.insert e.1 e.2).names = if e.1 ∈ index.names then index.names else index.names ++ [e.1] :=
      names_addTo
    rw [insertAll, List.foldl_cons]
    refine (names_insertAll entries (index.insert e.1 e.2)).trans ?_
    rw [hinsert, List.map_cons]
    split_ifs with hmem
    · rw [List.filter_cons_of_neg (by simpa using hmem)]
    · rw [List.filter_cons_of_pos (by simpa using hmem), List.eraseDups_cons, List.append_assoc,
        List.singleton_append, List.filter_filter]
      congr 3
      refine List.filter_congr fun name _ => ?_
      rw [Bool.eq_iff_iff]
      simp [and_comm]

end Index

namespace Arena

/-- `n` is in a script of the module, or in none. -/
inductive InModule (arena : Arena) : NodeId → Option ModuleId → Prop
  | script {n : NodeId} {module : Option ModuleId} (hk : arena.kind? n = some (.script module)) :
      InModule arena n module
  | child {n p : NodeId} {module : Option ModuleId} (hk : ∀ m, arena.kind? n ≠ some (.script m))
      (hp : arena.parent? n = some p) (h : InModule arena p module) : InModule arena n module
  | outermost {n : NodeId} (hk : ∀ m, arena.kind? n ≠ some (.script m)) (hp : arena.parent? n = none) :
      InModule arena n none

variable {arena : Arena} {n root : NodeId} {around : Place} {extractor : Extractor}

theorem inModule_placeAt (hnone : arena.parent? n = none → around.module = none)
    (hsome : ∀ p, arena.parent? n = some p → arena.InModule p around.module) :
    arena.InModule n (arena.placeAt around n).module := by
  unfold placeAt
  split
  · next module hk => exact .script hk
  · next hk =>
    have hk : ∀ m, arena.kind? n ≠ some (.script m) := fun m heq => hk m heq
    cases hp : arena.parent? n with
    | none =>
      rw [hnone hp]
      exact .outermost hk hp
    | some p => exact .child hk hp (hsome p hp)

/-- Each node of the source is visited at a place in its module. -/
theorem inModule_of_visits (hl : arena.Linked) (hroot : arena.parent? root = none) {a : Arrival}
    (ha : a ∈ arena.visits .source root) : arena.InModule a.node a.place.module := by
  have hc : Carries arena (arena.gatherPolicy .source) fun around _ n =>
      (arena.parent? n = none → around.module = none) ∧
        ∀ p, arena.parent? n = some p → arena.InModule p around.module := by
    refine ⟨fun around _ n place c hn hmem => ?_, fun htypes => absurd rfl htypes⟩
    have hp := (hl.mem_children n c).1 (mem_children_of_childPlaces hmem)
    rw [hp, module_childPlaces hmem]
    refine ⟨fun h => (Option.some_ne_none n h).elim, fun p heq => ?_⟩
    cases heq
    exact inModule_placeAt hn.1 hn.2
  obtain ⟨hmem, hentered⟩ := List.mem_filter.1 ha
  obtain ⟨place, h, hplace⟩ := hc.arrival _ .outermost none root
    ⟨fun _ => rfl, fun p hp => by rw [hroot] at hp; cases hp⟩ a hmem
  rw [hplace hentered]
  exact inModule_placeAt h.1 h.2

/-- The nodes of the source are visited in pre-order. -/
theorem nodes_visits_source (hl : arena.Linked) (ha : arena.Acyclic) (hroot : root < arena.size) :
    (arena.visits .source root).map (·.node) = arena.preorder root := by
  obtain ⟨hentered, hnodes⟩ := nodes_walkWithin_source (arena.size + 1) .outermost none root
  have hrank := ha.rank_lt_size hroot
  rw [visits, List.filter_eq_self.2 hentered, hnodes, preorder]
  exact hl.preorderWithin_eq ha (Nat.lt_succ_of_lt hrank) hrank

/-- What a visit in the source records, and under which name. -/
def sourceEntry? (arena : Arena) (extractor : Extractor) (a : Arrival) : Option (String × Site) :=
  (extractor arena a.node .source).bind fun d =>
    (arena.canonicalName? d.lvalue).map fun name =>
      (name, ⟨a.node, d.recorded arena .source, a.place, .source⟩)

def sourceEntries (arena : Arena) (extractor : Extractor) (root : NodeId) : List (String × Site) :=
  (arena.visits .source root).filterMap (arena.sourceEntry? extractor)

/-- What is read off the entries of the source is read off its nodes. -/
theorem map_sourceEntries {β : Type} {f : String × Site → Option β} {g : NodeId → Definition → String → Option β}
    (hl : arena.Linked) (ha : arena.Acyclic) (hroot : root < arena.size)
    (hf : ∀ n place d name, f (name, ⟨n, d, place, .source⟩) = g n d name) :
    (arena.sourceEntries extractor root).filterMap f = (arena.preorder root).filterMap fun n =>
      (extractor arena n .source).bind fun d =>
        (arena.canonicalName? d.lvalue).bind (g n (d.recorded arena .source)) := by
  rw [sourceEntries, ← nodes_visits_source hl ha hroot, List.filterMap_filterMap, List.filterMap_map]
  refine List.filterMap_congr fun a _ => ?_
  simp only [Function.comp_apply, sourceEntry?]
  cases extractor arena a.node .source with
  | none => rfl
  | some d =>
    simp only [Option.bind_some]
    cases arena.canonicalName? d.lvalue with
    | none => rfl
    | some name => exact hf a.node a.place (d.recorded arena .source) name

/-- In a bucket the entries of the source are what the extractor says of the nodes, in pre-order. -/
theorem definitions_sourceEntries (hl : arena.Linked) (ha : arena.Acyclic) (hroot : root < arena.size)
    (index : Index) (name : String) :
    (Index.insertAll (arena.sourceEntries extractor root) index).definitions name =
      index.definitions name ++ (arena.preorder root).filterMap fun n =>
        (extractor arena n .source).bind fun d =>
          if arena.canonicalName? d.lvalue = some name then some (d.recorded arena .source) else none := by
  have hbucket : ((arena.sourceEntries extractor root).filter (·.1 = name)).map (·.2.definition) =
      (arena.sourceEntries extractor root).filterMap fun e =>
        if e.1 = name then some e.2.definition else none := by
    rw [← List.filterMap_eq_map', ← List.filterMap_eq_filter, List.filterMap_filterMap]
    refine List.filterMap_congr fun e _ => ?_
    by_cases h : e.1 = name <;> simp [h]
  have hname : ∀ (o : Option String) (d : Definition),
      (o.bind fun k => if k = name then some d else none) = if o = some name then some d else none := by
    intro o d
    cases o <;> simp
  rw [Index.definitions_insertAll, hbucket,
    map_sourceEntries hl ha hroot (g := fun _ d k => if k = name then some d else none) fun _ _ _ _ => rfl]
  simp only [hname]

theorem names_sourceEntries (hl : arena.Linked) (ha : arena.Acyclic) (hroot : root < arena.size)
    (index : Index) :
    (Index.insertAll (arena.sourceEntries extractor root) index).names =
      index.names ++ (((arena.preorder root).filterMap fun n =>
        (extractor arena n .source).bind fun d => arena.canonicalName? d.lvalue).filter
          (· ∉ index.names)).eraseDups := by
  rw [Index.names_insertAll, ← List.filterMap_eq_map,
    map_sourceEntries hl ha hroot (g := fun _ _ k => some k) fun _ _ _ _ => rfl]
  simp only [Option.bind_fun_some]

/-- The sites of the source are what the extractor says of the nodes, in pre-order. -/
theorem sites_sourceEntries (hl : arena.Linked) (ha : arena.Acyclic) (hroot : root < arena.size) :
    (((arena.sourceEntries extractor root).map Prod.snd).map fun s => (s.node, s.definition, s.region)) =
      (arena.preorder root).filterMap fun n =>
        (extractor arena n .source).bind fun d =>
          (arena.canonicalName? d.lvalue).map fun _ => (n, d.recorded arena .source, Region.source) := by
  rw [List.map_map, ← List.filterMap_eq_map,
    map_sourceEntries hl ha hroot (g := fun n d _ => some (n, d, Region.source)) fun _ _ _ _ => rfl]
  simp only [Option.map_eq_bind]
  rfl

theorem nodes_sourceEntries (hl : arena.Linked) (ha : arena.Acyclic) (hroot : root < arena.size) :
    ((arena.sourceEntries extractor root).map (·.2.node)).Sublist (arena.preorder root) := by
  rw [← nodes_visits_source hl ha hroot, sourceEntries, List.map_filterMap]
  generalize arena.visits .source root = arrivals
  induction arrivals with
  | nil => exact List.Sublist.refl _
  | cons a arrivals ih =>
    rw [List.filterMap_cons, List.map_cons]
    cases he : arena.sourceEntry? extractor a with
    | none => exact ih.cons a.node
    | some e =>
      have hnode : e.2.node = a.node := by
        obtain ⟨d, -, he⟩ := Option.bind_eq_some_iff.1 he
        obtain ⟨name, -, rfl⟩ := Option.map_eq_some_iff.1 he
        rfl
      exact hnode ▸ ih.cons_cons e.2.node

/-- Each site of the source is in its module. -/
theorem inModule_of_sourceEntries (hl : arena.Linked) (hroot : arena.parent? root = none) {e : String × Site}
    (he : e ∈ arena.sourceEntries extractor root) : arena.InModule e.2.node e.2.place.module := by
  obtain ⟨a, ha, he⟩ := List.mem_filterMap.1 he
  obtain ⟨d, -, he⟩ := Option.bind_eq_some_iff.1 he
  obtain ⟨name, -, rfl⟩ := Option.map_eq_some_iff.1 he
  exact inModule_of_visits hl hroot ha

end Arena

namespace Gathering

variable {arena : Arena} {extractor : Extractor} {root : NodeId}

/-- In the source a visit only records what the extractor finds. -/
theorem index_visit_source (g : Gathering) (a : Arrival) : (g.visitBy arena extractor .source a).index =
    Index.insertAll (arena.sourceEntry? extractor a).toList g.index := by
  unfold visitBy note Arena.sourceEntry?
  cases hd : extractor arena a.node .source with
  | none => rfl
  | some d =>
    cases hname : arena.canonicalName? d.lvalue with
    | none => simp [recordFound, hname, Index.insertAll]
    | some name => simp [recordFound, record, hname, Index.insertAll]

theorem index_visitAll_source (g : Gathering) : (g.visitAll arena extractor .source root).index =
    Index.insertAll (arena.sourceEntries extractor root) g.index := by
  unfold visitAll Arena.sourceEntries
  generalize arena.visits .source root = arrivals
  induction arrivals generalizing g with
  | nil => rfl
  | cons a arrivals ih =>
    rw [List.foldl_cons, ih, index_visit_source, Index.insertAll, Index.insertAll, Index.insertAll,
      ← List.foldl_append, List.filterMap_cons]
    cases arena.sourceEntry? extractor a <;> rfl

end Gathering

end ScriptIndex
