import ScriptIndex.Proofs.StubSteps
import ScriptIndex.Proofs.Syntactic

/-! # The sites of a program

Gathering a program by its form visits each node that may define a name or be a stub once, in pre-order. So
buckets and sites agree, and `sitesAfter` says what a visit does to the sites. -/

namespace ScriptIndex

/-- The sites after a visit. -/
def Arena.sitesAfter (arena : Arena) (region : Region) (sites : List Site) (a : Arrival) : List Site :=
  match arena.canonicalName? a.node, Extractor.syntactic arena a.node region with
  | none, _ => sites
  | some _, some d =>
    (if region = .externs then sites.filter (fun s => !arena.supersedes a.node s.definition) else sites) ++
      [⟨a.node, d.recorded arena region, a.place, region⟩]
  | some _, none =>
    if region = .externs && arena.isBare a.node then
      if !arena.declares a.node && sites.any fun s => arena.sameQualified s.definition.lvalue a.node
      then sites else sites ++ [⟨a.node, .stub a.node, a.place, .externs⟩]
    else sites

/-- Whether a visit of the node may record a site. -/
def Arena.maySite (arena : Arena) (region : Region) (n : NodeId) : Bool :=
  arena.isBare n || (Extractor.syntactic arena n region).isSome

variable {arena : Arena} {region : Region} {sites : List Site} {a : Arrival} {typed : NodeId → Prop}
  {root : NodeId}

theorem Arena.sitesAfter_eq (h : arena.maySite region a.node = false) :
    arena.sitesAfter region sites a = sites := by
  obtain ⟨hbare, hfound⟩ := Bool.or_eq_false_iff.1 h
  rw [Option.isSome_eq_false_iff, Option.isNone_iff_eq_none] at hfound
  unfold sitesAfter
  rw [hfound]
  cases arena.canonicalName? a.node with
  | none => rfl
  | some k => simp [hbare]

theorem Arena.nodes_sitesAfter (arena : Arena) (region : Region) (sites : List Site) (a : Arrival) :
    ((arena.sitesAfter region sites a).map (·.node)).Sublist (sites.map (·.node) ++ [a.node]) := by
  have hself : (sites.map (·.node)).Sublist (sites.map (·.node) ++ [a.node]) := List.sublist_append_left _ _
  unfold sitesAfter
  split
  · exact hself
  · rw [List.map_append]
    refine List.Sublist.append ?_ (List.Sublist.refl _)
    split_ifs
    · exact List.filter_sublist.map _
    · exact List.Sublist.refl _
  · split_ifs
    · exact hself
    · rw [List.map_append]
      exact List.Sublist.refl _
    · exact hself

/-- A visit takes no more than its own node from those that are still to come. -/
theorem Arena.nodes_sitesAfter_append (arrivals : List Arrival) :
    ((arena.sitesAfter region sites a).map (·.node) ++
        (arrivals.filter (fun a => arena.maySite region a.node)).map (·.node)).Sublist
      (sites.map (·.node) ++
        ((a :: arrivals).filter (fun a => arena.maySite region a.node)).map (·.node)) := by
  cases hmay : arena.maySite region a.node with
  | false =>
    rw [sitesAfter_eq hmay, List.filter_cons_of_neg (by simp [hmay])]
  | true =>
    rw [List.filter_cons_of_pos (by simpa using hmay), List.map_cons, ← List.singleton_append,
      ← List.append_assoc]
    exact (arena.nodes_sitesAfter region sites a).append (List.Sublist.refl _)

/-- The nodes of new sites are among those visited, in order. -/
theorem Arena.nodes_foldl_sitesAfter : ∀ (arrivals : List Arrival) (sites : List Site),
    ((arrivals.foldl (arena.sitesAfter region) sites).map (·.node)).Sublist
      (sites.map (·.node) ++ (arrivals.filter (fun a => arena.maySite region a.node)).map (·.node))
  | [], sites => by simp
  | _ :: arrivals, _ => by
    rw [List.foldl_cons]
    exact (nodes_foldl_sitesAfter arrivals _).trans (nodes_sitesAfter_append arrivals)

/-- What stands at a site: a definition found by form, or in the externs a stub. -/
def Arena.Records (arena : Arena) (region : Region) (s : Site) : Prop :=
  (∃ d, Extractor.syntactic arena s.node region = some d ∧ s.definition = d.recorded arena region) ∨
    region = .externs ∧ arena.isBare s.node = true ∧ s.definition = .stub s.node

theorem Arena.Records.region_eq {s : Site} (h : arena.Records region s) : s.definition.region = region := by
  rcases h with ⟨d, hd, heq⟩ | ⟨rfl, -, heq⟩
  · rw [heq]
    exact (recorded_syntactic hd).2.1
  · rw [heq]
    rfl

theorem Arena.mem_sitesAfter {s : Site} (h : s ∈ arena.sitesAfter region sites a) :
    s ∈ sites ∨ arena.Records region s := by
  unfold sitesAfter at h
  split at h
  · exact .inl h
  · next k d _ hd =>
    rcases List.mem_append.1 h with h | h
    · split_ifs at h
      · exact .inl (List.mem_filter.1 h).1
      · exact .inl h
    · rw [List.mem_singleton.1 h]
      exact .inr (.inl ⟨d, hd, rfl⟩)
  · split_ifs at h with hbare
    · exact .inl h
    · obtain ⟨hregion, hbare⟩ := Bool.and_eq_true_iff.1 hbare
      refine (List.mem_append.1 h).imp_right fun h => ?_
      rw [List.mem_singleton.1 h]
      exact .inr ⟨by simpa using hregion, hbare, rfl⟩
    · exact .inl h

theorem Arena.mem_foldl_sitesAfter {s : Site} : ∀ {arrivals : List Arrival} {sites : List Site},
    s ∈ arrivals.foldl (arena.sitesAfter region) sites → s ∈ sites ∨ arena.Records region s
  | [], _, h => .inl h
  | _ :: _, _, h => by
    rw [List.foldl_cons] at h
    rcases mem_foldl_sitesAfter h with h | h
    · exact mem_sitesAfter h
    · exact .inr h

/-- In the source, sites are only added. -/
theorem Arena.sitesAfter_source (arena : Arena) (sites : List Site) (a : Arrival) :
    arena.sitesAfter .source sites a = sites ++ arena.sitesAfter .source [] a := by
  unfold sitesAfter
  cases arena.canonicalName? a.node <;> cases Extractor.syntactic arena a.node .source <;> simp

theorem Arena.foldl_sitesAfter_source : ∀ (arrivals : List Arrival) (sites : List Site),
    arrivals.foldl (arena.sitesAfter .source) sites = sites ++ arrivals.foldl (arena.sitesAfter .source) []
  | [], sites => by simp
  | a :: arrivals, sites => by
    rw [List.foldl_cons, List.foldl_cons, foldl_sitesAfter_source arrivals, sitesAfter_source,
      List.append_assoc, ← foldl_sitesAfter_source arrivals (arena.sitesAfter .source [] a)]

/-- The sites that visiting a region leaves. -/
def Arena.regionSites (arena : Arena) (region : Region) : List Site :=
  (arena.visits region region.root).foldl (arena.sitesAfter region) []

theorem Arena.records_of_mem_regionSites {s : Site} (h : s ∈ arena.regionSites region) :
    arena.Records region s :=
  (mem_foldl_sitesAfter h).resolve_left List.not_mem_nil

namespace Gathering
open Index

variable {g : Gathering}

theorem recordFound_agrees {d : Definition} {name : String} (hs : Program.Shape arena)
    (h : Agrees arena g.index) (hd : Extractor.syntactic arena a.node region = some d)
    (hname : arena.canonicalName? a.node = some name) (hnew : a.node ∉ g.index.sites.map (·.node)) :
    Agrees arena (g.recordFound arena region a d).index ∧ (g.recordFound arena region a d).index.sites =
      (if region = .externs then g.index.sites.filter (fun s => !arena.supersedes a.node s.definition)
        else g.index.sites) ++ [⟨a.node, d.recorded arena region, a.place, region⟩] := by
  obtain ⟨hlvalue, -, -⟩ := recorded_syntactic hd
  have hdname : arena.canonicalName? d.lvalue = some name := by
    rw [← Definition.lvalue_recorded arena region d, hlvalue, hname]
  have hinsert : ∀ g' : Gathering, Agrees arena g'.index → (g'.index.sites.map (·.node)).Sublist
      (g.index.sites.map (·.node)) → Agrees arena (g'.record region a name (d.recorded arena region)).index ∧
        (g'.record region a name (d.recorded arena region)).index.sites =
          g'.index.sites ++ [⟨a.node, d.recorded arena region, a.place, region⟩] :=
    fun g' h' hsub => h'.insert hlvalue hname fun hmem => hnew (hsub.subset hmem)
  unfold recordFound
  simp only [hdname]
  split_ifs with hregion
  · obtain ⟨h', hsites⟩ := dropSuperseded_agrees h hname (hs.found hd).2
    rw [← hsites]
    exact hinsert _ h' (by rw [hsites]; exact List.filter_sublist.map _)
  · exact hinsert g h (List.Sublist.refl _)

theorem recordStub_agrees {name : String} (h : Agrees arena g.index)
    (hname : arena.canonicalName? a.node = some name) (hnew : a.node ∉ g.index.sites.map (·.node)) :
    Agrees arena (g.recordStub arena a).index ∧ (g.recordStub arena a).index.sites =
      if !arena.declares a.node && g.index.sites.any fun s => arena.sameQualified s.definition.lvalue a.node
      then g.index.sites else g.index.sites ++ [⟨a.node, .stub a.node, a.place, .externs⟩] := by
  unfold recordStub
  simp only [hname, isRedundant_eq h hname]
  split_ifs
  · exact ⟨h, rfl⟩
  · exact h.insert rfl hname hnew

/-- A visit of a node without a canonical name records nothing. -/
theorem index_visit_unnamed (hname : arena.canonicalName? a.node = none) :
    (g.visitBy arena .syntactic region a).index = g.index := by
  have hstub : ∀ g' : Gathering, g'.recordStub arena a = g' := fun g' => by
    rw [recordStub, hname]
  unfold visitBy note
  simp only [hstub, ite_self]
  cases hd : Extractor.syntactic arena a.node region with
  | none => rfl
  | some d =>
    obtain ⟨hlvalue, -, -⟩ := recorded_syntactic hd
    rw [Definition.lvalue_recorded] at hlvalue
    dsimp only
    rw [recordFound, hlvalue, hname]

/-- A visit keeps the agreement and does to the sites what `sitesAfter` says. -/
theorem visit_agrees (hs : Program.Shape arena) (h : Agrees arena g.index)
    (hparent : a.parent.any arena.isExpressionStatement = arena.isBare a.node)
    (hnew : arena.maySite region a.node = true → a.node ∉ g.index.sites.map (·.node)) :
    Agrees arena (g.visitBy arena .syntactic region a).index ∧
      (g.visitBy arena .syntactic region a).index.sites = arena.sitesAfter region g.index.sites a := by
  cases hname : arena.canonicalName? a.node with
  | none =>
    rw [index_visit_unnamed hname, Arena.sitesAfter, hname]
    exact ⟨h, rfl⟩
  | some name =>
    unfold visitBy note Arena.sitesAfter
    simp only [hparent, hname]
    cases hd : Extractor.syntactic arena a.node region with
    | some d =>
      have hnew : a.node ∉ g.index.sites.map (·.node) := hnew (by simp [Arena.maySite, hd])
      simp only [(hs.found hd).1, Bool.and_false, Bool.false_eq_true, if_false]
      exact recordFound_agrees hs h hd hname hnew
    | none =>
      dsimp only
      by_cases hbare : (region = .externs && arena.isBare a.node) = true
      · have hnew : a.node ∉ g.index.sites.map (·.node) :=
          hnew (by simp [Arena.maySite, (Bool.and_eq_true_iff.1 hbare).2])
        rw [if_pos hbare, if_pos hbare]
        exact recordStub_agrees h hname hnew
      · rw [if_neg hbare, if_neg hbare]
        exact ⟨h, rfl⟩

theorem foldl_visit_agrees (hs : Program.Shape arena) : ∀ (arrivals : List Arrival) (g : Gathering),
    Agrees arena g.index → (∀ a ∈ arrivals, a.parent.any arena.isExpressionStatement = arena.isBare a.node) →
    (g.index.sites.map (·.node) ++
      (arrivals.filter (fun a => arena.maySite region a.node)).map (·.node)).Nodup →
    Agrees arena (arrivals.foldl (visitBy arena .syntactic region) g).index ∧
      (arrivals.foldl (visitBy arena .syntactic region) g).index.sites =
        arrivals.foldl (arena.sitesAfter region) g.index.sites
  | [], g, h, _, _ => ⟨h, rfl⟩
  | a :: arrivals, g, h, hparent, hnd => by
    obtain ⟨ha, hparent⟩ := List.forall_mem_cons.1 hparent
    have hnew : arena.maySite region a.node = true → a.node ∉ g.index.sites.map (·.node) := by
      intro hmay hmem
      rw [List.filter_cons_of_pos (by simpa using hmay)] at hnd
      exact (List.nodup_append.1 hnd).2.2 _ hmem _ List.mem_cons_self rfl
    obtain ⟨h', hsites⟩ := visit_agrees hs h ha hnew
    have hnd' : ((g.visitBy arena .syntactic region a).index.sites.map (·.node) ++
        (arrivals.filter (fun a => arena.maySite region a.node)).map (·.node)).Nodup := by
      rw [hsites]
      exact (Arena.nodes_sitesAfter_append arrivals).nodup hnd
    rw [List.foldl_cons, List.foldl_cons, ← hsites]
    exact foldl_visit_agrees hs arrivals _ h' hparent hnd'

end Gathering

namespace Program.Shape
open Assembly Index

variable (hs : Shape arena)
include hs

/-- Walks of a program reach a node from its parent, but for the roots of types. -/
theorem visits_parent (hroot : arena.parent? root = none) {a : Arrival} (ha : a ∈ arena.visits region root) :
    a.parent.any arena.isExpressionStatement = arena.isBare a.node := by
  obtain ⟨typed, ht⟩ := hs.types
  have hc : Arena.Carries arena (arena.gatherPolicy region) fun _ parent n =>
      parent = arena.parent? n ∨ parent = none ∧ typed n :=
    ⟨fun _ _ n _ c _ hmem =>
        .inl ((hs.linked.mem_children n c).1 (Arena.mem_children_of_childPlaces hmem)).symm,
      fun _ _ _ n t _ hmem => .inr ⟨rfl, (ht.owner n t hmem).1⟩⟩
  obtain ⟨-, h, -⟩ := hc.arrival _ _ none root (.inl hroot.symm) a (List.mem_filter.1 ha).1
  rcases h with heq | ⟨heq, htyped⟩
  · rw [heq]
    rfl
  · rw [heq, (typed_inert hs ht htyped region).1]
    rfl

/-- Nodes that may have sites are visited in pre-order. -/
theorem visits_sublist_preorder (hroot : root < arena.size) :
    (((arena.visits region root).filter (fun a => arena.maySite region a.node)).map (·.node)).Sublist
      (arena.preorder root) := by
  obtain ⟨typed, ht⟩ := hs.types
  have hinert : ∀ a : Arrival, typed a.node → (arena.maySite region a.node && a.entered) = false := by
    intro a htyped
    obtain ⟨hbare, hfound⟩ := typed_inert hs ht htyped region
    rw [Arena.maySite, hbare, hfound]
    rfl
  have hrank : arena.rank root < arena.size := hs.acyclic.rank_lt_size hroot
  rw [Arena.visits, List.filter_filter, Arena.preorder,
    hs.linked.preorderWithin_eq hs.acyclic hrank (Nat.lt_succ_of_lt hrank)]
  exact Arena.nodes_sublist_preorderWithin hinert (fun n t hmem => (ht.owner n t hmem).1)
    (fun n m hn hm => typed_link ht hn hm) _ _ _ _

/-- The trees of the two regions have no node in common, and none twice. -/
theorem preorder_nodup :
    (arena.preorder Region.externs.root ++ arena.preorder Region.source.root).Nodup := by
  refine List.nodup_append.2 ⟨hs.linked.preorder_nodup hs.acyclic hs.children_nodup _,
    hs.linked.preorder_nodup hs.acyclic hs.children_nodup _, fun n hn m hm => ?_⟩
  rintro rfl
  exact hs.linked.disjoint_below (by decide) (hs.root_free .externs) (hs.root_free .source)
    (Arena.below_of_mem_preorder hn) (Arena.below_of_mem_preorder hm)

theorem nodes_regionSites (region : Region) :
    ((arena.regionSites region).map (·.node)).Sublist (arena.preorder region.root) :=
  (Arena.nodes_foldl_sitesAfter _ []).trans (hs.visits_sublist_preorder (hs.root_lt region))

/-- The index of a program agrees with its sites, those of the externs and then those of the source. -/
theorem ofRegions_agrees :
    Agrees arena (Gathering.ofRegions arena .syntactic Region.externs.root Region.source.root).index ∧
      (Gathering.ofRegions arena .syntactic Region.externs.root Region.source.root).index.sites =
        arena.regionSites .externs ++ arena.regionSites .source := by
  have hnd := hs.preorder_nodup
  obtain ⟨h₁, hsites₁⟩ := Gathering.foldl_visit_agrees hs (arena.visits .externs Region.externs.root) .empty
    Agrees.empty (fun a ha => hs.visits_parent (hs.root_free .externs) ha)
    ((hs.visits_sublist_preorder (hs.root_lt .externs)).nodup (List.nodup_append.1 hnd).1)
  -- the nodes of the source are new to the sites that the externs leave
  have hnd₂ : ((Gathering.visitAll arena .syntactic .externs Region.externs.root .empty).index.sites.map
      (·.node) ++ ((arena.visits .source Region.source.root).filter
        (fun a => arena.maySite .source a.node)).map (·.node)).Nodup := by
    refine List.Sublist.nodup (List.Sublist.append ?_ (hs.visits_sublist_preorder (hs.root_lt .source))) hnd
    rw [Gathering.visitAll, hsites₁]
    exact hs.nodes_regionSites .externs
  obtain ⟨h₂, hsites₂⟩ := Gathering.foldl_visit_agrees hs (arena.visits .source Region.source.root) _ h₁
    (fun a ha => hs.visits_parent (hs.root_free .source) ha) hnd₂
  refine ⟨h₂, hsites₂.trans ?_⟩
  rw [Arena.foldl_sitesAfter_source, hsites₁]
  rfl

end Program.Shape

end ScriptIndex
