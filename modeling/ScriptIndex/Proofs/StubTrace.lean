import ScriptIndex.Proofs.ExternOrder
import ScriptIndex.Proofs.SiteOrder

/-! # What is told of stubs

A stub that is not recorded is skipped, and a recorded one that is taken away is dropped; each time an
event tells it. `Traced` is the account that visits in the externs keep: of each visited stub that has a
name, the sites that it has, the events that drop it and the events that skip it are one in all, and what
an event gives as the reason has a site. -/

namespace ScriptIndex

namespace Event

/-- Whether the event tells that the stub at the node was dropped. -/
def drops (node : NodeId) : Event → Bool
  | stubDropped _ stub _ => stub == node
  | _ => false

/-- Whether the event tells that the stub at the node was skipped. -/
def skips (node : NodeId) : Event → Bool
  | stubSkipped _ stub => stub == node
  | _ => false

end Event

variable {arena : Arena} {sites : List Site} {a : Arrival} {name : String} {node n : NodeId}

/-! ### The events of a visit -/

/-- What a visit in the externs tells of stubs, given the sites. -/
def Arena.stubEvents (arena : Arena) (sites : List Site) (a : Arrival) : List Event :=
  match arena.canonicalName? a.node, Extractor.syntactic arena a.node .externs with
  | none, _ => []
  | some name, some _ =>
    (sites.filter fun s => arena.supersedes a.node s.definition).map fun s => .stubDropped name s.node a.node
  | some name, none =>
    if arena.isBare a.node && (!arena.declares a.node &&
        sites.any fun s => arena.sameQualified s.definition.lvalue a.node)
    then [.stubSkipped name a.node] else []

/-- What visits in the externs tell of stubs, given the sites before them. -/
def Arena.stubEventsOf (arena : Arena) (sites : List Site) : List Arrival → List Event
  | [] => []
  | a :: arrivals => arena.stubEvents sites a ++ stubEventsOf arena (arena.sitesAfter .externs sites a) arrivals

namespace Gathering
open Index

variable {g : Gathering}

theorem events_foldl_dropStub : ∀ (stubs : List Definition) (g : Gathering),
    (stubs.foldl (dropStub arena node name) g).events = g.events ++
      (stubs.filter fun d => arena.sameQualified d.lvalue node).map fun d => .stubDropped name d.lvalue node
  | [], g => by simp
  | d :: stubs, g => by
    have hd : (dropStub arena node name g d).events = g.events ++
        if arena.sameQualified d.lvalue node then [.stubDropped name d.lvalue node] else [] := by
      unfold dropStub
      split_ifs
      · dsimp only
        split <;> rfl
      · exact (List.append_nil _).symm
    rw [List.foldl_cons, events_foldl_dropStub stubs, hd, List.append_assoc, List.filter_cons]
    split_ifs <;> rfl

theorem events_dropSuperseded (h : Agrees arena g.index) (hname : arena.canonicalName? node = some name)
    (hdoc : arena.declares node = false) :
    (g.dropSuperseded arena node name).events = g.events ++
      (g.index.sites.filter fun s => arena.supersedes node s.definition).map fun s =>
        .stubDropped name s.node node := by
  have hstubs : (((g.index.definitions name).filter (·.isStub)).filter fun d =>
      arena.sameQualified d.lvalue node) =
        (g.index.sites.filter fun s => arena.supersedes node s.definition).map (·.definition) := by
    rw [h.definitions, List.filter_filter, List.filter_map, List.filter_filter]
    refine congrArg _ (List.filter_congr fun s hs => ?_)
    cases hsame : arena.sameQualified s.definition.lvalue node with
    | false => simp [Arena.supersedes, hsame]
    | true =>
      have hk : arena.canonicalName? s.node = some name := by
        rw [← h.own s hs, Arena.canonicalName?_eq_of_same hsame, hname]
      simp [Arena.supersedes, hsame, hk]
  unfold dropSuperseded
  split_ifs with hq
  · rw [events_foldl_dropStub, hstubs, List.map_map]
    refine congrArg _ (List.map_congr_left fun s hs => ?_)
    rw [Function.comp_apply, h.own s (List.mem_filter.1 hs).1]
  · have hnone : (g.index.sites.filter fun s => arena.supersedes node s.definition) = [] := by
      refine List.filter_eq_nil_iff.2 fun s _ hs => hq ?_
      have hsame := (Bool.and_eq_true_iff.1 hs).2
      rw [Arena.isQualified_of_same (Arena.sameQualified_symm hsame), hdoc]
      rfl
    rw [hnone, List.map_nil, List.append_nil]

/-- A visit tells what `stubEvents` says. -/
theorem events_visit (hs : Program.Shape arena) (h : Agrees arena g.index)
    (hparent : a.parent.any arena.isExpressionStatement = arena.isBare a.node) :
    (g.visitBy arena .syntactic .externs a).events = g.events ++ arena.stubEvents g.index.sites a := by
  have hstub : ∀ g' : Gathering, arena.canonicalName? a.node = none → g'.recordStub arena a = g' :=
    fun g' hname => by rw [recordStub, hname]
  unfold visitBy note Arena.stubEvents
  simp only [hparent, decide_true, Bool.true_and]
  cases hname : arena.canonicalName? a.node with
  | none =>
    simp only [hstub _ hname, ite_self, List.append_nil]
    cases hd : Extractor.syntactic arena a.node .externs with
    | none => rfl
    | some d =>
      have hlvalue := (recorded_syntactic hd).1
      rw [Definition.lvalue_recorded] at hlvalue
      dsimp only
      rw [recordFound, hlvalue, hname]
  | some name =>
    cases hd : Extractor.syntactic arena a.node .externs with
    | some d =>
      obtain ⟨hbare, hdoc⟩ := hs.found hd
      have hlvalue := (recorded_syntactic hd).1
      rw [Definition.lvalue_recorded] at hlvalue
      simp only [hbare, Bool.false_eq_true, if_false, recordFound, hlvalue, hname, if_true, record]
      exact events_dropSuperseded h hname hdoc
    | none =>
      dsimp only
      cases hbare : arena.isBare a.node with
      | false => simp
      | true =>
        rw [if_pos rfl, recordStub]
        simp only [hname, Bool.true_and, ← isRedundant_eq h hname]
        split_ifs
        · rfl
        · exact (List.append_nil _).symm

/-- In the source nothing is told of stubs. -/
theorem events_visit_source (arena : Arena) (extractor : Extractor) (g : Gathering) (a : Arrival) :
    (g.visitBy arena extractor .source a).events = g.events := by
  unfold visitBy note recordFound
  cases extractor arena a.node .source with
  | none => simp
  | some d => cases hname : arena.canonicalName? d.lvalue <;> simp [hname, record]

/-- Visits in the externs tell what `stubEventsOf` says. -/
theorem events_foldl_visit (hs : Program.Shape arena) : ∀ (arrivals : List Arrival) (g : Gathering),
    Agrees arena g.index → (∀ a ∈ arrivals, a.parent.any arena.isExpressionStatement = arena.isBare a.node) →
    (g.index.sites.map (·.node) ++
      (arrivals.filter (fun a => arena.maySite .externs a.node)).map (·.node)).Nodup →
    (arrivals.foldl (visitBy arena .syntactic .externs) g).events =
      g.events ++ arena.stubEventsOf g.index.sites arrivals
  | [], g, _, _, _ => (List.append_nil _).symm
  | a :: arrivals, g, h, hparent, hnd => by
    obtain ⟨ha, hrest⟩ := List.forall_mem_cons.1 hparent
    have hnew : arena.maySite .externs a.node = true → a.node ∉ g.index.sites.map (·.node) := by
      intro hmay hmem
      rw [List.filter_cons_of_pos (by simpa using hmay)] at hnd
      exact (List.nodup_append.1 hnd).2.2 _ hmem _ List.mem_cons_self rfl
    obtain ⟨h', hsites⟩ := visit_agrees hs h ha hnew
    rw [List.foldl_cons, events_foldl_visit hs arrivals _ h' hrest, events_visit hs h ha, hsites,
      Arena.stubEventsOf, List.append_assoc]
    rw [hsites]
    exact (Arena.nodes_sitesAfter_append arrivals).nodup hnd

theorem events_visitAll_source (arena : Arena) (extractor : Extractor) (root : NodeId) (g : Gathering) :
    (g.visitAll arena extractor .source root).events = g.events := by
  unfold visitAll
  generalize arena.visits .source root = arrivals
  induction arrivals generalizing g with
  | nil => rfl
  | cons a arrivals ih => rw [List.foldl_cons, ih, events_visit_source]

end Gathering

/-! ### The account of stubs -/

namespace Arena

/-- Whether what an event tells is so: a visited stub was dropped for a definition of the same qualified
name that has a site, or was skipped since something of its qualified name has a site. -/
def Tells (arena : Arena) (visited : List NodeId) (sites : List Site) : Event → Prop
  | .stubDropped name stub other =>
    stub ∈ visited ∧ arena.isBare stub = true ∧ arena.canonicalName? stub = some name ∧
      arena.sameQualified stub other = true ∧ ∃ s ∈ sites, s.node = other ∧ s.definition.isStub = false
  | .stubSkipped name node =>
    node ∈ visited ∧ arena.isBare node = true ∧ arena.canonicalName? node = some name ∧
      ∃ s ∈ sites, arena.sameQualified s.definition.lvalue node = true
  | _ => False

/-- The account of the stubs among visited nodes, from the sites and the events. -/
structure Traced (arena : Arena) (visited : List NodeId) (sites : List Site) (events : List Event) : Prop where
  sited : ∀ s ∈ sites, s.node ∈ visited ∧ s.region = .externs ∧ arena.Records .externs s
  tells : ∀ e ∈ events, arena.Tells visited sites e
  once : ∀ n ∈ visited, arena.isBare n = true → (arena.canonicalName? n).isSome = true →
    sites.countP (·.node = n) + events.countP (·.drops n) + events.countP (·.skips n) = 1

variable {visited : List NodeId} {events : List Event} {e : Event} {s : Site}

/-- A site holds the stub of its node or what the node defines. -/
theorem Records.own (h : arena.Records .externs s) : s.definition.lvalue = s.node ∧
    (s.definition.isStub = true → arena.isBare s.node = true) := by
  rcases h with ⟨d, hd, heq⟩ | ⟨-, hbare, heq⟩
  · obtain ⟨hlvalue, -, hstub⟩ := recorded_syntactic hd
    rw [heq]
    exact ⟨hlvalue, fun h => by rw [hstub] at h; cases h⟩
  · rw [heq]
    exact ⟨rfl, fun _ => hbare⟩

/-- What an event tells stays so while more is visited, if stubs go only for what has a site. -/
theorem Tells.mono {after : List Site} (h : arena.Tells visited sites e)
    (hkeep : ∀ s ∈ sites, s.definition.isStub = false → s ∈ after)
    (hsame : ∀ s ∈ sites, ∀ n, arena.sameQualified s.definition.lvalue n = true →
      ∃ s' ∈ after, arena.sameQualified s'.definition.lvalue n = true) :
    arena.Tells (visited ++ [n]) after e := by
  cases e with
  | stubDropped name stub other =>
    obtain ⟨hv, hbare, hname, hq, s, hs, hnode, hstub⟩ := h
    exact ⟨List.mem_append_left _ hv, hbare, hname, hq, s, hkeep s hs hstub, hnode, hstub⟩
  | stubSkipped name node =>
    obtain ⟨hv, hbare, hname, s, hs, hq⟩ := h
    exact ⟨List.mem_append_left _ hv, hbare, hname, hsame s hs node hq⟩
  | _ => exact h

/-- An event is about a node that was visited. -/
theorem Tells.not_drops_skips (h : arena.Tells visited sites e) (hn : n ∉ visited) :
    e.drops n = false ∧ e.skips n = false := by
  cases e with
  | stubDropped name stub other => exact ⟨beq_false_of_ne fun heq => hn (heq ▸ h.1), rfl⟩
  | stubSkipped name node => exact ⟨rfl, beq_false_of_ne fun heq => hn (heq ▸ h.1)⟩
  | _ => exact h.elim

namespace Traced

theorem nil : arena.Traced [] [] [] :=
  ⟨fun _ h => absurd h List.not_mem_nil, fun _ h => absurd h List.not_mem_nil,
    fun _ h => absurd h List.not_mem_nil⟩

/-- Nothing is told of a node that was not visited, and it has no site. -/
theorem count_eq_zero (h : arena.Traced visited sites events) (hn : n ∉ visited) :
    sites.countP (·.node = n) = 0 ∧ events.countP (·.drops n) = 0 ∧ events.countP (·.skips n) = 0 := by
  refine ⟨List.countP_eq_zero.2 fun s hs heq => hn ?_, List.countP_eq_zero.2 fun e he hdrops => ?_,
    List.countP_eq_zero.2 fun e he hskips => ?_⟩
  · exact of_decide_eq_true heq ▸ (h.sited s hs).1
  · rw [((h.tells e he).not_drops_skips hn).1] at hdrops
    cases hdrops
  · rw [((h.tells e he).not_drops_skips hn).2] at hskips
    cases hskips

/-- A visit of a node that is no stub and defines nothing. -/
theorem quiet (h : arena.Traced visited sites events)
    (hn : ¬ (arena.isBare n = true ∧ (arena.canonicalName? n).isSome = true)) :
    arena.Traced (visited ++ [n]) sites events := by
  refine ⟨fun s hs => ⟨List.mem_append_left _ (h.sited s hs).1, (h.sited s hs).2⟩, fun e he => ?_,
    fun m hm hbare hname => ?_⟩
  · exact (h.tells e he).mono (fun s hs _ => hs) fun s hs _ hq => ⟨s, hs, hq⟩
  · rcases List.mem_append.1 hm with hm | hm
    · exact h.once m hm hbare hname
    · exact absurd ⟨List.mem_singleton.1 hm ▸ hbare, List.mem_singleton.1 hm ▸ hname⟩ hn

/-- A definition is found: the stubs of its qualified name go, and an event tells of each. -/
theorem found (h : arena.Traced visited sites events) (hname : arena.canonicalName? n = some name)
    {d : Definition} (hd : Extractor.syntactic arena n .externs = some d) (hbare : arena.isBare n = false)
    (place : Place) :
    arena.Traced (visited ++ [n])
      (sites.filter (fun s => !arena.supersedes n s.definition) ++ [⟨n, d.recorded arena .externs, place, .externs⟩])
      (events ++ (sites.filter fun s => arena.supersedes n s.definition).map fun s =>
        .stubDropped name s.node n) := by
  obtain ⟨hlvalue, -, hstub⟩ := recorded_syntactic hd
  refine ⟨?_, ?_, fun m hm hm' hnamed => ?_⟩
  · refine List.forall_mem_append.2 ⟨fun s hs => ?_, List.forall_mem_singleton.2 ⟨?_, rfl, .inl ⟨d, hd, rfl⟩⟩⟩
    · obtain ⟨hv, hrec⟩ := h.sited s (List.mem_filter.1 hs).1
      exact ⟨List.mem_append_left _ hv, hrec⟩
    · exact List.mem_append_right _ (List.mem_singleton_self n)
  · refine List.forall_mem_append.2 ⟨fun e he => (h.tells e he).mono (fun s hs hnot => ?_) fun s hs m hq => ?_, ?_⟩
    · exact List.mem_append_left _ (List.mem_filter.2 ⟨hs, by simp [supersedes, hnot]⟩)
    · cases hsup : arena.supersedes n s.definition with
      | false => exact ⟨s, List.mem_append_left _ (List.mem_filter.2 ⟨hs, by simp [hsup]⟩), hq⟩
      | true =>
        -- the definition that takes the stub's place is of the same qualified name
        have hsame := (Bool.and_eq_true_iff.1 hsup).2
        refine ⟨_, List.mem_append_right _ (List.mem_singleton_self _), ?_⟩
        rw [hlvalue]
        exact sameQualified_trans (sameQualified_symm hsame) hq
    · intro e he
      obtain ⟨s, hs, rfl⟩ := List.mem_map.1 he
      obtain ⟨hs, hsup⟩ := List.mem_filter.1 hs
      obtain ⟨hs₁, hs₂⟩ := Bool.and_eq_true_iff.1 hsup
      obtain ⟨hv, -, hrec⟩ := h.sited s hs
      rw [hrec.own.1] at hs₂
      exact ⟨List.mem_append_left _ hv, hrec.own.2 hs₁, (canonicalName?_eq_of_same hs₂).trans hname, hs₂, _,
        List.mem_append_right _ (List.mem_singleton_self _), rfl, hstub⟩
  · have hne : m ≠ n := fun heq => by rw [heq, hbare] at hm'; cases hm'
    have hm : m ∈ visited := (List.mem_append.1 hm).resolve_right fun h => hne (List.mem_singleton.1 h)
    -- what the sites lose the events gain
    have hsplit := List.countP_eq_countP_filter_add sites (fun s => decide (s.node = m))
      (fun s => arena.supersedes n s.definition)
    have hself : [(⟨n, d.recorded arena .externs, place, .externs⟩ : Site)].countP (·.node = m) = 0 := by
      simp [Ne.symm hne]
    have hdrops : ((sites.filter fun s => arena.supersedes n s.definition).map fun s =>
        Event.stubDropped name s.node n).countP (·.drops m) =
          (sites.filter fun s => arena.supersedes n s.definition).countP (·.node = m) := by
      rw [List.countP_map]
      rfl
    have hskips : ((sites.filter fun s => arena.supersedes n s.definition).map fun s =>
        Event.stubDropped name s.node n).countP (·.skips m) = 0 := by
      rw [List.countP_map, List.countP_eq_zero]
      exact fun s _ hs => by cases hs
    have honce := h.once m hm hm' hnamed
    rw [List.countP_append, List.countP_append, List.countP_append, hself, hdrops, hskips]
    omega

/-- A stub is recorded. -/
theorem recorded (h : arena.Traced visited sites events) (hnew : n ∉ visited) (hbare : arena.isBare n = true)
    (place : Place) : arena.Traced (visited ++ [n]) (sites ++ [⟨n, .stub n, place, .externs⟩]) events := by
  obtain ⟨hsites, hdrops, hskips⟩ := h.count_eq_zero hnew
  refine ⟨?_, fun e he => ?_, fun m hm hm' hnamed => ?_⟩
  · refine List.forall_mem_append.2 ⟨fun s hs => ?_, List.forall_mem_singleton.2 ⟨?_, rfl, .inr ⟨rfl, hbare, rfl⟩⟩⟩
    · exact ⟨List.mem_append_left _ (h.sited s hs).1, (h.sited s hs).2⟩
    · exact List.mem_append_right _ (List.mem_singleton_self n)
  · exact (h.tells e he).mono (fun s hs _ => List.mem_append_left _ hs)
      fun s hs _ hq => ⟨s, List.mem_append_left _ hs, hq⟩
  · rw [List.countP_append]
    rcases List.mem_append.1 hm with hm | hm
    · have hne : n ≠ m := fun heq => hnew (heq ▸ hm)
      have honce := h.once m hm hm' hnamed
      have hself : [(⟨n, .stub n, place, .externs⟩ : Site)].countP (·.node = m) = 0 := by simp [hne]
      omega
    · obtain rfl := List.mem_singleton.1 hm
      rw [hsites, hdrops, hskips]
      simp

/-- A stub is skipped, and an event tells it. -/
theorem skipped (h : arena.Traced visited sites events) (hnew : n ∉ visited) (hbare : arena.isBare n = true)
    (hname : arena.canonicalName? n = some name)
    (hany : (sites.any fun s => arena.sameQualified s.definition.lvalue n) = true) :
    arena.Traced (visited ++ [n]) sites (events ++ [.stubSkipped name n]) := by
  obtain ⟨hsites, hdrops, hskips⟩ := h.count_eq_zero hnew
  refine ⟨fun s hs => ⟨List.mem_append_left _ (h.sited s hs).1, (h.sited s hs).2⟩, ?_, fun m hm hm' hnamed => ?_⟩
  · refine List.forall_mem_append.2 ⟨fun e he => ?_, List.forall_mem_singleton.2 ⟨?_, hbare, hname, ?_⟩⟩
    · exact (h.tells e he).mono (fun s hs _ => hs) fun s hs _ hq => ⟨s, hs, hq⟩
    · exact List.mem_append_right _ (List.mem_singleton_self n)
    · simpa using hany
  · have hdrop : [Event.stubSkipped name n].countP (·.drops m) = 0 := rfl
    rw [List.countP_append, List.countP_append, hdrop]
    rcases List.mem_append.1 hm with hm | hm
    · have hne : n ≠ m := fun heq => hnew (heq ▸ hm)
      have honce := h.once m hm hm' hnamed
      have hskip : [Event.stubSkipped name n].countP (·.skips m) = 0 := by simp [Event.skips, hne]
      omega
    · obtain rfl := List.mem_singleton.1 hm
      rw [hsites, hdrops, hskips]
      simp [Event.skips]

/-- A visit keeps the account. -/
theorem step (hs : Program.Shape arena) (h : arena.Traced visited sites events)
    (hnew : arena.isBare a.node = true → a.node ∉ visited) :
    arena.Traced (visited ++ [a.node]) (arena.sitesAfter .externs sites a)
      (events ++ arena.stubEvents sites a) := by
  unfold sitesAfter stubEvents
  cases hname : arena.canonicalName? a.node with
  | none =>
    rw [List.append_nil]
    exact h.quiet fun hn => by simp [hname] at hn
  | some name =>
    cases hd : Extractor.syntactic arena a.node .externs with
    | some d => exact h.found hname hd (hs.found hd).1 a.place
    | none =>
      dsimp only
      cases hbare : arena.isBare a.node with
      | false =>
        simp only [Bool.and_false, Bool.false_and, Bool.false_eq_true, if_false, List.append_nil]
        exact h.quiet fun hn => by simp [hbare] at hn
      | true =>
        simp only [decide_true, Bool.true_and, if_true]
        split_ifs with hredundant
        · exact h.skipped (hnew hbare) hbare hname (Bool.and_eq_true_iff.1 hredundant).2
        · rw [List.append_nil]
          exact h.recorded (hnew hbare) hbare a.place

/-- Visits that come to no stub twice keep the account. -/
theorem foldl (hs : Program.Shape arena) : ∀ (arrivals : List Arrival) (visited : List NodeId)
    (sites : List Site) (events : List Event), arena.Traced visited sites events →
    (visited ++ arrivals.map (·.node)).Nodup →
    arena.Traced (visited ++ arrivals.map (·.node)) (arrivals.foldl (arena.sitesAfter .externs) sites)
      (events ++ arena.stubEventsOf sites arrivals)
  | [], visited, sites, events, h, _ => by simpa [stubEventsOf] using h
  | a :: arrivals, visited, sites, events, h, hnd => by
    have hnew : a.node ∉ visited := fun hmem =>
      (List.nodup_append.1 hnd).2.2 _ hmem _ List.mem_cons_self rfl
    have hrest := foldl hs arrivals (visited ++ [a.node]) _ _ (h.step hs fun _ => hnew) (by simpa using hnd)
    simpa [stubEventsOf] using hrest

end Traced

end Arena

/-! ### The events of a run -/

theorem Index.countP_node {index : Index} (h : (index.sites.map (·.node)).Nodup) (n : NodeId) :
    (if (index.site? n).isSome then 1 else 0) = index.sites.countP (·.node = n) := by
  have hsome : (index.site? n).isSome = true ↔ n ∈ index.sites.map (·.node) := by
    simp [Index.site?]
  have hcount : index.sites.countP (·.node = n) = (index.sites.map (·.node)).count n := by
    rw [List.count, List.countP_map]
    rfl
  rw [hcount, h.count]
  simp only [hsome]

namespace Gathering

/-- The events of a run are those of the visits in the externs, within their span, and then a summary. -/
theorem events_run (hl : arena.Linked) (extractor : Extractor) {externs source : NodeId}
    (he : externs < arena.size) (hsource : source < arena.size) :
    ∃ after, empty.run arena extractor.stateless externs source () = .ok (after, ()) ∧
      after.index = (ofRegions arena extractor externs source).index ∧
      after.events = (visitAll arena extractor .externs externs (opened externs source)).events ++
        [.exit, .regionSpan .source, .enter, .exit,
          .gathered after.index.names.length after.index.sites.length, .exit] := by
  refine ⟨_, run_stateless hl extractor he hsource, index_spanned arena extractor externs source, ?_⟩
  simp only [closed, turned, log, events_visitAll_source, Index.names, List.length_map, List.append_assoc,
    List.cons_append, List.nil_append]

end Gathering

/-- What is told of stubs while a program is gathered. -/
def Arena.stubsTold (arena : Arena) : List Event :=
  arena.stubEventsOf [] (arena.visits .externs Region.externs.root)

namespace Program
open Index

namespace Shape
variable (hs : Shape arena)
include hs

theorem visits_nodup (hroots : Assembly.RootInv ⟨arena, []⟩) :
    ((arena.visits .externs Region.externs.root).map (·.node)).Nodup := by
  have hexterns : (arena.visits .externs Region.externs.root).map (·.node) =
      arena.externOrder (arena.size + 1) none Region.externs.root := Arena.nodes_walkWithin_externs _ _ _ _
  rw [hexterns]
  exact Arena.externOrder_nodup hs hroots _ _ _

theorem traced (hroots : Assembly.RootInv ⟨arena, []⟩) :
    arena.Traced ((arena.visits .externs Region.externs.root).map (·.node)) (arena.regionSites .externs)
      arena.stubsTold := by
  simpa [Arena.regionSites, Arena.stubsTold] using
    Arena.Traced.foldl hs (arena.visits .externs Region.externs.root) [] [] [] .nil (hs.visits_nodup hroots)

theorem events_run : ∃ after,
    Gathering.empty.run arena Extractor.syntactic.stateless Region.externs.root Region.source.root () =
        .ok (after, ()) ∧
      after.index = (Gathering.ofRegions arena .syntactic Region.externs.root Region.source.root).index ∧
      after.events =
        [.gatherSpan Region.externs.root Region.source.root, .enter, .regionSpan .externs, .enter] ++
          arena.stubsTold ++
        [.exit, .regionSpan .source, .enter, .exit,
          .gathered after.index.names.length after.index.sites.length, .exit] := by
  obtain ⟨after, hrun, hindex, hevents⟩ :=
    Gathering.events_run hs.linked .syntactic (hs.root_lt .externs) (hs.root_lt .source)
  have htold := Gathering.events_foldl_visit hs (arena.visits .externs Region.externs.root)
    (Gathering.opened Region.externs.root Region.source.root) Agrees.empty
    (fun a ha => hs.visits_parent (hs.root_free .externs) ha)
    ((hs.visits_sublist_preorder (hs.root_lt .externs)).nodup (List.nodup_append.1 hs.preorder_nodup).1)
  rw [Gathering.visitAll, htold] at hevents
  exact ⟨after, hrun, hindex, hevents⟩

/-- A stub in the externs has one site at the end or none, as when the externs were visited. -/
theorem countP_regionSites {index : Index} (h : Agrees arena index)
    (hsites : index.sites = arena.regionSites .externs ++ arena.regionSites .source)
    (ha : a ∈ arena.visits .externs Region.externs.root) :
    (if (index.site? a.node).isSome then 1 else 0) = (arena.regionSites .externs).countP (·.node = a.node) := by
  have hsource : (arena.regionSites .source).countP (·.node = a.node) = 0 := by
    refine List.countP_eq_zero.2 fun s hmem heq => hs.visits_externs_not_mem ha ?_
    rw [← of_decide_eq_true heq]
    exact (hs.nodes_regionSites .source).subset (List.mem_map_of_mem hmem)
  rw [Index.countP_node h.nodes_nodup, hsites, List.countP_append, hsource, Nat.add_zero]

end Shape

/-- Each stub that is visited and has a name either has a site at the end, or is told once to be dropped, or
is told once to be skipped. Nothing else is told of stubs, and all of it between the entry and the exit of
the externs. A stub is dropped for a definition of its qualified name in the externs that has a site at the
end, and skipped where the externs define its qualified name at the end. -/
theorem stubs_traced (scripts : List Script) :
    let arena := ofScripts scripts
    ∃ arrivals r index told,
      arena.walk (arena.gatherPolicy .externs) Region.externs.root = .ok arrivals ∧
      (Resolver.ofArena arena .syntactic).gather Region.externs.root Region.source.root = .ok r ∧
      r.index = .ok index ∧
      r.gathering.events =
        [.gatherSpan Region.externs.root Region.source.root, .enter, .regionSpan .externs, .enter] ++ told ++
          [.exit, .regionSpan .source, .enter, .exit, .gathered index.names.length index.sites.length, .exit] ∧
      (∀ a ∈ arrivals, a.entered = true → arena.isBare a.node = true →
        (arena.canonicalName? a.node).isSome = true →
          (if (index.site? a.node).isSome then 1 else 0) + told.countP (·.drops a.node) +
            told.countP (·.skips a.node) = 1) ∧
      ∀ e ∈ told, ∃ a ∈ arrivals, a.entered = true ∧ arena.isBare a.node = true ∧
        ∃ name, arena.canonicalName? a.node = some name ∧
          ((∃ other s, e = .stubDropped name a.node other ∧ arena.sameQualified a.node other = true ∧
              index.site? other = some s ∧ s.region = .externs ∧ s.definition.isStub = false) ∨
            e = .stubSkipped name a.node ∧ ∃ d ∈ index.definitions name, d.region = .externs ∧
              arena.sameQualified d.lvalue a.node = true) := by
  intro arena
  have hs : Shape arena := shape scripts
  have htraced := hs.traced (forestInv scripts).roots
  obtain ⟨after, hrun, hindex, hevents⟩ := hs.events_run
  obtain ⟨h, hsites⟩ := hs.ofRegions_agrees
  rw [← hindex] at h hsites
  refine ⟨_, _, after.index, _, hs.linked.walk_eq_ok (hs.root_lt .externs), Resolver.gather_of_run hrun, rfl, hevents,
    fun a ha hentered hbare hname => ?_, fun e he => ?_⟩
  · have ha : a ∈ arena.visits .externs Region.externs.root := List.mem_filter.2 ⟨ha, hentered⟩
    rw [hs.countP_regionSites h hsites ha]
    exact htraced.once a.node (List.mem_map_of_mem ha) hbare hname
  · have hsited : ∀ s ∈ arena.regionSites .externs, s ∈ after.index.sites := fun s hmem => by
      rw [hsites]
      exact List.mem_append_left _ hmem
    have htells := htraced.tells e he
    cases e with
    | stubDropped name stub other =>
      obtain ⟨hv, hbare, hname, hsame, s, hmem, rfl, hstub⟩ := htells
      obtain ⟨a, ha, rfl⟩ := List.mem_map.1 hv
      obtain ⟨ha, hentered⟩ := List.mem_filter.1 ha
      have hsite := (site?_eq_some_iff h.nodes_nodup).2 ⟨hsited s hmem, rfl⟩
      exact ⟨a, ha, hentered, hbare, name, hname, .inl ⟨s.node, s, rfl, hsame, hsite,
        (htraced.sited s hmem).2.1, hstub⟩⟩
    | stubSkipped name node =>
      obtain ⟨hv, hbare, hname, s, hmem, hsame⟩ := htells
      obtain ⟨a, ha, rfl⟩ := List.mem_map.1 hv
      obtain ⟨ha, hentered⟩ := List.mem_filter.1 ha
      have hdefinition : s.definition ∈ after.index.definitions name :=
        h.mem_definitions_iff.2 ⟨s, hsited s hmem, rfl, (Arena.canonicalName?_eq_of_same hsame).trans hname⟩
      exact ⟨a, ha, hentered, hbare, name, hname, .inr ⟨rfl, s.definition, hdefinition,
        (htraced.sited s hmem).2.2.region_eq, hsame⟩⟩
    | _ => exact htells.elim

/-- The second and the last stub are skipped, and the first is dropped for the assignment. -/
example : (ofScripts [⟨.externs, ascii "a.b; a.b; a.b = 1; a.b;", .standard⟩]).stubsTold =
    [.stubSkipped "this.b" 6, .stubDropped "this.b" 3 9, .stubSkipped "this.b" 14] := by
  decide +kernel

end Program

end ScriptIndex
