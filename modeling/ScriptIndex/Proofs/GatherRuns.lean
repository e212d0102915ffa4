import ScriptIndex.Index.Resolver
import ScriptIndex.Proofs.IndexInv
import ScriptIndex.Proofs.WalkOrder

/-! # Runs of gathering

Gathering comes to visits of the nodes that the walks through the two regions go into. What a visit does
to the index does not depend on the events noted by then, and is made of recording sites and taking
definitions away, whatever the extractor says. Where the extractor goes by the arena alone, a run comes to
`ofRegions`. -/

namespace ScriptIndex

/-- The nodes, with their places, that gathering from a root goes into. -/
def Arena.visits (arena : Arena) (region : Region) (root : NodeId) : List Arrival :=
  (arena.walkWithin (arena.gatherPolicy region) (arena.size + 1) .outermost none root).filter (·.entered)

/-- The definition of the same name and with the same region. -/
@[simp] theorem Definition.lvalue_recorded (arena : Arena) (region : Region) (d : Definition) :
    (d.recorded arena region).lvalue = d.lvalue := by
  unfold recorded
  cases d.rvalue with
  | none => rfl
  | some value => dsimp only; split_ifs <;> rfl

namespace Gathering

variable {σ : Type} {arena : Arena} {extractor : Extractor} {region : Region} {g g' : Gathering} {arrival : Arrival}
  {name : String} {node : NodeId} {d : Definition} {externs source : NodeId}

/-- The visits of a region. -/
def visitEach (arena : Arena) (extractor : StatefulExtractor σ) (region : Region) (root : NodeId) (g : Gathering) :
    StateM σ Gathering :=
  (arena.visits region root).foldlM (visit arena extractor region) g

/-- The visit of a node, when the extractor goes by the arena alone. -/
def visitBy (arena : Arena) (extractor : Extractor) (region : Region) (g : Gathering) (arrival : Arrival) : Gathering :=
  g.note arena region arrival (extractor arena arrival.node region)

/-- The gathering after the visits of a region, when the extractor goes by the arena alone. -/
def visitAll (arena : Arena) (extractor : Extractor) (region : Region) (root : NodeId) (g : Gathering) :
    Gathering :=
  (arena.visits region root).foldl (visitBy arena extractor region) g

theorem visitEach_stateless (arena : Arena) (extractor : Extractor) (region : Region) (root : NodeId) (g : Gathering) :
    visitEach arena extractor.stateless region root g () = (visitAll arena extractor region root g, ()) := by
  unfold visitEach visitAll
  generalize arena.visits region root = arrivals
  induction arrivals generalizing g with
  | nil => rfl
  | cons arrival arrivals ih => exact ih (g.visitBy arena extractor region arrival)

/-! ### Runs -/

/-- Before the externs are visited. -/
def opened (externs source : NodeId) : Gathering :=
  ⟨.empty, [.gatherSpan externs source, .enter, .regionSpan .externs, .enter]⟩

/-- Between the visits of the externs and those of the source. -/
def turned (g : Gathering) : Gathering := ((g.log .exit).log (.regionSpan .source)).log .enter

/-- After the source is visited. -/
def closed (g : Gathering) : Gathering :=
  ((g.log .exit).log (.gathered g.index.buckets.length g.index.sites.length)).log .exit

@[simp] theorem index_opened (externs source : NodeId) : (opened externs source).index = .empty := rfl

@[simp] theorem index_turned (g : Gathering) : g.turned.index = g.index := rfl

@[simp] theorem index_closed (g : Gathering) : g.closed.index = g.index := rfl

/-- A run is the visits of the externs and then those of the source. -/
theorem run_eq (hl : arena.Linked) (extractor : StatefulExtractor σ) (he : externs < arena.size)
    (hs : source < arena.size) (state : σ) :
    ∃ first second, visitEach arena extractor .externs externs (opened externs source) state = first ∧
      visitEach arena extractor .source source first.1.turned first.2 = second ∧
      empty.run arena extractor externs source state = .ok (second.1.closed, second.2) := by
  refine ⟨_, _, rfl, rfl, ?_⟩
  simp only [run, addRegion, hl.walk_eq_ok he, hl.walk_eq_ok hs]
  rfl

/-! ### The index is independent of what was noted -/

theorem foldl_congr {α : Type} {f : Gathering → α → Gathering}
    (hf : ∀ g g' a, g.index = g'.index → (f g a).index = (f g' a).index) :
    ∀ (items : List α) (g g' : Gathering), g.index = g'.index →
      (items.foldl f g).index = (items.foldl f g').index
  | [], _, _, h => h
  | a :: items, g, g', h => foldl_congr hf items _ _ (hf g g' a h)

theorem dropStub_congr (d : Definition) (h : g.index = g'.index) :
    (dropStub arena node name g d).index = (dropStub arena node name g' d).index := by
  unfold dropStub
  split_ifs
  · simp only [log, h]
    split <;> rfl
  · exact h

theorem dropSuperseded_congr (h : g.index = g'.index) :
    (g.dropSuperseded arena node name).index = (g'.dropSuperseded arena node name).index := by
  unfold dropSuperseded
  rw [h]
  split_ifs
  · exact foldl_congr (fun _ _ d => dropStub_congr d) _ _ _ h
  · exact h

theorem recordFound_congr (h : g.index = g'.index) :
    (g.recordFound arena region arrival d).index = (g'.recordFound arena region arrival d).index := by
  unfold recordFound
  split
  · exact h
  · have hdrop : ∀ name, (if region = .externs then g.dropSuperseded arena arrival.node name else g).index =
        (if region = .externs then g'.dropSuperseded arena arrival.node name else g').index := by
      intro name
      split_ifs
      · exact dropSuperseded_congr h
      · exact h
    simp only [record, hdrop]

theorem recordStub_congr (h : g.index = g'.index) :
    (g.recordStub arena arrival).index = (g'.recordStub arena arrival).index := by
  unfold recordStub isRedundant
  rw [h]
  split
  · exact h
  · split_ifs
    · exact h
    · simp only [record, h]

theorem note_congr (arrival : Arrival) (answer : Option Definition) (h : g.index = g'.index) :
    (g.note arena region arrival answer).index = (g'.note arena region arrival answer).index := by
  unfold note
  cases answer with
  | none =>
    dsimp only
    split_ifs
    · exact recordStub_congr h
    · exact h
  | some d =>
    dsimp only
    split_ifs
    · exact recordStub_congr (recordFound_congr h)
    · exact recordFound_congr h

/-- The gathering of two regions, without the events of its spans. -/
def ofRegions (arena : Arena) (extractor : Extractor) (externs source : NodeId) : Gathering :=
  visitAll arena extractor .source source (visitAll arena extractor .externs externs .empty)

theorem visitAll_congr {root : NodeId} (h : g.index = g'.index) :
    (visitAll arena extractor region root g).index = (visitAll arena extractor region root g').index :=
  foldl_congr (fun _ _ arrival => note_congr arrival (extractor arena arrival.node region)) _ _ _ h

theorem run_stateless (hl : arena.Linked) (extractor : Extractor) (he : externs < arena.size)
    (hs : source < arena.size) : empty.run arena extractor.stateless externs source () =
      .ok ((visitAll arena extractor .source source
        (visitAll arena extractor .externs externs (opened externs source)).turned).closed, ()) := by
  obtain ⟨first, second, hfirst, hsecond, hrun⟩ := run_eq hl extractor.stateless he hs ()
  rw [visitEach_stateless] at hfirst
  subst hfirst
  rw [visitEach_stateless] at hsecond
  subst hsecond
  exact hrun

/-- The events of the spans are the only difference. -/
theorem index_spanned (arena : Arena) (extractor : Extractor) (externs source : NodeId) :
    (visitAll arena extractor .source source
      (visitAll arena extractor .externs externs (opened externs source)).turned).closed.index =
      (ofRegions arena extractor externs source).index := by
  rw [index_closed, ofRegions]
  refine visitAll_congr ?_
  rw [index_turned]
  exact visitAll_congr (index_opened externs source)

theorem run_eq_ok (hl : arena.Linked) (extractor : Extractor) (he : externs < arena.size) (hs : source < arena.size) :
    ∃ after, empty.run arena extractor.stateless externs source () = .ok (after, ()) ∧
      after.index = (ofRegions arena extractor externs source).index :=
  ⟨_, run_stateless hl extractor he hs, index_spanned arena extractor externs source⟩

/-! ### What visits keep -/

/-- What is kept when a site of one of some nodes is recorded, each with its place and region, and when a
definition is taken away. -/
structure Kept (arena : Arena) (nodes : NodeId → Place → Region → Prop) (P : Index → Prop) : Prop where
  insert : ∀ (index : Index) name site, P index → nodes site.node site.place site.region →
    arena.canonicalName? site.definition.lvalue = some name → P (index.insert name site)
  remove? : ∀ (index : Index) name d after, P index → index.remove? name d = some after → P after

namespace Kept
variable {nodes : NodeId → Place → Region → Prop} {P : Index → Prop} (hk : Kept arena nodes P)
include hk

theorem dropStub (h : P g.index) : P (g.dropStub arena node name d).index := by
  unfold Gathering.dropStub
  split_ifs
  · dsimp only
    cases hr : (g.log (.stubDropped name d.lvalue node)).index.remove? name d with
    | none => exact h
    | some after => exact hk.remove? g.index name d after h hr
  · exact h

theorem foldl_dropStub : ∀ (stubs : List Definition) (g : Gathering), P g.index →
    P (stubs.foldl (Gathering.dropStub arena node name) g).index
  | [], _, h => h
  | _ :: stubs, _, h => foldl_dropStub stubs _ (hk.dropStub h)

theorem dropSuperseded (h : P g.index) : P (g.dropSuperseded arena node name).index := by
  unfold Gathering.dropSuperseded
  split_ifs
  · exact hk.foldl_dropStub _ g h
  · exact h

theorem recordFound (hn : nodes arrival.node arrival.place region) (h : P g.index) :
    P (g.recordFound arena region arrival d).index := by
  unfold Gathering.recordFound
  cases hname : arena.canonicalName? d.lvalue with
  | none => exact h
  | some name =>
    have hlvalue : arena.canonicalName? (d.recorded arena region).lvalue = some name := by
      rw [Definition.lvalue_recorded, hname]
    dsimp only
    split_ifs
    · exact hk.insert _ _ _ (hk.dropSuperseded h) hn hlvalue
    · exact hk.insert _ _ _ h hn hlvalue

theorem recordStub (hn : nodes arrival.node arrival.place .externs) (h : P g.index) :
    P (g.recordStub arena arrival).index := by
  unfold Gathering.recordStub
  cases hname : arena.canonicalName? arrival.node with
  | none => exact h
  | some name =>
    dsimp only
    split_ifs
    · exact h
    · exact hk.insert _ _ _ h hn hname

theorem note (answer : Option Definition) (hn : nodes arrival.node arrival.place region) (h : P g.index) :
    P (g.note arena region arrival answer).index := by
  have hstub {g : Gathering} (h : P g.index) : P
      (if region = .externs && arrival.parent.any arena.isExpressionStatement then g.recordStub arena arrival
        else g).index := by
    split_ifs with hregion
    · obtain ⟨rfl, -⟩ : region = .externs ∧ _ := by simpa using hregion
      exact hk.recordStub hn h
    · exact h
  unfold Gathering.note
  cases answer with
  | none => exact hstub h
  | some d => exact hstub (hk.recordFound hn h)

theorem visitEach {root : NodeId} (extractor : StatefulExtractor σ) (state : σ)
    (hn : ∀ a ∈ arena.visits region root, nodes a.node a.place region) (h : P g.index) :
    P (g.visitEach arena extractor region root state).1.index := by
  unfold Gathering.visitEach
  generalize arena.visits region root = arrivals at hn
  induction arrivals generalizing g state with
  | nil => exact h
  | cons a arrivals ih =>
    obtain ⟨ha, harrivals⟩ := List.forall_mem_cons.1 hn
    exact ih _ (hk.note _ ha h) harrivals

/-- Whatever the extractor says. -/
theorem run (hl : arena.Linked) (extractor : StatefulExtractor σ) (hexterns : externs < arena.size)
    (hsource : source < arena.size) (state : σ)
    (he : ∀ a ∈ arena.visits .externs externs, nodes a.node a.place .externs)
    (hs : ∀ a ∈ arena.visits .source source, nodes a.node a.place .source) (h : P .empty) :
    ∃ after state', Gathering.empty.run arena extractor externs source state = .ok (after, state') ∧ P after.index := by
  obtain ⟨first, second, hfirst, hsecond, hrun⟩ := run_eq hl extractor hexterns hsource state
  have hbetween : P first.1.index := by
    rw [← hfirst]
    exact hk.visitEach extractor state he (by rwa [index_opened])
  have hafter : P second.1.index := by
    rw [← hsecond]
    exact hk.visitEach extractor first.2 hs (by rwa [index_turned])
  exact ⟨_, _, hrun, by rwa [index_closed]⟩

theorem visitAll {root : NodeId} (hn : ∀ a ∈ arena.visits region root, nodes a.node a.place region) (h : P g.index) :
    P (g.visitAll arena extractor region root).index := by
  unfold Gathering.visitAll
  generalize arena.visits region root = arrivals at hn
  induction arrivals generalizing g with
  | nil => exact h
  | cons a arrivals ih =>
    exact ih (hk.note _ (hn a List.mem_cons_self) h) fun b hb => hn b (List.mem_cons_of_mem _ hb)

theorem ofRegions {externs source : NodeId}
    (he : ∀ a ∈ arena.visits .externs externs, nodes a.node a.place .externs)
    (hs : ∀ a ∈ arena.visits .source source, nodes a.node a.place .source) (h : P .empty) :
    P (ofRegions arena extractor externs source).index :=
  hk.visitAll hs (hk.visitAll he h)

end Kept

/-- The sites of an index are those recorded. -/
theorem kept_sites (arena : Arena) (nodes : NodeId → Place → Region → Prop) :
    Kept arena nodes fun index => ∀ s ∈ index.sites, nodes s.node s.place s.region := by
  refine ⟨fun index name site h hsite _ s hmem => ?_, fun index name d after h hr s hmem => ?_⟩
  · rcases Index.mem_putSite hmem with rfl | hmem
    · exact hsite
    · exact h s hmem
  · obtain ⟨-, rfl⟩ := Index.remove?_eq_some hr
    exact h s (Index.dropSite_sublist.subset hmem)

end Gathering

namespace Resolver

variable {σ : Type} {arena : Arena} {externs source : NodeId}

theorem gather_of_run {extractor : StatefulExtractor σ} {state state' : σ} {after : Gathering}
    (h : Gathering.empty.run arena extractor externs source state = .ok (after, state')) :
    (ofStateful arena extractor state).gather externs source = .ok ⟨arena, extractor, state', .done, after⟩ := by
  simp only [ofStateful, gather, h]
  rfl

theorem gather_eq_ok (hl : arena.Linked) (extractor : Extractor) (he : externs < arena.size)
    (hs : source < arena.size) :
    ∃ r, (ofArena arena extractor).gather externs source = .ok r ∧ r.arena = arena ∧
      r.index = .ok (Gathering.ofRegions arena extractor externs source).index := by
  obtain ⟨after, hrun, hindex⟩ := Gathering.run_eq_ok hl extractor he hs
  refine ⟨_, gather_of_run hrun, rfl, ?_⟩
  rw [← hindex]
  rfl

end Resolver

end ScriptIndex
