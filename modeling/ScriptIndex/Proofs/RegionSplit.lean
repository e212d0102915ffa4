import ScriptIndex.Proofs.Programs
import ScriptIndex.Proofs.SourceEntries
import ScriptIndex.Proofs.Widened

/-! # Gathering region by region

What gathering finds in the source comes after what it finds in the externs alone, and is what the extractor
says of the nodes of the source in pre-order. -/

namespace ScriptIndex

namespace Program
open Assembly

namespace Shape
variable {arena : Arena} (hs : Shape arena)
include hs

/-- Gathering from the externs does not come to the nodes of the source. -/
theorem visits_externs_not_mem {a : Arrival} (ha : a ∈ arena.visits .externs Region.externs.root) :
    a.node ∉ arena.preorder Region.source.root := by
  obtain ⟨typed, ht⟩ := hs.types
  have hsource : ∀ n, arena.Below Region.source.root n → ¬ typed n := by
    intro n hn
    induction hn with
    | refl => exact fun htyped => (ht.typed_form _ htyped).ne_root (hs.root_kind .source)
    | tail _ hc ih => exact fun htyped => ih ((ht.typed_child _ _ hc).1 htyped)
  have hlink : ∀ n m, typed n ∨ arena.Below Region.externs.root n → arena.Link n m →
      typed m ∨ arena.Below Region.externs.root m := by
    rintro n m hn (hc | hm)
    · exact hn.imp (ht.typed_child n m hc).2 fun hb => hb.tail hc
    · exact .inl (ht.owner n m hm).1
  have hnode : typed a.node ∨ arena.Below Region.externs.root a.node :=
    Arena.arrival_of_link hlink (.inr Relation.ReflTransGen.refl) (List.mem_filter.1 ha).1
  intro hmem
  have hbelow := Arena.below_of_mem_preorder hmem
  rcases hnode with htyped | hb
  · exact hsource _ hbelow htyped
  · exact hs.linked.disjoint_below (by decide) (hs.root_free .externs) (hs.root_free .source) hb hbelow

theorem externs_sites_not_mem (extractor : Extractor) :
    ∀ s ∈ (Gathering.visitAll arena extractor .externs Region.externs.root .empty).index.sites,
      s.node ∉ arena.preorder Region.source.root := by
  refine (Gathering.kept_sites arena fun n _ _ => n ∉ arena.preorder Region.source.root).visitAll
    (fun a ha => hs.visits_externs_not_mem ha) fun s hmem => ?_
  exact absurd hmem List.not_mem_nil

/-- With an empty root for source, what is gathered is what the externs give. -/
theorem index_ofRegions_pushRoot {extractor : Extractor}
    (hsame : ∀ n < arena.size, extractor arena.pushRoot.2 n .externs = extractor arena n .externs)
    (hnone : extractor arena.pushRoot.2 arena.pushRoot.1 .source = none) :
    (Gathering.ofRegions arena.pushRoot.2 extractor Region.externs.root arena.pushRoot.1).index =
      (Gathering.visitAll arena extractor .externs Region.externs.root .empty).index := by
  have hw := Widened.pushRoot arena
  have hlink : ∀ n m, n = arena.pushRoot.1 → arena.pushRoot.2.Link n m → m = arena.pushRoot.1 := by
    rintro n m rfl (hc | hm)
    · rw [hw.children] at hc
      exact absurd (Arena.lt_of_mem_children hc) (Nat.lt_irrefl _)
    · rw [hw.typeRoots] at hm
      simp [Arena.typeRoots, Arena.doc?, Arena.pushRoot, Arena.node?_eq_none] at hm
  have hentries : arena.pushRoot.2.sourceEntries extractor arena.pushRoot.1 = [] := by
    refine List.filterMap_eq_nil_iff.2 fun a ha => ?_
    have hnode : a.node = arena.pushRoot.1 := Arena.arrival_of_link hlink rfl (List.mem_filter.1 ha).1
    rw [Arena.sourceEntry?, hnode, hnone]
    rfl
  have hpos : 0 < arena.size := hs.root_lt .externs
  rw [Gathering.ofRegions, Gathering.index_visitAll_source, hentries,
    hw.visitAll hs.linked hs.acyclic hpos (hs.root_lt .externs) hsame]
  rfl

end Shape

/-- What is gathered of a program is what is gathered of its externs alone, followed by what the extractor
says of the nodes of its source. -/
theorem gather_splits (scripts : List Script) (extractor : Extractor)
    (hsame : ∀ n < (ofScripts scripts).size,
      extractor (ofScripts scripts).pushRoot.2 n .externs = extractor (ofScripts scripts) n .externs)
    (hnone : extractor (ofScripts scripts).pushRoot.2 (ofScripts scripts).pushRoot.1 .source = none) :
    let arena := ofScripts scripts
    let source := arena.preorder Region.source.root
    ∃ r index r' ofExterns,
      (Resolver.ofArena arena extractor).gather Region.externs.root Region.source.root = .ok r ∧
      r.index = .ok index ∧
      (Resolver.ofArena arena.pushRoot.2 extractor).gather Region.externs.root arena.pushRoot.1 = .ok r' ∧
      r'.index = .ok ofExterns ∧
      (∀ name, index.definitions name = ofExterns.definitions name ++ source.filterMap fun n =>
        (extractor arena n .source).bind fun d =>
          if arena.canonicalName? d.lvalue = some name then some (d.recorded arena .source) else none) ∧
      (∃ ofSource : List Site, index.sites = ofExterns.sites ++ ofSource ∧
        (ofSource.map fun s => (s.node, s.definition, s.region)) = (source.filterMap fun n =>
          (extractor arena n .source).bind fun d =>
            (arena.canonicalName? d.lvalue).map fun _ => (n, d.recorded arena .source, Region.source)) ∧
        ∀ s ∈ ofSource, arena.InModule s.node s.place.module) ∧
      index.names = ofExterns.names ++ ((source.filterMap fun n =>
        (extractor arena n .source).bind fun d => arena.canonicalName? d.lvalue).filter
          (· ∉ ofExterns.names)).eraseDups := by
  intro arena source
  have hs : Shape arena := shape scripts
  have hw := Widened.pushRoot arena
  have hroot : Region.source.root < arena.size := hs.root_lt .source
  have hbare : arena.pushRoot.1 < arena.pushRoot.2.size := by
    rw [hw.size]
    exact Nat.lt_succ_self _
  have hexterns : Region.externs.root < arena.pushRoot.2.size := by
    rw [hw.size]
    exact Nat.lt_succ_of_lt (hs.root_lt .externs)
  obtain ⟨r, hr, -, hindex⟩ := Resolver.gather_eq_ok hs.linked extractor (hs.root_lt .externs) hroot
  obtain ⟨r', hr', -, hindex'⟩ := Resolver.gather_eq_ok (hw.linked hs.linked) extractor hexterns hbare
  rw [hs.index_ofRegions_pushRoot hsame hnone] at hindex'
  rw [Gathering.ofRegions, Gathering.index_visitAll_source] at hindex
  -- both arenas give the same index for the externs
  have hdisjoint := hs.externs_sites_not_mem extractor
  generalize (Gathering.visitAll arena extractor .externs Region.externs.root .empty).index = ofExterns
    at hindex hindex' hdisjoint
  have hnodes : ((arena.sourceEntries extractor Region.source.root).map (·.2.node)).Sublist source :=
    Arena.nodes_sourceEntries hs.linked hs.acyclic hroot
  have hnew : ∀ s ∈ ofExterns.sites, ∀ e ∈ arena.sourceEntries extractor Region.source.root,
      s.node ≠ e.2.node := fun s hsite e he heq =>
    hdisjoint s hsite (heq ▸ hnodes.subset (List.mem_map_of_mem he))
  have hnodup := hnodes.nodup (hs.linked.preorder_nodup hs.acyclic hs.children_nodup _)
  refine ⟨r, _, r', ofExterns, hr, hindex, hr', hindex',
    Arena.definitions_sourceEntries hs.linked hs.acyclic hroot ofExterns,
    ⟨_, Index.sites_insertAll _ _ hnew hnodup, Arena.sites_sourceEntries hs.linked hs.acyclic hroot,
      fun s hmem => ?_⟩,
    Arena.names_sourceEntries hs.linked hs.acyclic hroot ofExterns⟩
  obtain ⟨e, he, rfl⟩ := List.mem_map.1 hmem
  exact Arena.inModule_of_sourceEntries hs.linked (hs.root_free .source) he

/-- The form of the program is such an extractor. -/
theorem gather_splits_syntactic :
    let scripts : List Script :=
      [⟨.externs, ascii "var a; a.b;", .standard⟩, ⟨.source, ascii "a.b = c;", .standard⟩]
    let arena := ofScripts scripts
    (∀ n < arena.size, Extractor.syntactic arena.pushRoot.2 n .externs = Extractor.syntactic arena n .externs) ∧
      Extractor.syntactic arena.pushRoot.2 arena.pushRoot.1 .source = none ∧
      ∃ r index r' ofExterns,
        (Resolver.ofArena arena .syntactic).gather Region.externs.root Region.source.root = .ok r ∧
        r.index = .ok index ∧
        (Resolver.ofArena arena.pushRoot.2 .syntactic).gather Region.externs.root arena.pushRoot.1 = .ok r' ∧
        r'.index = .ok ofExterns ∧ ∃ ofSource : List Site, index.sites = ofExterns.sites ++ ofSource ∧
          ∀ s ∈ ofSource, arena.InModule s.node s.place.module := by
  intro scripts arena
  have hw := Widened.pushRoot arena
  have hsame : ∀ n < arena.size,
      Extractor.syntactic arena.pushRoot.2 n .externs = Extractor.syntactic arena n .externs :=
    fun n _ => hw.syntactic n .externs
  have hnone : Extractor.syntactic arena.pushRoot.2 arena.pushRoot.1 .source = none := by
    rw [hw.syntactic]
    simp [Extractor.syntactic, Arena.parent?, Arena.pushRoot, Arena.node?_eq_none]
  obtain ⟨r, index, r', ofExterns, hr, hindex, hr', hindex', -, ⟨ofSource, hsites, -, hmodule⟩, -⟩ :=
    gather_splits scripts .syntactic hsame hnone
  exact ⟨hsame, hnone, r, index, r', ofExterns, hr, hindex, hr', hindex', ofSource, hsites, hmodule⟩

end Program

end ScriptIndex
