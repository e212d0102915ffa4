import ScriptIndex.Proofs.SiteOrder

/-! # The order of an index

In the index of a program, the sites stand in the pre-order of the externs and then of the source, and
the buckets are read off the sites. -/

namespace ScriptIndex.Program

/-- Buckets and sites of a program say the same, in the same order. -/
theorem buckets_follow_sites (scripts : List Script) :
    let arena := ofScripts scripts
    let order := arena.preorder Region.externs.root ++ arena.preorder Region.source.root
    ∃ r index, (Resolver.ofArena arena .syntactic).gather Region.externs.root Region.source.root = .ok r ∧
      r.index = .ok index ∧
      (∀ name, index.definitions name =
        (index.sites.filter fun s => arena.canonicalName? s.node = some name).map (·.definition)) ∧
      index.names.Nodup ∧
      (∀ name, name ∈ index.names ↔ ∃ s ∈ index.sites, arena.canonicalName? s.node = some name) ∧
      (∀ s ∈ index.sites, s.definition.lvalue = s.node) ∧
      order.Nodup ∧ (index.sites.map (·.node)).Sublist order ∧
      ∀ name, ((index.definitions name).map (·.lvalue)).Sublist order ∧
        ∃ ofExterns ofSource, index.definitions name = ofExterns ++ ofSource ∧
          (∀ d ∈ ofExterns, d.region = .externs) ∧ ∀ d ∈ ofSource, d.region = .source := by
  intro arena order
  have hs : Shape arena := shape scripts
  obtain ⟨r, hr, -, hindex⟩ := Resolver.gather_eq_ok hs.linked .syntactic (hs.root_lt .externs) (hs.root_lt .source)
  obtain ⟨h, hsites⟩ := hs.ofRegions_agrees
  generalize (Gathering.ofRegions arena .syntactic Region.externs.root Region.source.root).index = index
    at h hsites hindex
  have horder : (index.sites.map (·.node)).Sublist order := by
    rw [hsites, List.map_append]
    exact (hs.nodes_regionSites .externs).append (hs.nodes_regionSites .source)
  refine ⟨r, index, hr, hindex, h.definitions, h.tidy.names_nodup, fun name => h.mem_names_iff, h.own,
    hs.preorder_nodup, horder, fun name => ⟨?_, ?_⟩⟩
  · have hlvalues : (index.definitions name).map (·.lvalue) =
        (index.sites.filter fun s => arena.canonicalName? s.node = some name).map (·.node) := by
      rw [h.definitions, List.map_map]
      exact List.map_congr_left fun s hmem => h.own s (List.mem_filter.1 hmem).1
    rw [hlvalues]
    exact (List.filter_sublist.map _).trans horder
  · have hregion : ∀ region, ∀ d ∈ ((arena.regionSites region).filter fun s =>
        arena.canonicalName? s.node = some name).map (·.definition), d.region = region := by
      intro region d hd
      obtain ⟨s, hs, rfl⟩ := List.mem_map.1 hd
      exact (Arena.records_of_mem_regionSites (List.mem_filter.1 hs).1).region_eq
    refine ⟨_, _, ?_, hregion .externs, hregion .source⟩
    rw [h.definitions, hsites, List.filter_append, List.map_append]

end ScriptIndex.Program
