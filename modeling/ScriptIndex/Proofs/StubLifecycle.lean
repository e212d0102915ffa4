import ScriptIndex.Proofs.SiteOrder

/-! # What becomes of stubs

Of the visited nodes that are one qualified name, those that define it by their form are always recorded. A
stub is recorded if no such definition comes after it, and its documentation declares something or nothing
of the name comes before it. -/

namespace ScriptIndex

namespace Arena

variable (arena : Arena) (q : NodeId)

/-- What is recorded of the definition that a node gives by its form, if the node is the name `q`. -/
def foundAs (n : NodeId) : Option Definition :=
  if arena.sameQualified n q then
    (Extractor.syntactic arena n .externs).map (·.recorded arena .externs)
  else none

/-- Whether the node is the name `q` and stands alone in a statement. -/
def isBareAs (n : NodeId) : Bool := arena.isBare n && arena.sameQualified n q

/-- Whether a stub is recorded for the node, given those visited before and after it. -/
def stubLasts (before : List NodeId) (n : NodeId) (after : List NodeId) : Bool :=
  arena.isBareAs q n && after.all (fun m => (arena.foundAs q m).isNone) &&
    (arena.declares n || before.all fun m => (arena.foundAs q m).isNone && !arena.isBareAs q m)

/-- The definitions of the name `q` that are left of some visits, given the nodes visited before. -/
def survivors (before : List NodeId) : List NodeId → List Definition
  | [] => []
  | n :: after =>
    (arena.foundAs q n).toList ++ (if arena.stubLasts q before n after then [.stub n] else []) ++
      survivors (before ++ [n]) after

variable {arena : Arena} {q n : NodeId} {d : Definition}

theorem isStub_foundAs (h : arena.foundAs q n = some d) : d.isStub = false := by
  unfold foundAs at h
  split_ifs at h
  obtain ⟨d, hd, rfl⟩ := Option.map_eq_some_iff.1 h
  exact (recorded_syntactic hd).2.2

/-- One more visit: a definition takes the place of the stubs, and the node itself may be recorded. -/
theorem survivors_append (visited : List NodeId) (n : NodeId) : ∀ before : List NodeId,
    arena.survivors q before (visited ++ [n]) =
      (if (arena.foundAs q n).isSome then (arena.survivors q before visited).filter (fun d => !d.isStub)
        else arena.survivors q before visited) ++
      (arena.foundAs q n).toList ++ if arena.stubLasts q (before ++ visited) n [] then [.stub n] else [] := by
  induction visited with
  | nil => intro before; simp [survivors]
  | cons m visited ih =>
    intro before
    have hlasts : arena.stubLasts q before m (visited ++ [n]) =
        (arena.stubLasts q before m visited && (arena.foundAs q n).isNone) := by
      simp only [stubLasts, List.all_append, List.all_cons, List.all_nil, Bool.and_true]
      ac_rfl
    have hfound : (arena.foundAs q m).toList.filter (fun d => !d.isStub) = (arena.foundAs q m).toList := by
      refine List.filter_eq_self.2 fun d hd => ?_
      rw [isStub_foundAs (Option.mem_toList.1 hd)]
      rfl
    have hbefore : before ++ [m] ++ visited = before ++ m :: visited := by simp
    rw [List.cons_append, survivors, survivors, ih, hlasts, hbefore]
    cases hn : arena.foundAs q n with
    | none => simp
    | some d =>
      simp only [Option.isNone_some, Bool.and_false, Bool.false_eq_true, if_false, Option.isSome_some,
        if_true, List.filter_append, hfound]
      split_ifs <;> simp [Definition.isStub]

/-- Something is left as soon as a definition or a stub was visited. -/
theorem survivors_eq_nil_iff (arena : Arena) (q : NodeId) (visited : List NodeId) : arena.survivors q [] visited = [] ↔
    (visited.all fun m => (arena.foundAs q m).isNone && !arena.isBareAs q m) = true := by
  induction visited using List.reverseRecOn with
  | nil => simp [survivors]
  | append_singleton visited n ih =>
    rw [survivors_append, List.nil_append, List.all_append, Bool.and_eq_true, ← ih]
    cases hn : arena.foundAs q n with
    | some d => simp [hn]
    | none =>
      rw [Option.isSome_none, if_neg Bool.false_ne_true, List.append_eq_nil_iff, List.append_eq_nil_iff]
      constructor
      · rintro ⟨⟨h, -⟩, hstub⟩
        have hbare : arena.isBareAs q n = false := by
          cases hbare : arena.isBareAs q n with
          | false => rfl
          | true => simp [stubLasts, ih.1 h, hbare] at hstub
        exact ⟨h, by simp [hn, hbare]⟩
      · rintro ⟨h, hquiet⟩
        have hbare : arena.isBareAs q n = false := by simpa [hn] using hquiet
        exact ⟨⟨h, rfl⟩, by simp [stubLasts, hbare]⟩

end Arena

/-- The definitions at those of some sites whose l-value is the name `q`. -/
def Arena.definitionsOf (arena : Arena) (q : NodeId) (sites : List Site) : List Definition :=
  (sites.filter fun s => arena.sameQualified s.definition.lvalue q).map (·.definition)

section
variable {arena : Arena} {q : NodeId} {k : String} {sites : List Site} {a : Arrival}

theorem Arena.definitionsOf_append (site : Site) : arena.definitionsOf q (sites ++ [site]) =
    arena.definitionsOf q sites ++
      if arena.sameQualified site.definition.lvalue q then [site.definition] else [] := by
  rw [definitionsOf, List.filter_append, List.map_append]
  congr 1
  cases h : arena.sameQualified site.definition.lvalue q <;> simp [h]

/-- Where a definition of the name takes the place of stubs, all stubs of the name go. -/
theorem Arena.definitionsOf_supersedes (h : arena.sameQualified a.node q = true) :
    arena.definitionsOf q (sites.filter fun s => !arena.supersedes a.node s.definition) =
      (arena.definitionsOf q sites).filter (fun d => !d.isStub) := by
  unfold definitionsOf
  rw [List.filter_map, List.filter_filter, List.filter_filter]
  congr 1
  refine List.filter_congr fun s _ => ?_
  simp only [supersedes, sameQualified_congr h, Function.comp_apply]
  cases arena.sameQualified s.definition.lvalue q <;> simp

/-- A definition of another name leaves the stubs of the name. -/
theorem Arena.definitionsOf_other (h : arena.sameQualified a.node q = false) :
    arena.definitionsOf q (sites.filter fun s => !arena.supersedes a.node s.definition) =
      arena.definitionsOf q sites := by
  unfold definitionsOf
  rw [List.filter_filter]
  congr 1
  refine List.filter_congr fun s _ => ?_
  cases hq : arena.sameQualified s.definition.lvalue q with
  | false => rfl
  | true =>
    have hnode : arena.sameQualified s.definition.lvalue a.node = false := by
      cases hn : arena.sameQualified s.definition.lvalue a.node with
      | false => rfl
      | true => rw [Arena.sameQualified_trans (Arena.sameQualified_symm hn) hq] at h; cases h
    simp [supersedes, hnode]

theorem Arena.any_sameQualified (h : arena.sameQualified a.node q = true) :
    (sites.any fun s => arena.sameQualified s.definition.lvalue a.node) =
      !(arena.definitionsOf q sites).isEmpty := by
  rw [definitionsOf, List.isEmpty_map, Bool.eq_iff_iff]
  simp [sameQualified_congr h]

theorem Arena.definitionsOf_sitesAfter_other (h : arena.sameQualified a.node q = false) :
    arena.definitionsOf q (arena.sitesAfter .externs sites a) = arena.definitionsOf q sites := by
  unfold sitesAfter
  split
  · rfl
  · next k d _ hd =>
    rw [if_pos rfl, definitionsOf_append, definitionsOf_other h, (recorded_syntactic hd).1, h]
    exact List.append_nil _
  · split_ifs
    · rfl
    · rw [definitionsOf_append, show (Definition.stub a.node).lvalue = a.node from rfl, h]
      exact List.append_nil _
    · rfl

/-- A visit does to the definitions of a name what one more node does to those left of the nodes. -/
theorem Program.Shape.definitionsOf_sitesAfter (hs : Shape arena) {visited : List NodeId}
    (hk : arena.canonicalName? q = some k)
    (h : arena.definitionsOf q sites = arena.survivors q [] visited) :
    arena.definitionsOf q (arena.sitesAfter .externs sites a) = arena.survivors q [] (visited ++ [a.node]) := by
  rw [Arena.survivors_append, List.nil_append, ← h]
  cases hq : arena.sameQualified a.node q with
  | false =>
    rw [Arena.definitionsOf_sitesAfter_other hq]
    simp [Arena.foundAs, Arena.stubLasts, Arena.isBareAs, hq]
  | true =>
    have hname : arena.canonicalName? a.node = some k := (Arena.canonicalName?_eq_of_same hq).trans hk
    unfold Arena.sitesAfter
    rw [hname]
    cases hd : Extractor.syntactic arena a.node .externs with
    | some d =>
      have hfound : arena.foundAs q a.node = some (d.recorded arena .externs) := by
        simp [Arena.foundAs, hq, hd]
      have hlasts : arena.stubLasts q visited a.node [] = false := by
        simp [Arena.stubLasts, Arena.isBareAs, (hs.found hd).1]
      dsimp only
      rw [if_pos rfl, Arena.definitionsOf_append, Arena.definitionsOf_supersedes hq,
        (recorded_syntactic hd).1, hq, hfound, hlasts]
      simp
    | none =>
      have hfound : arena.foundAs q a.node = none := by simp [Arena.foundAs, hq, hd]
      have hlasts : arena.stubLasts q visited a.node [] = (arena.isBare a.node &&
          (arena.declares a.node || (arena.definitionsOf q sites).isEmpty)) := by
        have hquiet := arena.survivors_eq_nil_iff q visited
        rw [← h, ← List.isEmpty_iff, ← Bool.eq_iff_iff] at hquiet
        simp [Arena.stubLasts, Arena.isBareAs, hq, hquiet]
      dsimp only
      rw [hfound, hlasts, Arena.any_sameQualified hq, ← Bool.not_or]
      cases arena.isBare a.node with
      | false => simp
      | true =>
        cases arena.declares a.node || (arena.definitionsOf q sites).isEmpty with
        | false => simp
        | true =>
          show arena.definitionsOf q (sites ++ [⟨a.node, .stub a.node, a.place, .externs⟩]) = _
          rw [Arena.definitionsOf_append, show (Definition.stub a.node).lvalue = a.node from rfl, hq]
          simp

theorem Program.Shape.definitionsOf_foldl (hs : Shape arena) (hk : arena.canonicalName? q = some k)
    (arrivals : List Arrival) :
    arena.definitionsOf q (arrivals.foldl (arena.sitesAfter .externs) []) =
      arena.survivors q [] (arrivals.map (·.node)) := by
  induction arrivals using List.reverseRecOn with
  | nil => rfl
  | append_singleton arrivals a ih =>
    rw [List.foldl_append, List.map_append]
    exact hs.definitionsOf_sitesAfter hk ih

end

namespace Program
open Index

/-- In a bucket, the definitions of a qualified name from the externs are those at its sites there. -/
theorem Shape.filter_definitions {arena : Arena} {index : Index} (h : Agrees arena index)
    (hsites : index.sites = arena.regionSites .externs ++ arena.regionSites .source) (q : NodeId)
    (k : String) :
    (index.definitions k).filter (fun d => d.region = .externs ∧ arena.sameQualified d.lvalue q) =
      if arena.canonicalName? q = some k then arena.definitionsOf q (arena.regionSites .externs) else [] := by
  have hregion : ∀ region, ∀ s ∈ arena.regionSites region, s.definition.region = region := fun _ _ hmem =>
    (Arena.records_of_mem_regionSites hmem).region_eq
  have hname : ∀ s ∈ index.sites, arena.sameQualified s.definition.lvalue q = true →
      arena.canonicalName? s.node = arena.canonicalName? q := fun s hmem hsame => by
    rw [← h.own s hmem]
    exact Arena.canonicalName?_eq_of_same hsame
  rw [h.definitions, List.filter_map, List.filter_filter, hsites, List.filter_append]
  -- the source holds nothing of the externs, so only their sites count
  have hsource : (arena.regionSites .source).filter (fun s => ((fun d : Definition =>
      decide (d.region = .externs ∧ arena.sameQualified d.lvalue q = true)) ∘ (·.definition)) s &&
        decide (arena.canonicalName? s.node = some k)) = [] := by
    refine List.filter_eq_nil_iff.2 fun s hmem => ?_
    simp [hregion .source s hmem]
  rw [hsource, List.append_nil]
  rw [hsites] at hname
  split_ifs with hk
  · refine congrArg _ (List.filter_congr fun s hmem => ?_)
    have hs := hname s (List.mem_append_left _ hmem)
    cases hsame : arena.sameQualified s.definition.lvalue q with
    | false => simp [hsame]
    | true => simp [hsame, hregion .externs s hmem, hs hsame, hk]
  · rw [List.map_eq_nil_iff]
    refine List.filter_eq_nil_iff.2 fun s hmem hmatch => hk ?_
    simp only [Function.comp_apply, Bool.and_eq_true, decide_eq_true_eq] at hmatch
    rw [← hname s (List.mem_append_left _ hmem) hmatch.1.2]
    exact hmatch.2

/-- The definitions in the externs that are recorded of a qualified name are those that its nodes give by
their form and those of its lasting stubs, in the order of the visits. A stub that is not recorded has no
site. -/
theorem stubs_last (scripts : List Script) :
    let arena := ofScripts scripts
    ∃ arrivals r index,
      arena.walk (arena.gatherPolicy .externs) Region.externs.root = .ok arrivals ∧
      (Resolver.ofArena arena .syntactic).gather Region.externs.root Region.source.root = .ok r ∧
      r.index = .ok index ∧
      (∀ q k, (index.definitions k).filter (fun d => d.region = .externs ∧ arena.sameQualified d.lvalue q) =
        if arena.canonicalName? q = some k then
          arena.survivors q [] ((arrivals.filter (·.entered)).map (·.node))
        else []) ∧
      ∀ n, arena.isBare n = true → (∀ k, .stub n ∉ index.definitions k) → index.site? n = none := by
  intro arena
  have hs : Shape arena := shape scripts
  obtain ⟨r, hr, -, hindex⟩ := Resolver.gather_eq_ok hs.linked .syntactic (hs.root_lt .externs) (hs.root_lt .source)
  obtain ⟨h, hsites⟩ := hs.ofRegions_agrees
  generalize (Gathering.ofRegions arena .syntactic Region.externs.root Region.source.root).index = index
    at h hsites hindex
  refine ⟨_, r, index, hs.linked.walk_eq_ok (hs.root_lt .externs), hr, hindex, fun q k => ?_, fun n hn hstub => ?_⟩
  · rw [Shape.filter_definitions h hsites]
    split_ifs with hk
    · exact hs.definitionsOf_foldl hk _
    · rfl
  · refine List.find?_eq_none.2 fun s hmem hnode => ?_
    obtain rfl : s.node = n := by simpa using hnode
    obtain ⟨k, hk⟩ := h.named s hmem
    have hbucket : s.definition ∈ index.definitions k :=
      h.mem_definitions_iff.2 ⟨s, hmem, rfl, by rw [h.own s hmem, hk]⟩
    -- a site at a bare node is that of its own stub
    have hrecords : ∀ region, s ∉ arena.regionSites region := by
      intro region hregion
      rcases Arena.records_of_mem_regionSites hregion with ⟨d, hd, -⟩ | ⟨-, -, heq⟩
      · rw [(hs.found hd).1] at hn
        cases hn
      · exact hstub k (heq ▸ hbucket)
    rw [hsites] at hmem
    exact (List.mem_append.1 hmem).elim (hrecords _) (hrecords _)

/-- The stub of `c.b` outlasts the definition of `a.b`, which shares its bucket. -/
example : let arena := ofScripts [⟨.externs, ascii "a.b; c.b; a.b = 1; a.b;", .standard⟩]
    (Gathering.ofRegions arena .syntactic Region.externs.root Region.source.root).index.definitions "this.b" =
      [.stub 6, .concrete 9 (some 10) .externs] := by
  decide +kernel

end Program

end ScriptIndex
