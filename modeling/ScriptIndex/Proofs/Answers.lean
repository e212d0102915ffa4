import ScriptIndex.Proofs.GatherRuns
import ScriptIndex.Proofs.IndexInv
import ScriptIndex.Proofs.Programs

/-! # Answers to queries

Whatever the extractor, gathering a linked arena ends with an index in which definitions are filed under
their canonical names, and a use is answered with all that is filed under the name it refers by. -/

namespace ScriptIndex

/-- `v` is the node whose name the use `u` refers by. -/
inductive Arena.RefersBy (arena : Arena) : NodeId → NodeId → Prop
  | receiver {u v : NodeId} {text : String} (hk : arena.kind? u = some (.property text))
      (ht : text = "apply" ∨ text = "call") (hv : arena.firstChild? u = some v) : RefersBy arena u v
  | itself {u : NodeId}
      (h : ∀ text v, arena.kind? u = some (.property text) → text = "apply" ∨ text = "call" →
        arena.firstChild? u ≠ some v) : RefersBy arena u u

namespace Resolver

variable {σ : Type} {arena : Arena} {r : Resolver σ} {index : Index} {u v : NodeId}

/-- What is known of the answers of a resolver. -/
structure Answers (arena : Arena) (r : Resolver σ) (index : Index) : Prop where
  filed : ∀ k, ∀ d ∈ index.definitions k, arena.canonicalName? d.lvalue = some k
  nonempty : ∀ k ∈ index.names, index.definitions k ≠ []
  sited : ∀ s ∈ index.sites, ∃ k,
    arena.canonicalName? s.definition.lvalue = some k ∧ s.definition ∈ index.definitions k
  at_site : ∀ s ∈ index.sites, r.definitionsAt s.node = .ok none
  refers : ∀ u, ∃ v, arena.RefersBy u v
  at_use : ∀ u v, u < arena.size → (∀ s ∈ index.sites, s.node ≠ u) → arena.RefersBy u v →
    (∀ k, arena.canonicalName? v = some k → k ∈ index.names →
      r.definitionsAt u = .ok (some (index.definitions k))) ∧
    ((∀ k, arena.canonicalName? v = some k → k ∉ index.names) → r.definitionsAt u = .ok none) ∧
    ∀ k, arena.canonicalName? v = some k → ∀ s ∈ index.sites,
      arena.canonicalName? s.definition.lvalue = some k →
        ∃ ds, r.definitionsAt u = .ok (some ds) ∧ s.definition ∈ ds

theorem exists_refersBy (arena : Arena) (u : NodeId) : ∃ v, arena.RefersBy u v := by
  by_cases h : ∃ text v, arena.kind? u = some (.property text) ∧ (text = "apply" ∨ text = "call") ∧
      arena.firstChild? u = some v
  · obtain ⟨text, v, hk, ht, hv⟩ := h
    exact ⟨v, .receiver hk ht hv⟩
  · exact ⟨u, .itself fun text v hk ht hv => h ⟨text, v, hk, ht, hv⟩⟩

theorem referent_eq (h : r.arena.RefersBy u v) : r.referent u = v := by
  unfold referent
  cases h with
  | receiver hk ht hv =>
    rw [hk]
    dsimp only
    rw [if_pos (by simpa using ht), hv]
    rfl
  | itself h =>
    split
    · next text hk =>
      split_ifs with ht
      · cases hv : r.arena.firstChild? u with
        | none => rfl
        | some v => exact absurd hv (h text v hk (by simpa using ht))
      · rfl
    · rfl

theorem definitionsAt_site (hindex : r.index = .ok index) {s : Site} (hs : s ∈ index.sites) :
    r.definitionsAt s.node = .ok none := by
  have hsite : (index.site? s.node).isSome = true :=
    List.find?_isSome.2 ⟨s, hs, by simp⟩
  simp only [definitionsAt, hindex, bind, Except.bind, hsite]
  rfl

/-- A use is answered by the bucket of its name, if that holds anything. -/
theorem definitionsAt_use (hindex : r.index = .ok index) (hu : u < r.arena.size)
    (hsite : ∀ s ∈ index.sites, s.node ≠ u) (hv : r.arena.RefersBy u v) :
    r.definitionsAt u = .ok ((r.arena.canonicalName? v).bind fun k =>
      if index.definitions k = [] then none else some (index.definitions k)) := by
  have hnone : index.site? u = none := List.find?_eq_none.2 fun s hs => by simpa using hsite s hs
  have hcheck : r.check u = .ok () := by rw [check, if_pos (Arena.contains_iff.2 hu)]
  simp only [definitionsAt, hindex, bind, Except.bind, hnone, hcheck, referent_eq hv]
  cases r.arena.canonicalName? v with
  | none => rfl
  | some k =>
    cases hds : index.definitions k <;> simp [hds] <;> rfl

theorem answers_of_filed (hr : r.index = .ok index) (h : index.Filed r.arena) : Answers r.arena r index := by
  have hnames := h.mem_names_iff
  refine ⟨h.filed, fun k hk => (hnames k).1 hk, fun s hs => ?_, fun s hs => definitionsAt_site hr hs,
    exists_refersBy r.arena, fun u v hu hsite hv => ?_⟩
  · obtain ⟨k, hk⟩ := h.sited s hs
    exact ⟨k, hk, h.mem_definitions hs hk⟩
  · have hanswer := definitionsAt_use hr hu hsite hv
    have hbucket : ∀ k, r.arena.canonicalName? v = some k → k ∈ index.names →
        r.definitionsAt u = .ok (some (index.definitions k)) := by
      intro k hk hmem
      rw [hanswer, hk, Option.bind_some, if_neg ((hnames k).1 hmem)]
    refine ⟨hbucket, fun hnone => ?_, fun k hk s hs hsk => ?_⟩
    · rw [hanswer]
      cases hk : r.arena.canonicalName? v with
      | none => rfl
      | some k =>
        have hempty : index.definitions k = [] := by_contra fun hne => hnone k hk ((hnames k).2 hne)
        rw [Option.bind_some, if_pos hempty]
    · have hmem := h.mem_definitions hs hsk
      exact ⟨_, hbucket k hk ((hnames k).2 (List.ne_nil_of_mem hmem)), hmem⟩

theorem filed_kept (arena : Arena) : Gathering.Kept arena (fun _ _ _ => True) (Index.Filed arena) :=
  ⟨fun _ _ _ h _ hname => h.insert hname, fun _ _ _ _ h hr => h.remove? hr⟩

/-- Gathering any linked arena with any extractor leads to such answers. Nothing here needs the walks to be
complete, so cycles are not ruled out. -/
theorem exists_answers {arena : Arena} (hl : arena.Linked) {externs source : NodeId}
    (he : externs < arena.size) (hs : source < arena.size) (extractor : Extractor) :
    ∃ r index, (ofArena arena extractor).gather externs source = .ok r ∧ r.index = .ok index ∧
      Answers arena r index := by
  obtain ⟨r, hr, rfl, hindex⟩ := gather_eq_ok hl extractor he hs
  exact ⟨r, _, hr, hindex, answers_of_filed hindex
    ((filed_kept r.arena).ofRegions (fun _ _ => trivial) (fun _ _ => trivial) .empty)⟩

theorem exists_answers_stub_call :
    let arena := Program.ofScripts
      [⟨.externs, ascii "a.b;", .standard⟩, ⟨.source, ascii "c.b.call(d);", .standard⟩]
    arena.Linked ∧ Region.externs.root < arena.size ∧ Region.source.root < arena.size ∧
      ∃ r index, (ofArena arena .syntactic).gather Region.externs.root Region.source.root = .ok r ∧
        r.index = .ok index ∧ Answers arena r index := by
  intro arena
  have hshape : Program.Shape arena := Program.shape _
  have hlt : ∀ region : Region, region.root < arena.size := fun region =>
    Arena.lt_of_kind? (hshape.root_kind region)
  exact ⟨hshape.linked, hlt _, hlt _, exists_answers hshape.linked (hlt _) (hlt _) .syntactic⟩

end Resolver

end ScriptIndex
