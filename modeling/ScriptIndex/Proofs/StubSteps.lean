import ScriptIndex.Proofs.Agreement
import ScriptIndex.Proofs.GatherRuns
import ScriptIndex.Proofs.QualifiedNames

/-! # What a visit does to the sites

While buckets and sites agree, dropping stubs, recording a definition and recording a stub are told by what
becomes of the sites. -/

namespace ScriptIndex

/-- Whether a definition at `node` takes the place of the definition. -/
def Arena.supersedes (arena : Arena) (node : NodeId) (d : Definition) : Bool :=
  d.isStub && arena.sameQualified d.lvalue node

namespace Gathering
open Index

variable {arena : Arena} {g : Gathering} {node : NodeId} {name : String} {arrival : Arrival}

theorem dropStub_eq_self {d : Definition} (h : arena.sameQualified d.lvalue node = false) :
    dropStub arena node name g d = g := by
  rw [dropStub, h]
  rfl

theorem index_dropStub {d : Definition} {after : Index} (h : arena.sameQualified d.lvalue node = true)
    (hr : g.index.remove? name d = some after) : (dropStub arena node name g d).index = after := by
  unfold dropStub
  simp only [h, if_true, log, hr]

theorem dropStub_agrees {d : Definition} (h : Agrees arena g.index) (hd : d ∈ g.index.definitions name) :
    Agrees arena (dropStub arena node name g d).index ∧
      (dropStub arena node name g d).index.sites = g.index.sites.filter fun s =>
        ¬ (s.definition = d ∧ arena.sameQualified s.definition.lvalue node = true) := by
  cases hsame : arena.sameQualified d.lvalue node with
  | false =>
    rw [dropStub_eq_self hsame]
    refine ⟨h, (List.filter_eq_self.2 fun s _ => decide_eq_true ?_).symm⟩
    rintro ⟨rfl, hs⟩
    rw [hsame] at hs
    cases hs
  | true =>
    obtain ⟨after, hr, hagrees, hsites⟩ := h.remove? hd
    rw [index_dropStub hsame hr]
    refine ⟨hagrees, hsites.trans (List.filter_congr fun s _ => decide_eq_decide.2 (not_congr ?_))⟩
    exact ⟨fun heq => ⟨heq, heq ▸ hsame⟩, fun hs => hs.1⟩

theorem foldl_dropStub_agrees : ∀ (stubs : List Definition) (g : Gathering), Agrees arena g.index →
    stubs.Nodup → (∀ d ∈ stubs, d ∈ g.index.definitions name) →
    Agrees arena (stubs.foldl (dropStub arena node name) g).index ∧
      (stubs.foldl (dropStub arena node name) g).index.sites = g.index.sites.filter (fun s =>
        ¬ (s.definition ∈ stubs ∧ arena.sameQualified s.definition.lvalue node = true))
  | [], g, h, _, _ => ⟨h, by simp⟩
  | d :: stubs, g, h, hnd, hmem => by
    obtain ⟨hnot, hnd⟩ := List.nodup_cons.1 hnd
    obtain ⟨hd, hmem⟩ := List.forall_mem_cons.1 hmem
    obtain ⟨hagrees, hsites⟩ : Agrees arena (dropStub arena node name g d).index ∧ _ := dropStub_agrees h hd
    -- the other stubs are still there, since no two are equal
    have hmem' : ∀ d' ∈ stubs, d' ∈ (dropStub arena node name g d).index.definitions name := by
      intro d' hd'
      obtain ⟨s, hs, rfl, hk⟩ := h.mem_definitions_iff.1 (hmem d' hd')
      refine hagrees.mem_definitions_iff.2 ⟨s, ?_, rfl, hk⟩
      rw [hsites, List.mem_filter, decide_eq_true_eq]
      exact ⟨hs, fun heq => hnot (heq.1 ▸ hd')⟩
    obtain ⟨hagrees', hsites'⟩ := foldl_dropStub_agrees stubs _ hagrees hnd hmem'
    refine ⟨hagrees', ?_⟩
    rw [List.foldl_cons, hsites', hsites, List.filter_filter]
    refine List.filter_congr fun s _ => ?_
    rw [Bool.eq_iff_iff, Bool.and_eq_true, decide_eq_true_eq, decide_eq_true_eq, decide_eq_true_eq,
      List.mem_cons, or_and_right, not_or, and_comm]

/-- A definition without declaring documentation takes the place of all stubs of its qualified name. -/
theorem dropSuperseded_agrees (h : Agrees arena g.index) (hname : arena.canonicalName? node = some name)
    (hdoc : arena.declares node = false) :
    Agrees arena (g.dropSuperseded arena node name).index ∧
      (g.dropSuperseded arena node name).index.sites =
        g.index.sites.filter (fun s => !arena.supersedes node s.definition) := by
  have hcanonical : ∀ d : Definition, arena.sameQualified d.lvalue node = true →
      arena.canonicalName? d.lvalue = some name := fun d hsame =>
    (Arena.canonicalName?_eq_of_same hsame).trans hname
  unfold dropSuperseded
  split_ifs with hq
  · obtain ⟨hagrees, hsites⟩ := foldl_dropStub_agrees
      ((g.index.definitions name).filter (·.isStub)) g h ((h.definitions_nodup name).filter _)
      fun d hd => (List.mem_filter.1 hd).1
    refine ⟨hagrees, hsites.trans (List.filter_congr fun s hs => ?_)⟩
    rw [Bool.eq_iff_iff, decide_eq_true_eq, Bool.not_eq_true', ← Bool.not_eq_true, Arena.supersedes,
      Bool.and_eq_true, List.mem_filter, h.mem_definitions_iff]
    refine not_congr ⟨fun hs' => ⟨hs'.1.2, hs'.2⟩, fun hs' => ?_⟩
    exact ⟨⟨⟨s, hs, rfl, hcanonical _ hs'.2⟩, hs'.1⟩, hs'.2⟩
  · refine ⟨h, (List.filter_eq_self.2 fun s hs => ?_).symm⟩
    have hnot : arena.sameQualified s.definition.lvalue node ≠ true := fun hsame => by
      rw [Arena.isQualified_of_same (Arena.sameQualified_symm hsame), hdoc] at hq
      exact hq rfl
    simp [Arena.supersedes, hnot]

/-- A stub without declaring documentation is redundant if there is a site of its qualified name. -/
theorem isRedundant_eq (h : Agrees arena g.index) (hname : arena.canonicalName? node = some name) :
    g.isRedundant arena node name =
      (!arena.declares node && g.index.sites.any fun s => arena.sameQualified s.definition.lvalue node) := by
  unfold isRedundant
  rw [Bool.and_assoc]
  congr 1
  rw [Bool.eq_iff_iff, Bool.and_eq_true, List.any_eq_true, List.any_eq_true]
  constructor
  · rintro ⟨-, d, hd, hsame⟩
    obtain ⟨s, hs, rfl, -⟩ := h.mem_definitions_iff.1 hd
    exact ⟨s, hs, hsame⟩
  · rintro ⟨s, hs, hsame⟩
    refine ⟨Arena.isQualified_of_same (Arena.sameQualified_symm hsame), s.definition, ?_, hsame⟩
    exact h.mem_definitions_iff.2 ⟨s, hs, rfl, (Arena.canonicalName?_eq_of_same hsame).trans hname⟩

end Gathering

end ScriptIndex
