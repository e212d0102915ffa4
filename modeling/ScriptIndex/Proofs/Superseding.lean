import Mathlib.Data.List.Perm.Subperm
import ScriptIndex.Proofs.Answers
import ScriptIndex.Proofs.StubSteps

/-! # What superseding takes away

In every state that a run of gathering comes to, with any extractor, a definition takes away just the stubs
of its qualified name and the sites of these. A snapshot of the stubs is gone through while the bucket
shrinks, each stub takes away its first occurrence and at most one site; that no site of theirs is left
follows from `Filed`, since by then the bucket holds none of them. -/

namespace ScriptIndex

namespace Index

/-! ### Lists without some of their elements -/

section
variable {α : Type}

theorem diff_filter_self [DecidableEq α] (p : α → Bool) :
    ∀ l : List α, l.diff (l.filter p) = l.filter (fun a => !p a)
  | [] => by simp
  | a :: l => by
    cases ha : p a with
    | true => simp [ha, diff_filter_self p l]
    | false =>
      have hnot : a ∉ l.filter p := fun hmem => by simp [ha] at hmem
      simp [ha, List.cons_diff_of_not_mem hnot, diff_filter_self p l]

theorem filter_eraseP {p q : α → Bool} (h : ∀ a, p a = true → q a = false) :
    ∀ l : List α, (l.eraseP p).filter q = l.filter q
  | [] => rfl
  | a :: l => by
    cases ha : p a with
    | true => simp [ha, h a ha]
    | false => simp [ha, List.filter_cons, filter_eraseP h l]

theorem eq_filter_of_sublist {p : α → Bool} : ∀ {l l' : List α}, l'.Sublist l → l.Nodup →
    (∀ a ∈ l, a ∈ l' ↔ p a = true) → l' = l.filter p
  | _, _, .slnil, _, _ => rfl
  | a :: l, l', .cons _ hsub, hnd, hmem => by
    obtain ⟨hnot, hnd⟩ := List.nodup_cons.1 hnd
    obtain ⟨ha, hl⟩ := List.forall_mem_cons.1 hmem
    rw [List.filter_cons_of_neg fun hp => hnot (hsub.subset (ha.2 hp))]
    exact eq_filter_of_sublist hsub hnd hl
  | a :: l, _ :: l', .cons_cons _ hsub, hnd, hmem => by
    obtain ⟨hnot, hnd⟩ := List.nodup_cons.1 hnd
    obtain ⟨ha, hl⟩ := List.forall_mem_cons.1 hmem
    rw [List.filter_cons_of_pos (ha.1 List.mem_cons_self)]
    refine congrArg _ (eq_filter_of_sublist hsub hnd fun b hb => ?_)
    rw [← hl b hb, List.mem_cons, or_iff_right]
    rintro rfl
    exact hnot hb

end

/-! ### Taking definitions away -/

variable {arena : Arena} {before middle after : Index} {name k : String} {d : Definition}
  {gone gone' : List Definition} {node : NodeId}

/-- What is left when some definitions are taken away from a name, each where it first occurs. -/
structure Taken (name : String) (gone : List Definition) (before after : Index) : Prop where
  definitions : ∀ k, after.definitions k =
    if name = k then (before.definitions k).diff gone else before.definitions k
  names : after.names.Sublist before.names
  sites : after.sites.Sublist before.sites
  kept : ∀ p : Site → Bool, (∀ s, s.definition ∈ gone → p s = false) →
    after.sites.filter p = before.sites.filter p

namespace Taken

theorem refl (name : String) (index : Index) : Taken name [] index index :=
  ⟨by simp, List.Sublist.refl _, List.Sublist.refl _, fun _ _ => rfl⟩

theorem trans (h : Taken name gone before middle) (h' : Taken name gone' middle after) :
    Taken name (gone ++ gone') before after := by
  refine ⟨fun k => ?_, h'.names.trans h.names, h'.sites.trans h.sites, fun p hp => ?_⟩
  · rw [h'.definitions, h.definitions]
    split_ifs
    · exact (List.diff_append _ _ _).symm
    · rfl
  · exact (h'.kept p fun s hs => hp s (List.mem_append_right _ hs)).trans
      (h.kept p fun s hs => hp s (List.mem_append_left _ hs))

end Taken

theorem filter_dropSite {p : Site → Bool} (h : ∀ s, s.definition = d → p s = false) (sites : List Site) :
    (dropSite d sites).filter p = sites.filter p := by
  unfold dropSite
  dsimp only
  split_ifs
  · exact filter_eraseP (fun s hs => h s (by simpa using (Bool.and_eq_true_iff.1 hs).2)) sites
  · exact filter_eraseP (fun s hs => h s (by simpa using hs)) sites

theorem Tidy.remove? (h : Tidy before.buckets) (hd : d ∈ before.definitions name) :
    ∃ after, before.remove? name d = some after ∧ Tidy after.buckets ∧ Taken name [d] before after := by
  refine ⟨_, if_pos (by simpa using hd), h.takeFrom, fun k => ?_, names_takeFrom, dropSite_sublist,
    fun p hp => filter_dropSite (fun s hs => hp s (by simp [hs])) _⟩
  rw [definitions_takeFrom h.names_nodup before.sites]
  simp

/-- What a definition at `node` does to an index when it takes the place of the stubs of its qualified name:
those go out of the bucket of `name` and their sites go, and all else is as before, in the same order. -/
structure Superseded (arena : Arena) (node : NodeId) (name : String) (before after : Index) : Prop where
  bucket : after.definitions name = (before.definitions name).filter fun d => !arena.supersedes node d
  others : ∀ k, k ≠ name → after.definitions k = before.definitions k
  names : after.names = before.names.filter fun k => k ≠ name ∨ after.definitions name ≠ []
  sites : after.sites = before.sites.filter fun s =>
    s.definition ∉ (before.definitions name).filter (arena.supersedes node)

/-- Once all stubs are taken that are to go, the index holds no site of theirs. -/
theorem Taken.superseded (hbefore : Filed arena before) (hafter : Filed arena after)
    (h : Taken name ((before.definitions name).filter (arena.supersedes node)) before after) :
    Superseded arena node name before after := by
  have hbucket : after.definitions name =
      (before.definitions name).filter (fun d => !arena.supersedes node d) := by
    rw [h.definitions, if_pos rfl, diff_filter_self]
  have hothers : ∀ k, k ≠ name → after.definitions k = before.definitions k := fun k hk => by
    rw [h.definitions, if_neg (Ne.symm hk)]
  refine ⟨hbucket, hothers, eq_filter_of_sublist h.names hbefore.tidy.names_nodup fun k hk => ?_, ?_⟩
  · rw [hafter.mem_names_iff, decide_eq_true_eq]
    by_cases hkn : k = name
    · simp [hkn]
    · simpa [hkn, hothers k hkn] using (hbefore.mem_names_iff k).1 hk
  · rw [← h.kept _ fun s hs => by simpa using hs]
    refine (List.filter_eq_self.2 fun s hs => ?_).symm
    rw [decide_eq_true_eq]
    intro hgone
    obtain ⟨hmem, hsuperseded⟩ := List.mem_filter.1 hgone
    have hleft := hafter.mem_definitions hs (hbefore.filed name _ hmem)
    rw [hbucket, List.mem_filter, hsuperseded] at hleft
    cases hleft.2

end Index

namespace Gathering
open Index

variable {arena : Arena} {extractor : Extractor} {externs source : NodeId} {region : Region}
  {arrival : Arrival} {g g' : Gathering} {node : NodeId} {name : String}

/-- Going through some stubs takes away those that are the same qualified name, if all occur as often in the
bucket. -/
theorem foldl_dropStub_taken : ∀ (stubs : List Definition) (g : Gathering), Tidy g.index.buckets →
    (stubs.filter fun d => arena.sameQualified d.lvalue node).Subperm (g.index.definitions name) →
    Taken name (stubs.filter fun d => arena.sameQualified d.lvalue node) g.index
      (stubs.foldl (dropStub arena node name) g).index
  | [], g, _, _ => Taken.refl name g.index
  | d :: stubs, g, ht, hsub => by
    cases hsame : arena.sameQualified d.lvalue node with
    | false =>
      rw [List.filter_cons_of_neg (by simp [hsame])] at hsub ⊢
      rw [List.foldl_cons, dropStub_eq_self hsame]
      exact foldl_dropStub_taken stubs g ht hsub
    | true =>
      rw [List.filter_cons_of_pos (by simpa using hsame)] at hsub ⊢
      obtain ⟨after, hr, ht', htaken⟩ := ht.remove? (hsub.subset List.mem_cons_self)
      rw [← index_dropStub hsame hr] at ht' htaken
      -- the others still occur as often, now that this one is gone
      have hsub' := hsub.erase d
      have hbucket := htaken.definitions name
      rw [if_pos rfl, List.diff_cons, List.diff_nil] at hbucket
      rw [List.erase_cons_head, ← hbucket] at hsub'
      exact htaken.trans (foldl_dropStub_taken stubs _ ht' hsub')

theorem dropSuperseded_superseded (h : Filed arena g.index) (hq : arena.isQualified node = true)
    (hdoc : arena.declares node = false) :
    Superseded arena node name g.index (g.dropSuperseded arena node name).index := by
  have hafter : Filed arena (g.dropSuperseded arena node name).index :=
    (Resolver.filed_kept arena).dropSuperseded h
  have htaken := @foldl_dropStub_taken arena node name
    ((g.index.definitions name).filter (·.isStub)) g h.tidy
    (List.filter_sublist.trans List.filter_sublist).subperm
  rw [dropSuperseded, if_pos (by simp [hq, hdoc])] at hafter ⊢
  refine Taken.superseded h hafter ?_
  have hstubs : ((g.index.definitions name).filter (·.isStub)).filter
      (fun d => arena.sameQualified d.lvalue node) = (g.index.definitions name).filter (arena.supersedes node) := by
    rw [List.filter_filter]
    exact List.filter_congr fun d _ => Bool.and_comm _ _
  rwa [hstubs] at htaken

/-! ### The states of a run -/

def beginRegion (g : Gathering) (region : Region) : Gathering := (g.log (.regionSpan region)).log .enter

/-- The states in the midst of a visit: those before the definition that was found is recorded, when some of
the stubs may be gone already, and the one after. -/
inductive Visiting (arena : Arena) (extractor : Extractor) (region : Region) (arrival : Arrival) (g : Gathering) :
    Gathering → Prop
  | dropping {d : Definition} {name : String} {gone rest : List Definition} (hregion : region = .externs)
      (hd : extractor arena arrival.node region = some d) (hname : arena.canonicalName? d.lvalue = some name)
      (hdrops : (arena.isQualified arrival.node && !arena.declares arrival.node) = true)
      (hstubs : (g.index.definitions name).filter (·.isStub) = gone ++ rest) :
      Visiting arena extractor region arrival g (gone.foldl (dropStub arena arrival.node name) g)
  | found {d : Definition} (hd : extractor arena arrival.node region = some d) :
      Visiting arena extractor region arrival g (g.recordFound arena region arrival d)

/-- The states between visits, with the region and the nodes that are still to be visited there. -/
inductive Running (arena : Arena) (extractor : Extractor) (externs source : NodeId) :
    Region → List Arrival → Gathering → Prop
  | externs {arrivals : List Arrival} (hwalk : arena.walk (arena.gatherPolicy .externs) externs = .ok arrivals) :
      Running arena extractor externs source .externs (arrivals.filter (·.entered))
        (((empty.log (.gatherSpan externs source)).log .enter).beginRegion .externs)
  | visit {region : Region} {arrival : Arrival} {rest : List Arrival} {g : Gathering}
      (h : Running arena extractor externs source region (arrival :: rest) g) :
      Running arena extractor externs source region rest
        (Gathering.visit arena extractor.stateless region g arrival ()).1
  | source {arrivals : List Arrival} {g : Gathering} (h : Running arena extractor externs source .externs [] g)
      (hwalk : arena.walk (arena.gatherPolicy .source) source = .ok arrivals) :
      Running arena extractor externs source .source (arrivals.filter (·.entered))
        ((g.log .exit).beginRegion .source)

/-- The states that a run of gathering comes to, the first and the last of them included. -/
inductive Reachable (arena : Arena) (extractor : Extractor) (externs source : NodeId) : Gathering → Prop
  | start : Reachable arena extractor externs source .empty
  | between {region : Region} {rest : List Arrival} {g : Gathering}
      (h : Running arena extractor externs source region rest g) : Reachable arena extractor externs source g
  | within {region : Region} {arrival : Arrival} {rest : List Arrival} {g g' : Gathering}
      (h : Running arena extractor externs source region (arrival :: rest) g)
      (hv : Visiting arena extractor region arrival g g') : Reachable arena extractor externs source g'
  | finished {g : Gathering} (h : Running arena extractor externs source .source [] g) :
      Reachable arena extractor externs source
        (((g.log .exit).log (.gathered g.index.buckets.length g.index.sites.length)).log .exit)

theorem Running.visitAll : ∀ (arrivals : List Arrival) (g : Gathering),
    Running arena extractor externs source region arrivals g →
      Running arena extractor externs source region []
        (arrivals.foldlM (Gathering.visit arena extractor.stateless region) g ()).1
  | [], _, h => h
  | _ :: arrivals, _, h => Running.visitAll arrivals _ h.visit

/-- A run ends in such a state. -/
theorem reachable_of_run (h : empty.run arena extractor.stateless externs source () = .ok (g, ())) :
    Reachable arena extractor externs source g := by
  cases he : arena.walk (arena.gatherPolicy .externs) externs with
  | error failure =>
    simp only [run, addRegion, he] at h
    cases h
  | ok first =>
    cases hs : arena.walk (arena.gatherPolicy .source) source with
    | error failure =>
      simp only [run, addRegion, he, hs] at h
      cases h
    | ok second =>
      have hfinished : Reachable arena extractor externs source _ :=
        .finished (.visitAll _ _ (.source (.visitAll _ _ (.externs he)) hs))
      simp only [run, addRegion, he, hs] at h
      cases h
      exact hfinished

theorem Visiting.filed (h : Filed arena g.index) (hv : Visiting arena extractor region arrival g g') :
    Filed arena g'.index := by
  cases hv with
  | dropping => exact (Resolver.filed_kept arena).foldl_dropStub _ _ h
  | found => exact (Resolver.filed_kept arena).recordFound trivial h

theorem Running.filed {rest : List Arrival} (h : Running arena extractor externs source region rest g) :
    Filed arena g.index := by
  induction h with
  | externs => exact .empty
  | visit _ ih => exact (Resolver.filed_kept arena).note _ trivial ih
  | source _ _ ih => exact ih

theorem Reachable.filed (h : Reachable arena extractor externs source g) : Filed arena g.index := by
  cases h with
  | start => exact .empty
  | between h => exact h.filed
  | within h hv => exact hv.filed h.filed
  | finished h => exact h.filed

/-- In every state of a run, a definition at a node that is no qualified name, or has declaring
documentation, takes nothing away; at any other node it takes away just the stubs of that qualified name. -/
theorem dropSuperseded_exact (h : Reachable arena extractor externs source g) (node : NodeId) (name : String) :
    (arena.isQualified node = false ∨ arena.declares node = true → g.dropSuperseded arena node name = g) ∧
    (arena.isQualified node = true → arena.declares node = false →
      Superseded arena node name g.index (g.dropSuperseded arena node name).index) := by
  refine ⟨fun hnone => if_neg ?_, dropSuperseded_superseded h.filed⟩
  rcases hnone with hq | hdoc
  · simp [hq]
  · simp [hdoc]

/-- Two equal stubs of `a.b` with one site go, and the stub of `c.b` in the same bucket stays. -/
theorem dropSuperseded_exact_repeated :
    let arena := Program.ofScripts
      [⟨.externs, ascii "/** @const */ a.b; c.b;", .standard⟩, ⟨.source, ascii "a.b;", .standard⟩]
    let stubs : Extractor := fun arena node region =>
      if (arena.parent? node).any arena.isExpressionStatement && region = .externs then some (.stub node) else none
    ∃ g, Reachable arena stubs Region.externs.root Region.source.root g ∧
      g.index.definitions "this.b" = [.stub 3, .stub 3, .stub 6] ∧ g.index.sites.map (·.node) = [3, 6] ∧
      arena.isQualified 9 = true ∧ arena.declares 9 = false ∧
      Superseded arena 9 "this.b" g.index (g.dropSuperseded arena 9 "this.b").index := by
  intro arena stubs
  have hshape : Program.Shape arena := Program.shape _
  obtain ⟨g, hrun, hindex⟩ := run_eq_ok hshape.linked stubs (hshape.root_lt .externs) (hshape.root_lt .source)
  have hreachable := reachable_of_run hrun
  have hq : arena.isQualified 9 = true := by decide +kernel
  have hdoc : arena.declares 9 = false := by decide +kernel
  refine ⟨g, hreachable, ?_, ?_, hq, hdoc, (dropSuperseded_exact hreachable 9 "this.b").2 hq hdoc⟩ <;>
    rw [hindex] <;> decide +kernel

end Gathering

end ScriptIndex
