import Mathlib.Data.Fin.VecNotation
import Mathlib.Data.List.FinRange
import ScriptIndex.Proofs.BucketHistory
import ScriptIndex.Proofs.SourceEntries

/-! # Insertions that change places

What an index says of a name is a matter of the insertions under that name, and what it says of a node is a
matter of the insertions at that node. Insertions that have neither in common may change places: where those
that `Meet` keep their order, the index holds the same, whatever the order of its names and of its nodes. -/

namespace ScriptIndex.Index

/-- Names and nodes are keys: a name has one bucket, and a node has one site. -/
structure Keyed (index : Index) : Prop where
  names_nodup : index.names.Nodup
  nodes_nodup : (index.sites.map (·.node)).Nodup

/-- The entries are under one name or at one node. -/
def Meet (e e' : String × Site) : Prop := e.1 = e'.1 ∨ e.2.node = e'.2.node

instance (e e' : String × Site) : Decidable (Meet e e') := inferInstanceAs (Decidable (_ ∨ _))

/-- The entries of the first list stand in the second list at other places, and those that meet stand there in
the order in which they stood. -/
def Rearranged (entries entries' : List (String × Site)) : Prop :=
  ∃ place : Fin entries.length ≃ Fin entries'.length,
    (∀ i, entries'.get (place i) = entries.get i) ∧
      ∀ i j, i < j → Meet (entries.get i) (entries.get j) → place i < place j

variable {index a b : Index} {entries entries' : List (String × Site)} {name : String} {node : NodeId} {site : Site}

/-! ### Entries that meet -/

theorem filter_eq_map_get {α : Type} (p : α → Bool) (l : List α) :
    l.filter p = ((List.finRange l.length).filter fun i => p (l.get i)).map l.get := by
  have hmap : (List.finRange l.length).map l.get = l := List.map_get_finRange l
  calc l.filter p = ((List.finRange l.length).map l.get).filter p := by rw [hmap]
    _ = ((List.finRange l.length).filter (p ∘ l.get)).map l.get := List.filter_map

/-- Entries of which any two meet come in the same order. -/
theorem Rearranged.filter_eq (h : Rearranged entries entries') {p : String × Site → Bool}
    (hmeet : ∀ e e', p e = true → p e' = true → Meet e e') : entries'.filter p = entries.filter p := by
  obtain ⟨place, hget, hordered⟩ := h
  -- the places of such entries in the second list, in the order of the first list
  let places := ((List.finRange entries.length).filter fun i => p (entries.get i)).map place
  let places' := (List.finRange entries'.length).filter fun i => p (entries'.get i)
  have hsorted : places.Pairwise (· < ·) := by
    refine List.pairwise_map.2 (((List.pairwise_lt_finRange _).filter _).imp_of_mem fun hi hj hlt => ?_)
    exact hordered _ _ hlt (hmeet _ _ (List.mem_filter.1 hi).2 (List.mem_filter.1 hj).2)
  have hsorted' : places'.Pairwise (· < ·) := (List.pairwise_lt_finRange _).filter _
  have hmem : ∀ k, k ∈ places' ↔ k ∈ places := by
    intro k
    simp only [places, places', List.mem_filter, List.mem_finRange, List.mem_map, true_and]
    constructor
    · intro hk
      exact ⟨place.symm k, by rw [← hget, place.apply_symm_apply]; exact hk, place.apply_symm_apply k⟩
    · rintro ⟨i, hi, rfl⟩
      rwa [hget]
  have hperm : places'.Perm places :=
    (List.perm_ext_iff_of_nodup (hsorted'.imp ne_of_lt) (hsorted.imp ne_of_lt)).2 hmem
  have hplaces : places' = places :=
    hperm.eq_of_pairwise (fun _ _ _ _ hlt hlt' => absurd hlt' hlt.asymm) hsorted' hsorted
  calc entries'.filter p = places'.map entries'.get := filter_eq_map_get p entries'
    _ = places.map entries'.get := by rw [hplaces]
    _ = ((List.finRange entries.length).filter fun i => p (entries.get i)).map entries.get := by
        rw [List.map_map]
        exact List.map_congr_left fun i _ => hget i
    _ = entries.filter p := (filter_eq_map_get p entries).symm

/-! ### What is found under a key -/

/-- A bucket is known by the name and the definitions under it. -/
theorem bucket?_eq (index : Index) (name : String) :
    index.bucket? name = if name ∈ index.names then some ⟨name, index.definitions name⟩ else none := by
  cases hb : index.bucket? name with
  | none =>
    have hnot : name ∉ index.names := by
      intro hmem
      obtain ⟨b, hmem', rfl⟩ := List.mem_map.1 hmem
      simpa using List.find?_eq_none.1 hb b hmem'
    rw [if_neg hnot]
  | some b =>
    have hname : b.name = name := by simpa using List.find?_some hb
    have hmem : name ∈ index.names := List.mem_map.2 ⟨b, List.mem_of_find?_eq_some hb, hname⟩
    have hdefs : index.definitions name = b.definitions := by rw [definitions, hb]
    rw [if_pos hmem, hdefs, ← hname]

theorem insertAll_append (e : String × Site) :
    insertAll (entries ++ [e]) index = (insertAll entries index).insert e.1 e.2 :=
  List.foldl_append

theorem mem_names_insertAll :
    name ∈ (insertAll entries index).names ↔ name ∈ index.names ∨ entries.filter (·.1 = name) ≠ [] := by
  rw [names_insertAll, List.mem_append, List.mem_eraseDups]
  by_cases hold : name ∈ index.names
  · exact iff_of_true (.inl hold) (.inl hold)
  · simp [hold]

/-- The last entry at a node is its site. -/
theorem site?_insertAll : (insertAll entries index).site? node =
    ((entries.filter (·.2.node = node)).getLast?.map Prod.snd).or (index.site? node) := by
  induction entries using List.reverseRecOn with
  | nil => rfl
  | append_singleton entries e ih =>
    rw [insertAll_append, site?_insert, ih, List.filter_append]
    by_cases hnode : e.2.node = node <;> simp [hnode]

/-! ### Indexes that find the same -/

theorem Keyed.insert (h : index.Keyed) : (index.insert name site).Keyed := by
  refine ⟨?_, nodup_putSite h.nodes_nodup⟩
  have hnames : (index.insert name site).names = if name ∈ index.names then index.names else index.names ++ [name] :=
    names_addTo
  rw [hnames]
  split_ifs with hmem
  · exact h.names_nodup
  · exact List.nodup_append.2 ⟨h.names_nodup, List.nodup_singleton _, fun k hk k' hk' heq =>
      hmem (List.mem_singleton.1 hk' ▸ heq ▸ hk)⟩

theorem Keyed.insertAll (h : index.Keyed) (entries : List (String × Site)) : (insertAll entries index).Keyed := by
  induction entries using List.reverseRecOn with
  | nil => exact h
  | append_singleton entries e ih =>
    rw [insertAll_append]
    exact ih.insert

/-- Names and nodes are keys of every index that calls make. -/
theorem keyed_ofCalls (calls : List Call) : (ofCalls calls).Keyed :=
  ⟨(Sound.ofCalls calls).tidy.names_nodup, (Sound.ofCalls calls).nodes_nodup⟩

namespace Keyed

theorem mem_buckets_iff (h : index.Keyed) {b : Bucket} : b ∈ index.buckets ↔ index.bucket? b.name = some b := by
  refine ⟨fun hb => ?_, List.mem_of_find?_eq_some⟩
  cases hfound : index.bucket? b.name with
  | none => simpa using List.find?_eq_none.1 hfound b hb
  | some b' =>
    have hname : b'.name = b.name := by simpa using List.find?_some hfound
    rw [List.inj_on_of_nodup_map h.names_nodup (List.mem_of_find?_eq_some hfound) hb hname]

theorem mem_sites_iff (h : index.Keyed) {s : Site} : s ∈ index.sites ↔ index.site? s.node = some s := by
  rw [site?_eq_some_iff h.nodes_nodup, and_iff_left rfl]

/-- Indexes in which the same is found under every key hold the same. -/
theorem equiv_of_finds (ha : a.Keyed) (hb : b.Keyed) (hbuckets : ∀ name, a.bucket? name = b.bucket? name)
    (hsites : ∀ node, a.site? node = b.site? node) : a.equiv b = true := by
  have hbucket : ∀ x, x ∈ a.buckets ↔ x ∈ b.buckets := fun x => by
    rw [ha.mem_buckets_iff, hb.mem_buckets_iff, hbuckets]
  have hsite : ∀ s, s ∈ a.sites ↔ s ∈ b.sites := fun s => by rw [ha.mem_sites_iff, hb.mem_sites_iff, hsites]
  have hperm : a.buckets.Perm b.buckets :=
    (List.perm_ext_iff_of_nodup (.of_map _ ha.names_nodup) (.of_map _ hb.names_nodup)).2 hbucket
  have hperm' : a.sites.Perm b.sites :=
    (List.perm_ext_iff_of_nodup (.of_map _ ha.nodes_nodup) (.of_map _ hb.nodes_nodup)).2 hsite
  simp only [equiv, Bool.and_eq_true, beq_iff_eq, List.all_eq_true]
  exact ⟨⟨⟨hperm.length_eq, hperm'.length_eq⟩, fun x hx => hb.mem_buckets_iff.1 ((hbucket x).1 hx)⟩,
    fun s hs => hb.mem_sites_iff.1 ((hsite s).1 hs)⟩

end Keyed

/-- Whatever an index holds: insertions that are made in another order, where those under one name keep their
order and those at one node keep theirs, lead to an index that holds the same. -/
theorem equiv_of_rearranged (h : index.Keyed) (hr : Rearranged entries entries') :
    (insertAll entries' index).equiv (insertAll entries index) = true := by
  have hname : ∀ name, entries'.filter (·.1 = name) = entries.filter (·.1 = name) := fun name =>
    hr.filter_eq fun e e' he he' => .inl ((of_decide_eq_true he).trans (of_decide_eq_true he').symm)
  have hnode : ∀ node, entries'.filter (·.2.node = node) = entries.filter (·.2.node = node) := fun node =>
    hr.filter_eq fun e e' he he' => .inr ((of_decide_eq_true he).trans (of_decide_eq_true he').symm)
  refine (h.insertAll entries').equiv_of_finds (h.insertAll entries) (fun name => ?_) fun node => ?_
  · rw [bucket?_eq, bucket?_eq, definitions_insertAll, definitions_insertAll, hname]
    simp only [mem_names_insertAll, hname]
  · rw [site?_insertAll, site?_insertAll, hnode]

/-- A free entry comes to the front, and two entries that each meet the one before them change places. -/
theorem equiv_of_rearranged_met :
    let index := ofCalls [.insert "a" ⟨1, .stub 1, .outermost, .externs⟩]
    let site (node : NodeId) : Site := ⟨node, .unknown node .source, .outermost, .source⟩
    let entries := [("a", site 2), ("b", site 2), ("c", site 3), ("a", site 1)]
    let entries' := [("c", site 3), ("a", site 2), ("a", site 1), ("b", site 2)]
    index.Keyed ∧ Rearranged entries entries' ∧
      (insertAll entries' index).equiv (insertAll entries index) = true := by
  intro index site entries entries'
  have hkeyed : index.Keyed := keyed_ofCalls _
  let place : Fin 4 ≃ Fin 4 :=
    ⟨![1, 3, 0, 2], ![2, 0, 3, 1], (by decide : ∀ i, _ = i), (by decide : ∀ i, _ = i)⟩
  have hrearranged : Rearranged entries entries' := ⟨place, by decide, by decide⟩
  exact ⟨hkeyed, hrearranged, equiv_of_rearranged hkeyed hrearranged⟩

end ScriptIndex.Index
