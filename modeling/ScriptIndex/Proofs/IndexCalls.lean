import Mathlib.Algebra.GroupWithZero.Nat
import ScriptIndex.Proofs.IndexInv

/-! # Indexes under any calls

An index may be used by anyone: the same node may be recorded twice, under two names, and a definition
may be taken from a name that its l-value does not have. Whatever is called, the index stays `Tidy`, has
one site for each node, and no definition has more sites than it has occurrences in the buckets. The two
numbers drift apart only where a recorded node had a site already: the new site takes the place of the
old one, whose definition stays in its bucket. -/

namespace ScriptIndex.Index

/-- A change that may be asked of an index. -/
inductive Call
  | insert (name : String) (site : Site)
  | remove (name : String) (d : Definition)
deriving Repr, DecidableEq

/-- Does what is asked. To take away what is not there changes nothing. -/
def call (index : Index) : Call → Index
  | .insert name site => index.insert name site
  | .remove name d => (index.remove? name d).getD index

/-- The index that calls make from nothing. -/
def ofCalls (calls : List Call) : Index := calls.foldl call empty

/-- Whether the call, if it records a node, records one that has no site. -/
def Call.IsFresh (index : Index) : Call → Prop
  | .insert _ site => index.site? site.node = none
  | .remove _ _ => True

/-- Whether each call is fresh where it is made. -/
def AllFresh : Index → List Call → Prop
  | _, [] => True
  | index, c :: rest => c.IsFresh index ∧ AllFresh (index.call c) rest

/-- How often a definition occurs in the buckets, under whatever names. -/
def occurrences (d : Definition) (buckets : List Bucket) : Nat :=
  (buckets.map fun b => b.definitions.count d).sum

/-- How many sites record a definition. -/
def records (d : Definition) (sites : List Site) : Nat :=
  sites.countP (·.definition = d)

variable {index : Index} {buckets : List Bucket} {sites : List Site} {name : String} {d e : Definition}
  {site : Site} {c : Call}

/-! ### One call counted -/

theorem occurrences_addTo :
    occurrences e (addTo name d buckets) = occurrences e buckets + if d = e then 1 else 0 := by
  induction buckets with
  | nil => simp [addTo, occurrences, List.count_singleton]
  | cons b rest ih =>
    rw [addTo]
    split_ifs with hb hde <;> simp_all [occurrences] <;> omega

/-- One occurrence is taken, of the definition that is asked for. -/
theorem occurrences_takeFrom (h : d ∈ definitions ⟨buckets, sites⟩ name) :
    occurrences e (takeFrom name d buckets) + (if d = e then 1 else 0) = occurrences e buckets := by
  induction buckets with
  | nil => cases h
  | cons b rest ih =>
    rw [definitions_cons] at h
    rw [takeFrom]
    split_ifs at h with hb
    · have hcount : (b.definitions.erase d).count e + (if d = e then 1 else 0) = b.definitions.count e := by
        split_ifs with hde
        · rw [← hde, List.count_erase_self]
          have := List.count_pos_iff.2 h
          omega
        · rw [List.count_erase_of_ne (Ne.symm hde), Nat.add_zero]
      rw [if_pos hb]
      split
      · next hnil =>
        rw [hnil] at hcount
        simp only [occurrences, List.map_cons, List.sum_cons, ← hcount, List.count_nil]
        omega
      · simp only [occurrences, List.map_cons, List.sum_cons, ← hcount]
        omega
    · rw [if_neg hb]
      have hrest := ih h
      simp only [occurrences, List.map_cons, List.sum_cons] at hrest ⊢
      omega

theorem nodes_putSite : (putSite site sites).map (·.node) =
    if site.node ∈ sites.map (·.node) then sites.map (·.node) else sites.map (·.node) ++ [site.node] := by
  split_ifs with hmem
  · induction sites with
    | nil => cases hmem
    | cons s rest ih =>
      rw [putSite]
      split_ifs with hs
      · simp [hs]
      · have hrest := (List.mem_cons.1 hmem).resolve_left (Ne.symm hs)
        rw [List.map_cons, ih hrest, List.map_cons]
  · rw [putSite_eq_append hmem, List.map_append]
    rfl

theorem nodup_putSite (h : (sites.map (·.node)).Nodup) : ((putSite site sites).map (·.node)).Nodup := by
  rw [nodes_putSite]
  split_ifs with hmem
  · exact h
  · refine List.nodup_append.2 ⟨h, List.nodup_singleton _, fun a ha b hb => ?_⟩
    rintro rfl
    exact hmem (List.mem_singleton.1 hb ▸ ha)

theorem records_putSite_le :
    records e (putSite site sites) ≤ records e sites + if site.definition = e then 1 else 0 := by
  simpa [records] using countP_putSite sites site (·.definition = e)

theorem records_putSite_of_fresh (h : site.node ∉ sites.map (·.node)) :
    records e (putSite site sites) = records e sites + if site.definition = e then 1 else 0 := by
  rw [putSite_eq_append h]
  simp [records, List.countP_cons]

/-- The sites of another definition stay, wherever the dropped site stands. -/
theorem records_dropSite_of_ne (h : d ≠ e) : records e (dropSite d sites) = records e sites := by
  have herase : ∀ p : Site → Bool, (∀ s, p s = true → s.definition = d) →
      records e (sites.eraseP p) = records e sites := by
    intro p hp
    by_cases hany : ∃ s ∈ sites, p s = true
    · obtain ⟨s, hs, hps⟩ := hany
      obtain ⟨b, l₁, l₂, -, hb, rfl, heq⟩ := List.exists_of_eraseP hs hps
      have hbe : ¬ b.definition = e := fun hbe => h ((hp b hb).symm.trans hbe)
      simp [heq, records, hbe]
    · rw [List.eraseP_of_forall_not fun s hs hps => hany ⟨s, hs, hps⟩]
  unfold dropSite
  dsimp only
  split_ifs
  · exact herase _ fun s hs => by simp_all
  · exact herase _ fun s hs => by simpa using hs

theorem records_dropSite_le :
    records e (dropSite d sites) ≤ records e sites - if d = e then 1 else 0 := by
  split_ifs with hde
  · exact hde ▸ countP_dropSite_le
  · exact Nat.le_of_eq (records_dropSite_of_ne hde)

/-- Where a definition has a site, one of its sites goes. -/
theorem records_dropSite_of_pos (h : 0 < records d sites) :
    records e (dropSite d sites) + (if d = e then 1 else 0) = records e sites := by
  split_ifs with hde
  · subst hde
    obtain ⟨s, hs, hd⟩ := List.countP_pos_iff.1 h
    unfold dropSite
    dsimp only
    split_ifs with hown
    · exact countP_eraseP (by simp) (by simpa using hown)
    · exact countP_eraseP (by simp) ⟨s, hs, hd⟩
  · exact records_dropSite_of_ne hde

/-! ### What every call keeps -/

/-- Each node has one site, each name one bucket with something in it, and each site of a definition can
be laid to an occurrence of its own. -/
structure Sound (index : Index) : Prop where
  tidy : Tidy index.buckets
  nodes_nodup : (index.sites.map (·.node)).Nodup
  records_le : ∀ d, records d index.sites ≤ occurrences d index.buckets

/-- Each occurrence of a definition has its site as well. -/
def Exact (index : Index) : Prop :=
  ∀ d, records d index.sites = occurrences d index.buckets

theorem not_mem_nodes_of_site?_eq_none {node : NodeId} (h : index.site? node = none) :
    node ∉ index.sites.map (·.node) := by
  intro hmem
  obtain ⟨s, hs, hnode⟩ := List.mem_map.1 hmem
  simpa [hnode] using List.find?_eq_none.1 h s hs

theorem Sound.empty : Sound Index.empty :=
  ⟨⟨List.nodup_nil, by simp [Index.empty]⟩, List.nodup_nil, fun _ => Nat.le_refl 0⟩

theorem Exact.empty : Exact Index.empty := fun _ => rfl

theorem Sound.insert (h : Sound index) : Sound (index.insert name site) := by
  refine ⟨h.tidy.addTo, nodup_putSite h.nodes_nodup, fun d => ?_⟩
  calc records d (putSite site index.sites)
      ≤ records d index.sites + (if site.definition = d then 1 else 0) := records_putSite_le
    _ ≤ occurrences d index.buckets + (if site.definition = d then 1 else 0) :=
        Nat.add_le_add_right (h.records_le d) _
    _ = occurrences d (addTo name site.definition index.buckets) := occurrences_addTo.symm

theorem Exact.insert (h : Exact index) (hnew : index.site? site.node = none) :
    Exact (index.insert name site) := fun d =>
  calc records d (putSite site index.sites)
      = records d index.sites + (if site.definition = d then 1 else 0) :=
        records_putSite_of_fresh (not_mem_nodes_of_site?_eq_none hnew)
    _ = occurrences d index.buckets + (if site.definition = d then 1 else 0) := by rw [h d]
    _ = occurrences d (addTo name site.definition index.buckets) := occurrences_addTo.symm

theorem Sound.remove? (h : Sound index) {after : Index} (hr : index.remove? name d = some after) :
    Sound after := by
  obtain ⟨hd, rfl⟩ := remove?_eq_some hr
  refine ⟨h.tidy.takeFrom, (dropSite_sublist.map _).nodup h.nodes_nodup, fun e => ?_⟩
  have htake := occurrences_takeFrom (e := e) hd
  have hdrop : records e (dropSite d index.sites) ≤ records e index.sites - if d = e then 1 else 0 :=
    records_dropSite_le
  have hle := h.records_le e
  dsimp only
  omega

theorem Exact.remove? (h : Exact index) {after : Index} (hr : index.remove? name d = some after) :
    Exact after := by
  obtain ⟨hd, rfl⟩ := remove?_eq_some hr
  have hpos : 0 < records d index.sites := by
    have htake := occurrences_takeFrom (e := d) hd
    rw [if_pos rfl] at htake
    have := h d
    omega
  intro e
  have htake := occurrences_takeFrom (e := e) hd
  have hdrop := records_dropSite_of_pos (e := e) hpos
  have heq := h e
  dsimp only
  omega

theorem Sound.call (h : Sound index) : Sound (index.call c) := by
  cases c with
  | insert name site => exact h.insert
  | remove name d =>
    rw [Index.call]
    cases hr : index.remove? name d with
    | none => exact h
    | some after => exact h.remove? hr

theorem Exact.call (h : Exact index) (hc : c.IsFresh index) : Exact (index.call c) := by
  cases c with
  | insert name site => exact h.insert hc
  | remove name d =>
    rw [Index.call]
    cases hr : index.remove? name d with
    | none => exact h
    | some after => exact h.remove? hr

theorem Sound.foldl_call (h : Sound index) (calls : List Call) : Sound (calls.foldl Index.call index) := by
  induction calls generalizing index with
  | nil => exact h
  | cons c rest ih => exact ih h.call

theorem Exact.foldl_call (h : Exact index) {calls : List Call} (hc : AllFresh index calls) :
    Exact (calls.foldl Index.call index) := by
  induction calls generalizing index with
  | nil => exact h
  | cons c rest ih => exact ih (h.call hc.1) hc.2

/-- Whatever is recorded and taken away, in whatever order and under whatever names: each node has at most
one site and is found by it, each listed name is listed once and has a definition, and a definition has no
more sites than occurrences. It has as many if no node was recorded that had a site at that moment. -/
theorem records_ofCalls (calls : List Call) :
    ((ofCalls calls).sites.map (·.node)).Nodup ∧
      (∀ node site, (ofCalls calls).site? node = some site ↔ site ∈ (ofCalls calls).sites ∧ site.node = node) ∧
      (ofCalls calls).names.Nodup ∧
      (∀ name ∈ (ofCalls calls).names, (ofCalls calls).definitions name ≠ []) ∧
      (∀ d, records d (ofCalls calls).sites ≤ occurrences d (ofCalls calls).buckets) ∧
      (AllFresh empty calls →
        ∀ d, records d (ofCalls calls).sites = occurrences d (ofCalls calls).buckets) := by
  have hsound : Sound (ofCalls calls) := Sound.empty.foldl_call calls
  exact ⟨hsound.nodes_nodup, fun _ _ => site?_eq_some_iff hsound.nodes_nodup, hsound.tidy.names_nodup,
    fun _ hname => (mem_names_iff hsound.tidy).1 hname, hsound.records_le,
    fun hfresh => Exact.empty.foldl_call hfresh⟩

/-- One definition at two nodes under two names, taken from one of them. -/
theorem records_ofCalls_twice :
    let d := Definition.unknown 4 .externs
    let calls := [.insert "a" ⟨4, d, .outermost, .externs⟩, .insert "b" ⟨7, d, .outermost, .externs⟩, .remove "b" d]
    AllFresh empty calls ∧ records d (ofCalls calls).sites = occurrences d (ofCalls calls).buckets := by
  intro d calls
  have hfresh : AllFresh empty calls := ⟨rfl, rfl, trivial, trivial⟩
  exact ⟨hfresh, (records_ofCalls calls).2.2.2.2.2 hfresh d⟩

/- The second site of a node takes the place of the first, whose definition stays in its bucket. -/
example :
    let d := Definition.stub 4
    let index := ofCalls [.insert "a" ⟨4, d, .outermost, .externs⟩,
      .insert "b" ⟨4, .unknown 4 .source, .outermost, .source⟩]
    records d index.sites = 0 ∧ occurrences d index.buckets = 1 := by decide

end ScriptIndex.Index
