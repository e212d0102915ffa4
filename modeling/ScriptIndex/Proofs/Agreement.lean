import ScriptIndex.Proofs.IndexInv

/-! # Buckets and sites that agree

`Agrees`: the bucket of a name holds the definitions of the sites whose nodes have that name, in order,
and each site stands at the l-value of its definition. Then the index is known from its sites. -/

namespace ScriptIndex.Index

variable {arena : Arena} {index : Index} {site : Site} {name : String} {d : Definition}

theorem eraseP_eq_filter {α : Type} {p : α → Bool} {a : α} : ∀ {l : List α}, l.Nodup →
    (∀ b ∈ l, p b = true ↔ b = a) → l.eraseP p = l.filter (fun b => !p b)
  | [], _, _ => rfl
  | b :: l, hnd, hp => by
    obtain ⟨hnot, hnd⟩ := List.nodup_cons.1 hnd
    obtain ⟨hb, hl⟩ := List.forall_mem_cons.1 hp
    cases hpb : p b with
    | true =>
      have hrest : l.filter (fun b => !p b) = l := by
        refine List.filter_eq_self.2 fun c hc => ?_
        have hne : p c ≠ true := fun hpc => hnot ((hb.1 hpb).trans ((hl c hc).1 hpc).symm ▸ hc)
        simpa using hne
      simp [hpb, hrest]
    | false => simp [hpb, eraseP_eq_filter hnd hl]

structure Agrees (arena : Arena) (index : Index) : Prop where
  tidy : Tidy index.buckets
  own : ∀ s ∈ index.sites, s.definition.lvalue = s.node
  named : ∀ s ∈ index.sites, ∃ k, arena.canonicalName? s.node = some k
  nodes_nodup : (index.sites.map (·.node)).Nodup
  definitions : ∀ k, index.definitions k =
    (index.sites.filter fun s => arena.canonicalName? s.node = some k).map (·.definition)

namespace Agrees

theorem empty : Agrees arena Index.empty :=
  ⟨⟨List.nodup_nil, by simp [Index.empty]⟩, by simp [Index.empty], by simp [Index.empty], List.nodup_nil,
    fun _ => rfl⟩

theorem mem_definitions_iff (h : Agrees arena index) : d ∈ index.definitions name ↔
    ∃ s ∈ index.sites, s.definition = d ∧ arena.canonicalName? d.lvalue = some name := by
  rw [h.definitions]
  constructor
  · intro hd
    obtain ⟨s, hs, rfl⟩ := List.mem_map.1 hd
    obtain ⟨hs, hk⟩ := List.mem_filter.1 hs
    exact ⟨s, hs, rfl, by rw [h.own s hs]; simpa using hk⟩
  · rintro ⟨s, hs, rfl, hk⟩
    rw [h.own s hs] at hk
    exact List.mem_map.2 ⟨s, List.mem_filter.2 ⟨hs, by simpa using hk⟩, rfl⟩

theorem mem_names_iff (h : Agrees arena index) :
    name ∈ index.names ↔ ∃ s ∈ index.sites, arena.canonicalName? s.node = some name := by
  have hnames : name ∈ index.names ↔ index.definitions name ≠ [] := Index.mem_names_iff h.tidy
  rw [hnames, h.definitions, Ne, List.map_eq_nil_iff, List.filter_eq_nil_iff]
  simp

/-- Sites of one definition are one site. -/
theorem site_eq (h : Agrees arena index) {s s' : Site} (hs : s ∈ index.sites) (hs' : s' ∈ index.sites)
    (heq : s.definition.lvalue = s'.definition.lvalue) : s = s' := by
  rw [h.own s hs, h.own s' hs'] at heq
  exact List.inj_on_of_nodup_map h.nodes_nodup hs hs' heq

theorem insert (h : Agrees arena index) (hown : site.definition.lvalue = site.node)
    (hname : arena.canonicalName? site.node = some name) (hnew : site.node ∉ index.sites.map (·.node)) :
    Agrees arena (index.insert name site) ∧ (index.insert name site).sites = index.sites ++ [site] := by
  have hsites : (index.insert name site).sites = index.sites ++ [site] := putSite_eq_append hnew
  refine ⟨⟨h.tidy.addTo, ?_, ?_, ?_, fun k => ?_⟩, hsites⟩
  · rw [hsites]
    exact List.forall_mem_append.2 ⟨h.own, by simpa using hown⟩
  · rw [hsites]
    exact List.forall_mem_append.2 ⟨h.named, by simp [hname]⟩
  · rw [hsites, List.map_append]
    refine List.nodup_append.2 ⟨h.nodes_nodup, List.nodup_singleton _, fun a ha b hb heq => hnew ?_⟩
    rw [heq, List.mem_singleton.1 hb] at ha
    exact ha
  · rw [definitions_insert, hsites, List.filter_append, List.map_append, h.definitions]
    by_cases hk : name = k
    · simp [hk ▸ hname, hk]
    · simp [hname, hk]

theorem definitions_nodup (h : Agrees arena index) (k : String) : (index.definitions k).Nodup := by
  have hown : (index.sites.map (·.definition)).map Definition.lvalue = index.sites.map (·.node) := by
    rw [List.map_map]
    exact List.map_congr_left h.own
  have hnd : (index.sites.map (·.definition)).Nodup := List.Nodup.of_map Definition.lvalue (hown ▸ h.nodes_nodup)
  rw [h.definitions]
  exact (List.filter_sublist.map _).nodup hnd

theorem dropSite_eq_filter (h : Agrees arena index) {s : Site} (hs : s ∈ index.sites) :
    dropSite s.definition index.sites = index.sites.filter (fun s' => s'.definition ≠ s.definition) := by
  have hone : ∀ s' ∈ index.sites, s'.definition = s.definition ↔ s' = s := fun s' hs' =>
    ⟨fun heq => h.site_eq hs' hs (by rw [heq]), fun heq => by rw [heq]⟩
  have hown : ∀ s' ∈ index.sites, (s'.node = s.definition.lvalue && s'.definition = s.definition) = true ↔
      s' = s := by
    intro s' hs'
    rw [Bool.and_eq_true, decide_eq_true_eq, decide_eq_true_eq, hone s' hs', and_iff_right_of_imp]
    rintro rfl
    exact (h.own s' hs').symm
  have hany : (index.sites.any fun s' => s'.node = s.definition.lvalue && s'.definition = s.definition) = true :=
    List.any_eq_true.2 ⟨s, hs, (hown s hs).2 rfl⟩
  unfold dropSite
  dsimp only
  rw [if_pos hany, eraseP_eq_filter (List.Nodup.of_map _ h.nodes_nodup) hown]
  refine List.filter_congr fun s' hs' => ?_
  rw [Bool.eq_iff_iff, Bool.not_eq_true', ← Bool.not_eq_true, hown s' hs', decide_eq_true_eq, Ne, hone s' hs']

theorem definitions_takeFrom_eq_filter (h : Agrees arena index) (sites : List Site)
    (hname : arena.canonicalName? d.lvalue = some name) (k : String) :
    Index.definitions ⟨takeFrom name d index.buckets, sites⟩ k = (index.definitions k).filter (· ≠ d) := by
  rw [definitions_takeFrom h.tidy.names_nodup index.sites]
  split_ifs with hk
  · rw [(h.definitions_nodup k).erase_eq_filter]
    exact List.filter_congr fun e _ => by rw [Bool.eq_iff_iff]; simp
  · refine (List.filter_eq_self.2 fun e he => ?_).symm
    rw [decide_eq_true_eq]
    rintro rfl
    obtain ⟨-, -, -, hk'⟩ := h.mem_definitions_iff.1 he
    exact hk (Option.some.inj (hname.symm.trans hk'))

/-- What is taken away goes with its site, and nothing else goes. -/
theorem remove? (h : Agrees arena index) (hd : d ∈ index.definitions name) :
    ∃ after, index.remove? name d = some after ∧ Agrees arena after ∧
      after.sites = index.sites.filter (fun s => s.definition ≠ d) := by
  obtain ⟨s, hs, rfl, hk⟩ := h.mem_definitions_iff.1 hd
  have hdrop := h.dropSite_eq_filter hs
  have hsub : (dropSite s.definition index.sites).Sublist index.sites := dropSite_sublist
  refine ⟨⟨takeFrom name s.definition index.buckets, dropSite s.definition index.sites⟩, ?_,
    ⟨h.tidy.takeFrom, fun s' hs' => h.own s' (hsub.subset hs'), fun s' hs' => h.named s' (hsub.subset hs'),
      (hsub.map _).nodup h.nodes_nodup, fun k => ?_⟩, hdrop⟩
  · rw [Index.remove?, if_pos (by simpa using hd)]
  · rw [h.definitions_takeFrom_eq_filter _ hk, hdrop, h.definitions, List.filter_map, List.filter_filter,
      List.filter_filter]
    congr 1
    exact List.filter_congr fun s' _ => by simp [Bool.and_comm]

end Agrees

end ScriptIndex.Index
