import Mathlib.Tactic.SplitIfs
import Mathlib.Data.List.Nodup
import ScriptIndex.Arena.CanonicalName
import ScriptIndex.Index.Basic

/-! # What an index keeps

`Tidy`: each name has one bucket, which holds something. `Filed`: definitions are in the buckets of their
names, and there are no more sites of a definition than the definition has occurrences in its bucket.
Both are kept when sites are recorded and when definitions are taken away. -/

namespace ScriptIndex.Index

variable {index : Index} {buckets : List Bucket} {sites : List Site} {name k : String} {d : Definition}
  {site : Site}

/-! ### Buckets -/

/-- Each name has one bucket, and no bucket is empty. -/
structure Tidy (buckets : List Bucket) : Prop where
  names_nodup : (buckets.map (·.name)).Nodup
  nonempty : ∀ b ∈ buckets, b.definitions ≠ []

theorem definitions_cons (b : Bucket) :
    definitions ⟨b :: buckets, sites⟩ k = if b.name = k then b.definitions else definitions ⟨buckets, sites⟩ k := by
  by_cases h : b.name = k <;> simp [definitions, bucket?, h]

theorem definitions_eq_nil (h : k ∉ buckets.map (·.name)) : definitions ⟨buckets, sites⟩ k = [] := by
  induction buckets with
  | nil => rfl
  | cons b rest ih =>
    obtain ⟨hne, hrest⟩ := List.ne_and_not_mem_of_not_mem_cons h
    rw [definitions_cons, if_neg (Ne.symm hne)]
    exact ih hrest

theorem mem_names_iff (h : Tidy buckets) :
    k ∈ buckets.map (·.name) ↔ definitions ⟨buckets, sites⟩ k ≠ [] := by
  constructor
  · obtain ⟨hnd, hne⟩ := h
    intro hk
    induction buckets with
    | nil => cases hk
    | cons b rest ih =>
      rw [definitions_cons]
      split_ifs with hb
      · exact hne b List.mem_cons_self
      · have hk := (List.mem_cons.1 hk).resolve_left (Ne.symm hb)
        exact ih (List.nodup_cons.1 hnd).2 (fun b hb => hne b (List.mem_cons_of_mem _ hb)) hk
  · exact fun hk => by_contra fun hnot => hk (definitions_eq_nil hnot)

theorem names_addTo : (addTo name d buckets).map (·.name) =
    if name ∈ buckets.map (·.name) then buckets.map (·.name) else buckets.map (·.name) ++ [name] := by
  induction buckets with
  | nil => rfl
  | cons b rest ih =>
    rw [addTo]
    by_cases hb : b.name = name
    · simp [hb]
    · rw [if_neg hb, List.map_cons, ih, List.map_cons]
      by_cases hrest : name ∈ rest.map (·.name)
      · rw [if_pos hrest, if_pos (List.mem_cons_of_mem _ hrest)]
      · rw [if_neg hrest, if_neg (List.not_mem_cons_of_ne_of_not_mem (Ne.symm hb) hrest)]
        rfl

theorem Tidy.addTo (h : Tidy buckets) : Tidy (Index.addTo name d buckets) := by
  refine ⟨?_, ?_⟩
  · rw [names_addTo]
    split_ifs with hmem
    · exact h.names_nodup
    · refine List.nodup_append.2 ⟨h.names_nodup, List.nodup_singleton _, fun a ha b hb => ?_⟩
      rintro rfl
      exact hmem (List.mem_singleton.1 hb ▸ ha)
  · have hne := h.nonempty
    clear h
    induction buckets with
    | nil => simp [Index.addTo]
    | cons b rest ih =>
      obtain ⟨hb, hrest⟩ := List.forall_mem_cons.1 hne
      rw [Index.addTo]
      split_ifs
      · exact List.forall_mem_cons.2 ⟨by simp, hrest⟩
      · exact List.forall_mem_cons.2 ⟨hb, ih hrest⟩

theorem names_takeFrom : ((takeFrom name d buckets).map (·.name)).Sublist (buckets.map (·.name)) := by
  induction buckets with
  | nil => exact List.Sublist.refl _
  | cons b rest ih =>
    rw [takeFrom]
    split_ifs with hb
    · split
      · exact List.sublist_cons_self _ _
      · rw [List.map_cons, List.map_cons, hb]
    · exact ih.cons_cons _

theorem Tidy.takeFrom (h : Tidy buckets) : Tidy (Index.takeFrom name d buckets) := by
  refine ⟨names_takeFrom.nodup h.names_nodup, ?_⟩
  have hne := h.nonempty
  clear h
  induction buckets with
  | nil => simp [Index.takeFrom]
  | cons b rest ih =>
    obtain ⟨hb, hrest⟩ := List.forall_mem_cons.1 hne
    rw [Index.takeFrom]
    split_ifs
    · split
      · exact hrest
      · next hd => exact List.forall_mem_cons.2 ⟨hd, hrest⟩
    · exact List.forall_mem_cons.2 ⟨hb, ih hrest⟩

theorem definitions_takeFrom (h : (buckets.map (·.name)).Nodup) (sites' : List Site) :
    definitions ⟨takeFrom name d buckets, sites⟩ k =
      if name = k then (definitions ⟨buckets, sites'⟩ k).erase d else definitions ⟨buckets, sites'⟩ k := by
  induction buckets with
  | nil => simp [takeFrom, definitions, bucket?]
  | cons b rest ih =>
    obtain ⟨hnot, hrest⟩ := List.nodup_cons.1 h
    rw [takeFrom, definitions_cons]
    by_cases hb : b.name = name
    · rw [if_pos hb]
      by_cases hk : name = k
      · rw [if_pos hk, if_pos (hb.trans hk)]
        cases he : b.definitions.erase d with
        | nil => exact definitions_eq_nil (hk ▸ hb ▸ hnot)
        | cons d' ds => rw [definitions_cons, if_pos hk]
      · have hbk : b.name ≠ k := fun heq => hk (hb.symm.trans heq)
        rw [if_neg hk, if_neg hbk]
        cases he : b.definitions.erase d with
        | nil => rfl
        | cons d' ds => rw [definitions_cons, if_neg hk]; rfl
    · rw [if_neg hb, definitions_cons, ih hrest]
      by_cases hk : name = k
      · simp [if_pos hk, hk ▸ hb]
      · simp [if_neg hk]

/-! ### Sites -/

theorem site?_eq_some_iff (h : (index.sites.map (·.node)).Nodup) {node : NodeId} :
    index.site? node = some site ↔ site ∈ index.sites ∧ site.node = node := by
  constructor
  · exact fun hs => ⟨List.mem_of_find?_eq_some hs, by simpa using List.find?_some hs⟩
  · rintro ⟨hs, rfl⟩
    cases hfound : index.site? site.node with
    | none => exact absurd hs fun hs => by simpa using List.find?_eq_none.1 hfound site hs
    | some s =>
      have hnode : s.node = site.node := by simpa using List.find?_some hfound
      rw [List.inj_on_of_nodup_map h (List.mem_of_find?_eq_some hfound) hs hnode]

theorem mem_putSite {s : Site} (h : s ∈ putSite site sites) : s = site ∨ s ∈ sites := by
  induction sites with
  | nil => exact .inl (List.mem_singleton.1 h)
  | cons s' rest ih =>
    rw [putSite] at h
    split_ifs at h
    · rcases List.mem_cons.1 h with h | h
      · exact .inl h
      · exact .inr (List.mem_cons_of_mem _ h)
    · rcases List.mem_cons.1 h with rfl | h
      · exact .inr List.mem_cons_self
      · exact (ih h).imp_right (List.mem_cons_of_mem _)

theorem putSite_eq_append (h : site.node ∉ sites.map (·.node)) : putSite site sites = sites ++ [site] := by
  induction sites with
  | nil => rfl
  | cons s rest ih =>
    obtain ⟨hne, hrest⟩ := List.ne_and_not_mem_of_not_mem_cons h
    rw [putSite, if_neg (Ne.symm hne), ih hrest]
    rfl

theorem countP_putSite (sites : List Site) (site : Site) (p : Site → Bool) :
    (putSite site sites).countP p ≤ sites.countP p + if p site then 1 else 0 := by
  induction sites with
  | nil => simp [putSite, List.countP_cons]
  | cons s rest ih =>
    rw [putSite]
    split_ifs <;> simp only [List.countP_cons] <;> split_ifs at ih ⊢ <;> omega

theorem dropSite_sublist : (dropSite d sites).Sublist sites := by
  unfold dropSite
  dsimp only
  split_ifs <;> exact List.eraseP_sublist

theorem countP_eraseP {α : Type} {p q : α → Bool} (hpq : ∀ a, p a = true → q a = true) {l : List α}
    (h : ∃ a ∈ l, p a = true) : (l.eraseP p).countP q + 1 = l.countP q := by
  obtain ⟨a, ha, hpa⟩ := h
  obtain ⟨b, l₁, l₂, -, hb, rfl, heq⟩ := List.exists_of_eraseP ha hpa
  rw [heq]
  simp only [List.countP_append, List.countP_cons, hpq b hb, if_true]
  omega

/-- Of the sites of a definition one is dropped, if there is one. -/
theorem countP_dropSite_le :
    (dropSite d sites).countP (·.definition = d) ≤ sites.countP (·.definition = d) - 1 := by
  by_cases h : ∃ s ∈ sites, s.definition = d
  · have hdrop : (dropSite d sites).countP (·.definition = d) + 1 = sites.countP (·.definition = d) := by
      unfold dropSite
      dsimp only
      split_ifs with hown
      · exact countP_eraseP (by simp) (by simpa using hown)
      · exact countP_eraseP (by simp) (by simpa using h)
    omega
  · have hzero : sites.countP (·.definition = d) = 0 := by
      rw [List.countP_eq_zero]
      exact fun s hs heq => h ⟨s, hs, by simpa using heq⟩
    have hsub : (dropSite d sites).countP (·.definition = d) ≤ sites.countP (·.definition = d) :=
      dropSite_sublist.countP_le
    omega

theorem remove?_eq_some {after : Index} (h : index.remove? name d = some after) :
    d ∈ index.definitions name ∧ after = ⟨takeFrom name d index.buckets, dropSite d index.sites⟩ := by
  rw [remove?] at h
  split_ifs at h with hd
  cases h
  exact ⟨by simpa using hd, rfl⟩

/-! ### Definitions in their buckets -/

variable {arena : Arena}

structure Filed (arena : Arena) (index : Index) : Prop where
  tidy : Tidy index.buckets
  filed : ∀ k, ∀ d ∈ index.definitions k, arena.canonicalName? d.lvalue = some k
  sited : ∀ s ∈ index.sites, ∃ k, arena.canonicalName? s.definition.lvalue = some k
  counted : ∀ d k, arena.canonicalName? d.lvalue = some k →
    index.sites.countP (·.definition = d) ≤ (index.definitions k).count d

namespace Filed

theorem empty : Filed arena Index.empty :=
  ⟨⟨List.nodup_nil, by simp [Index.empty]⟩, by simp [Index.empty, definitions, bucket?], by simp [Index.empty],
    by simp [Index.empty]⟩

theorem insert (h : Filed arena index) (hname : arena.canonicalName? site.definition.lvalue = some name) :
    Filed arena (index.insert name site) := by
  refine ⟨h.tidy.addTo, fun k d hd => ?_, fun s hs => ?_, fun d k hd => ?_⟩
  · rw [definitions_insert] at hd
    split_ifs at hd with hk
    · rcases List.mem_append.1 hd with hd | hd
      · exact h.filed k d hd
      · rw [List.mem_singleton.1 hd, ← hk]
        exact hname
    · exact h.filed k d hd
  · rcases mem_putSite hs with rfl | hs
    · exact ⟨name, hname⟩
    · exact h.sited s hs
  · rw [definitions_insert]
    have hput := countP_putSite index.sites site (·.definition = d)
    change (index.insert name site).sites.countP _ ≤ _ at hput
    have hold := h.counted d k hd
    by_cases hsite : site.definition = d
    · have hk : name = k := by
        rw [hsite, hd] at hname
        exact (Option.some.inj hname).symm
      rw [if_pos hk, List.count_append, hsite, List.count_singleton_self]
      simp only [hsite, decide_true, if_true] at hput
      omega
    · simp only [hsite, decide_false, Bool.false_eq_true, if_false] at hput
      split_ifs
      · rw [List.count_append]
        omega
      · omega

theorem mem_names_iff (h : Filed arena index) (k : String) : k ∈ index.names ↔ index.definitions k ≠ [] :=
  Index.mem_names_iff h.tidy

/-- The site of a definition is in the bucket of the definition's name. -/
theorem mem_definitions (h : Filed arena index) {s : Site} (hs : s ∈ index.sites)
    (hk : arena.canonicalName? s.definition.lvalue = some k) : s.definition ∈ index.definitions k := by
  have hpos : 0 < index.sites.countP (·.definition = s.definition) :=
    List.countP_pos_iff.2 ⟨s, hs, by simp⟩
  exact List.count_pos_iff.1 (Nat.lt_of_lt_of_le hpos (h.counted s.definition k hk))

theorem remove? (h : Filed arena index) {after : Index} (hr : index.remove? name d = some after) :
    Filed arena after := by
  obtain ⟨hd, rfl⟩ := remove?_eq_some hr
  have hname := h.filed name d hd
  have hdefs : ∀ k, definitions ⟨takeFrom name d index.buckets, dropSite d index.sites⟩ k =
      if name = k then (index.definitions k).erase d else index.definitions k :=
    fun k => definitions_takeFrom h.tidy.names_nodup _
  refine ⟨h.tidy.takeFrom, fun k e he => ?_, fun s hs => h.sited s (dropSite_sublist.subset hs),
    fun e k he => ?_⟩
  · rw [hdefs] at he
    split_ifs at he
    · exact h.filed k e (List.mem_of_mem_erase he)
    · exact h.filed k e he
  · rw [hdefs]
    have hold := h.counted e k he
    by_cases hed : e = d
    · subst hed
      obtain rfl : name = k := Option.some.inj (hname.symm.trans he)
      rw [if_pos rfl, List.count_erase_self]
      exact Nat.le_trans countP_dropSite_le (Nat.sub_le_sub_right hold 1)
    · have hsub : (dropSite d index.sites).countP (·.definition = e) ≤ index.sites.countP (·.definition = e) :=
        dropSite_sublist.countP_le
      split_ifs
      · rw [List.count_erase_of_ne hed]
        exact Nat.le_trans hsub hold
      · exact Nat.le_trans hsub hold

end Filed

end ScriptIndex.Index
