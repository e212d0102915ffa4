import Mathlib.Data.List.Nodup
import ScriptIndex.Proofs.Assembly

/-! # Assembly keeps trees

`TreeInv`: parents and children say the same, a node has a smaller index than its parent unless that is
a root, and pending nodes have no parent. -/

namespace ScriptIndex.Assembly

variable {s s' : Assembly} {arena : Arena} {pending rest : Pending}

structure TreeInv (s : Assembly) : Prop where
  mem_children : ∀ n c, c ∈ s.arena.children n ↔ s.arena.parent? c = some n
  children_nodup : ∀ n, (s.arena.children n).Nodup
  child_lt : ∀ n c, c ∈ s.arena.children n → c < n ∨ s.arena.kind? n = some .root
  root_free : ∀ n, s.arena.kind? n = some .root → s.arena.parent? n = none
  pending_nodup : (s.pending.map Prod.snd).Nodup
  pending_lt : s.Bounded
  pending_free : ∀ e ∈ s.pending, s.arena.parent? e.2 = none
  pending_kind : ∀ e ∈ s.pending, s.arena.kind? e.2 ≠ some .root

namespace TreeInv

theorem child_lt_size (h : s.TreeInv) {n c : NodeId} (hc : c ∈ s.arena.children n) : c < s.arena.size :=
  Arena.lt_of_parent? ((h.mem_children n c).1 hc)

/-- Only the indexes of pending nodes count, not their roles. -/
theorem of_sublist (h : TreeInv ⟨arena, pending⟩) (hr : (rest.map Prod.snd).Sublist (pending.map Prod.snd)) :
    TreeInv ⟨arena, rest⟩ := by
  have hmem : ∀ e ∈ rest, ∃ e' ∈ pending, e'.2 = e.2 := fun e he =>
    List.mem_map.1 (hr.subset (List.mem_map_of_mem he))
  refine ⟨h.mem_children, h.children_nodup, h.child_lt, h.root_free, hr.nodup h.pending_nodup, ?_, ?_, ?_⟩
  · intro e he
    obtain ⟨e', he', heq⟩ := hmem e he
    exact heq ▸ h.pending_lt e' he'
  · intro e he
    obtain ⟨e', he', heq⟩ := hmem e he
    exact heq ▸ h.pending_free e' he'
  · intro e he
    obtain ⟨e', he', heq⟩ := hmem e he
    exact heq ▸ h.pending_kind e' he'

/-- What the nodes are like that a new node is made over. -/
theorem of_reverse_append {children : Pending} (h : TreeInv ⟨arena, children.reverse ++ rest⟩) :
    (children.map Prod.snd).Nodup ∧ (rest.map Prod.snd).Nodup ∧
      (∀ e ∈ rest, e.2 ∉ children.map Prod.snd) ∧ (∀ c ∈ children.map Prod.snd,
        c < arena.size ∧ arena.parent? c = none ∧ arena.kind? c ≠ some .root) := by
  have hnd := h.pending_nodup
  rw [List.map_append, List.map_reverse, List.nodup_append] at hnd
  obtain ⟨h1, h2, h3⟩ := hnd
  refine ⟨List.nodup_reverse.1 h1, h2, fun e he hc => ?_, fun c hc => ?_⟩
  · exact h3 _ (List.mem_reverse.2 hc) _ (List.mem_map_of_mem he) rfl
  · obtain ⟨e, he, rfl⟩ := List.mem_map.1 hc
    have he : e ∈ children.reverse ++ rest := List.mem_append_left _ (List.mem_reverse.2 he)
    exact ⟨h.pending_lt e he, h.pending_free e he, h.pending_kind e he⟩

theorem make {after : Arena} {kind : Kind} {span : Span} {role : Role} {children : Pending}
    (h : TreeInv ⟨arena, children.reverse ++ rest⟩) (hk : kind ≠ .root)
    (made : Made arena kind span (children.map Prod.snd) after) :
    TreeInv ⟨after, (role, arena.size) :: rest⟩ := by
  obtain ⟨hnd, hrest, hdisj, hch⟩ := h.of_reverse_append
  have hlt : ∀ c ∈ children.map Prod.snd, c < arena.size := fun c hc => (hch c hc).1
  have hroot : ∀ n, after.kind? n = some .root → n ≠ arena.size ∧ arena.kind? n = some .root := by
    intro n hn
    rw [made.kind?] at hn
    split_ifs at hn with h1
    · cases hn; exact absurd rfl hk
    · exact ⟨h1, hn⟩
  -- only the new node gains children, and only they gain a parent
  refine ⟨fun n c => ?_, fun n => ?_, fun n c hc => ?_, fun n hn => ?_, ?_, ?_, ?_, ?_⟩
  · rw [made.children_eq, made.parent? hlt]
    split_ifs with h1 h2 h2
    · exact ⟨fun _ => by rw [h1], fun _ => h2⟩
    · refine ⟨fun hc => absurd hc h2, fun hc => ?_⟩
      have := Arena.lt_of_mem_children ((h.mem_children n c).2 hc)
      exact absurd this (h1 ▸ Nat.lt_irrefl _)
    · refine ⟨fun hc => ?_, fun hc => absurd (Option.some.inj hc).symm h1⟩
      have := (h.mem_children n c).1 hc
      rw [(hch c h2).2.1] at this
      cases this
    · exact h.mem_children n c
  · rw [made.children_eq]
    split_ifs
    · exact hnd
    · exact h.children_nodup n
  · rw [made.children_eq] at hc
    rw [made.kind?]
    split_ifs at hc ⊢ with h1
    · exact .inl (h1 ▸ hlt c hc)
    · exact h.child_lt n c hc
  · obtain ⟨-, hn⟩ := hroot n hn
    rw [made.parent? hlt, if_neg fun hc => (hch n hc).2.2 hn]
    exact h.root_free n hn
  · refine List.nodup_cons.2 ⟨fun hmem => ?_, hrest⟩
    obtain ⟨e, he, heq⟩ := List.mem_map.1 hmem
    have hlt : e.2 < arena.size := h.pending_lt e (List.mem_append_right _ he)
    exact absurd hlt (heq ▸ Nat.lt_irrefl _)
  · intro e he
    rw [made.size]
    rcases List.mem_cons.1 he with rfl | he
    · exact Nat.lt_succ_self _
    · exact Nat.lt_succ_of_lt (h.pending_lt e (List.mem_append_right _ he))
  · intro e he
    rw [made.parent? hlt]
    rcases List.mem_cons.1 he with rfl | he
    · rw [if_neg fun hc => absurd (hlt _ hc) (Nat.lt_irrefl _)]
      simp [Arena.parent?, Arena.node?_eq_none]
    · rw [if_neg (hdisj e he)]
      exact h.pending_free e (List.mem_append_right _ he)
  · intro e he hr
    obtain ⟨hne, hr⟩ := hroot _ hr
    rcases List.mem_cons.1 he with rfl | he
    · exact hne rfl
    · exact h.pending_kind e (List.mem_append_right _ he) hr

theorem enroll {after : Arena} {root script : NodeId} {role : Role}
    (h : TreeInv ⟨arena, (role, script) :: rest⟩) (hr : arena.kind? root = some .root)
    (attached : Attached arena root script after) : TreeInv ⟨after, rest⟩ := by
  obtain ⟨hs, -⟩ := List.forall_mem_cons.1 h.pending_lt
  obtain ⟨hfree, -⟩ := List.forall_mem_cons.1 h.pending_free
  obtain ⟨hkind, -⟩ := List.forall_mem_cons.1 h.pending_kind
  obtain ⟨hnot, hnd⟩ := List.nodup_cons.1 h.pending_nodup
  have hne : script ≠ root := fun heq => hkind (heq ▸ hr)
  have hp := Arena.lt_of_kind? hr
  have hmem : ∀ n, script ∉ arena.children n := fun n hc => by
    have := (h.mem_children n script).1 hc
    rw [hfree] at this
    cases this
  have hch := attached.children_eq hp
  have hpar := attached.parent? hs hne
  refine ⟨fun n c => ?_, fun n => ?_, fun n c hc => ?_, fun n hn => ?_, hnd, ?_, ?_, ?_⟩
  · rw [hch, hpar]
    split_ifs with h1 h2 h2
    · exact ⟨fun _ => by rw [h1], fun _ => List.mem_append_right _ (by simp [h2])⟩
    · rw [List.mem_append, List.mem_singleton, or_iff_left h2]
      exact h.mem_children n c
    · exact ⟨fun hc => absurd (h2 ▸ hc) (hmem n), fun hc => absurd (Option.some.inj hc).symm h1⟩
    · exact h.mem_children n c
  · rw [hch]
    split_ifs with h1
    · refine List.nodup_append.2 ⟨h.children_nodup n, List.nodup_singleton _, fun a ha b hb => ?_⟩
      rintro rfl
      exact hmem n (List.mem_singleton.1 hb ▸ ha)
    · exact h.children_nodup n
  · rw [hch] at hc
    rw [attached.kind?]
    split_ifs at hc with h1
    · exact .inr (h1 ▸ hr)
    · exact h.child_lt n c hc
  · rw [attached.kind?] at hn
    rw [hpar, if_neg fun heq : n = script => hkind (heq ▸ hn)]
    exact h.root_free n hn
  · intro e he
    rw [attached.size]
    exact h.pending_lt e (List.mem_cons_of_mem _ he)
  · intro e he
    rw [hpar, if_neg fun heq : e.2 = script => hnot (List.mem_map.2 ⟨e, he, heq⟩)]
    exact h.pending_free e (List.mem_cons_of_mem _ he)
  · intro e he
    rw [attached.kind?]
    exact h.pending_kind e (List.mem_cons_of_mem _ he)

theorem step (h : s.TreeInv) (hs : Step s s') : s'.TreeInv := by
  cases hs with
  | make forms made => exact h.make forms.ne_root made
  | serve | aim => exact h.of_sublist (List.Sublist.refl _)
  | document documented =>
    have h := h.of_sublist ((List.sublist_append_right _ _).map Prod.snd)
    refine ⟨fun n c => ?_, fun n => ?_, fun n c => ?_, fun n => ?_, h.pending_nodup, fun e he => ?_,
      fun e he => ?_, fun e he => ?_⟩
    · rw [documented.children_eq, documented.parent?]; exact h.mem_children n c
    · rw [documented.children_eq]; exact h.children_nodup n
    · rw [documented.children_eq, documented.kind?]; exact h.child_lt n c
    · rw [documented.kind?, documented.parent?]; exact h.root_free n
    · rw [documented.size]; exact h.pending_lt e he
    · rw [documented.parent?]; exact h.pending_free e he
    · rw [documented.kind?]; exact h.pending_kind e he
  | enroll hr attached => exact h.enroll hr attached
  | abandon hsub => exact h.of_sublist (hsub.map Prod.snd)

theorem steps (h : s.TreeInv) (hs : Steps s s') : s'.TreeInv := by
  induction hs with
  | refl => exact h
  | tail _ hs ih => exact ih.step hs

theorem empty : TreeInv ⟨.empty, []⟩ where
  mem_children := by simp [Arena.children, Arena.parent?, Arena.node?, Arena.empty]
  children_nodup := by simp [Arena.children, Arena.node?, Arena.empty]
  child_lt := by simp [Arena.children, Arena.node?, Arena.empty]
  root_free := by simp [Arena.parent?, Arena.node?, Arena.empty]
  pending_nodup := List.nodup_nil
  pending_lt := by simp [Bounded]
  pending_free := by simp
  pending_kind := by simp

end TreeInv

end ScriptIndex.Assembly
