import ScriptIndex.Proofs.Programs

/-! # Programs are forests

`RootInv`: the root of a type stands under no parent and in one tag of one node's documentation only.
`RegionInv`: the two regions are the only roots, and what stands under them are scripts. With what assembly
keeps otherwise, every program is a forest (`Program.forest`), also after scripts that were refused. -/

namespace ScriptIndex

namespace Assembly

variable {s s' : Assembly} {arena after : Arena} {rest : Pending} {typed : NodeId → Prop}

structure RootInv (s : Assembly) : Prop where
  roots_nodup : ∀ n, (s.arena.typeRoots n).Nodup
  owner_unique : ∀ n m t, t ∈ s.arena.typeRoots n → t ∈ s.arena.typeRoots m → n = m
  root_free : ∀ n t, t ∈ s.arena.typeRoots n → s.arena.parent? t = none
  pending_not_root : ∀ e ∈ s.pending, ∀ n, e.2 ∉ s.arena.typeRoots n

structure RegionInv (s : Assembly) : Prop where
  root_region : ∀ n, s.arena.kind? n = some .root → ∃ region : Region, n = region.root
  enrolled : ∀ n c, s.arena.kind? n = some .root → c ∈ s.arena.children n →
    ∃ module, s.arena.kind? c = some (.script module)
  pending_script : ∀ e ∈ s.pending, e.1 = .script → ∃ module, s.arena.kind? e.2 = some (.script module)

theorem TypeInv.root_lt (h : TypeInv typed s) {n t : NodeId} (ht : t ∈ s.arena.typeRoots n) :
    t < s.arena.size :=
  h.typed_lt t (h.owner n t ht).1

/-- Documentation is new only on the node that a step documents, which is in no type. -/
theorem TypeInv.step_undocumented (h : TypeInv typed s) (ht : s.TreeInv) (hd : s.DocInv)
    (hdoc : ∀ n, typed n → s.arena.doc? n = none) (hs : Step s s') :
    ∃ typed', TypeInv typed' s' ∧ ∀ n, typed' n → s'.arena.doc? n = none := by
  obtain ⟨typed', h', hsame⟩ := h.step ht hd hs
  refine ⟨typed', h', fun n hn => ?_⟩
  have hold : s.arena.doc? n = none := by
    rcases Nat.lt_or_ge n s.arena.size with hlt | hge
    · exact hdoc n ((hsame n hlt).1 hn)
    · simp [Arena.doc?, Arena.node?_eq_none hge]
  cases hs with
  | make _ made => rw [made.doc?]; exact hold
  | serve | aim | abandon => exact hold
  | document documented =>
    obtain ⟨hlt, hnot⟩ := h.described_lt ht hd (List.mem_append_right _ List.mem_cons_self)
    rw [documented.doc? hlt, if_neg]
    · exact hold
    · rintro rfl
      exact hnot ((hsame _ hlt).1 hn)
  | enroll _ attached => rw [attached.doc?]; exact hold

namespace RootInv

theorem of_sublist {pending : Pending} (h : RootInv ⟨arena, pending⟩)
    (hr : (rest.map Prod.snd).Sublist (pending.map Prod.snd)) : RootInv ⟨arena, rest⟩ := by
  refine ⟨h.roots_nodup, h.owner_unique, h.root_free, fun e he => ?_⟩
  obtain ⟨e', he', heq⟩ := List.mem_map.1 (hr.subset (List.mem_map_of_mem he))
  exact heq ▸ h.pending_not_root e' he'

theorem make {kind : Kind} {span : Span} {role : Role} {children : Pending}
    (h : RootInv ⟨arena, children.reverse ++ rest⟩) (ht : TreeInv ⟨arena, children.reverse ++ rest⟩)
    (hlt : ∀ n t, t ∈ arena.typeRoots n → t < arena.size)
    (made : Made arena kind span (children.map Prod.snd) after) : RootInv ⟨after, (role, arena.size) :: rest⟩ := by
  have hroots : ∀ n, after.typeRoots n = arena.typeRoots n := fun n => by
    rw [Arena.typeRoots, made.doc?]
    rfl
  refine ⟨fun n => ?_, fun n m t hn hm => ?_, fun n t hn => ?_, fun e he n hn => ?_⟩
  · rw [hroots]
    exact h.roots_nodup n
  · rw [hroots] at hn hm
    exact h.owner_unique n m t hn hm
  · rw [hroots] at hn
    rw [made.parent? fun c hc => (ht.of_reverse_append.2.2.2 c hc).1, if_neg]
    · exact h.root_free n t hn
    · -- the new node takes pending nodes only
      intro hc
      obtain ⟨e, he, rfl⟩ := List.mem_map.1 hc
      exact h.pending_not_root e (List.mem_append_left _ (List.mem_reverse.2 he)) n hn
  · rw [hroots] at hn
    rcases List.mem_cons.1 he with rfl | he
    · exact Nat.lt_irrefl _ (hlt n _ hn)
    · exact h.pending_not_root e (List.mem_append_right _ he) n hn

theorem document {described statement : NodeId} {doc : Doc}
    (h : RootInv ⟨arena, (doc.typeRoots.map (Role.type, ·)).reverse ++ (.stating described, statement) :: rest⟩)
    (ht : TreeInv ⟨arena, (doc.typeRoots.map (Role.type, ·)).reverse ++ (.stating described, statement) :: rest⟩)
    (hd : described < arena.size) (documented : Documented arena described doc after) :
    RootInv ⟨after, (.stating described, statement) :: rest⟩ := by
  have hroots : ∀ n, after.typeRoots n = if n = described then doc.typeRoots else arena.typeRoots n := by
    intro n
    rw [Arena.typeRoots, documented.doc? hd]
    split_ifs <;> rfl
  obtain ⟨hnd, -, hrest, hfree⟩ := ht.of_reverse_append
  have hsnd : (doc.typeRoots.map (Role.type, ·)).map Prod.snd = doc.typeRoots := by
    rw [List.map_map]
    exact List.map_id _
  rw [hsnd] at hnd hrest hfree
  -- the new types were pending, so they are in no other documentation
  have hnew : ∀ t ∈ doc.typeRoots, ∀ n, t ∉ arena.typeRoots n := by
    intro t hmem n
    exact h.pending_not_root (.type, t)
      (List.mem_append_left _ (List.mem_reverse.2 (List.mem_map_of_mem hmem))) n
  refine ⟨fun n => ?_, fun n m t hn hm => ?_, fun n t hn => ?_, fun e he n hn => ?_⟩
  · rw [hroots]
    split_ifs
    · exact hnd
    · exact h.roots_nodup n
  · rw [hroots] at hn hm
    split_ifs at hn hm with h1 h2 h2
    · exact h1.trans h2.symm
    · exact absurd hm (hnew t hn m)
    · exact absurd hn (hnew t hm n)
    · exact h.owner_unique n m t hn hm
  · rw [hroots] at hn
    rw [documented.parent?]
    split_ifs at hn
    · exact (hfree t hn).2.1
    · exact h.root_free n t hn
  · rw [hroots] at hn
    split_ifs at hn
    · exact hrest e he hn
    · exact h.pending_not_root e (List.mem_append_right _ he) n hn

theorem enroll {root script : NodeId} (h : RootInv ⟨arena, (.script, script) :: rest⟩)
    (ht : TreeInv ⟨arena, (.script, script) :: rest⟩) (hr : arena.kind? root = some .root)
    (attached : Attached arena root script after) : RootInv ⟨after, rest⟩ := by
  have hroots : ∀ n, after.typeRoots n = arena.typeRoots n := fun n => by
    rw [Arena.typeRoots, attached.doc?]
    rfl
  have hne : script ≠ root := fun heq => ht.pending_kind _ List.mem_cons_self (heq ▸ hr)
  refine ⟨fun n => ?_, fun n m t hn hm => ?_, fun n t hn => ?_, fun e he n hn => ?_⟩
  · rw [hroots]
    exact h.roots_nodup n
  · rw [hroots] at hn hm
    exact h.owner_unique n m t hn hm
  · rw [hroots] at hn
    rw [attached.parent? (ht.pending_lt _ List.mem_cons_self) hne, if_neg]
    · exact h.root_free n t hn
    · rintro rfl
      exact h.pending_not_root _ List.mem_cons_self n hn
  · rw [hroots] at hn
    exact h.pending_not_root e (List.mem_cons_of_mem _ he) n hn

theorem step (h : s.RootInv) (ht : s.TreeInv) (hty : TypeInv typed s) (hd : s.DocInv) (hs : Step s s') :
    s'.RootInv := by
  cases hs with
  | make _ made => exact h.make ht (fun _ _ => hty.root_lt) made
  | serve | aim => exact h.of_sublist (List.Sublist.refl _)
  | document documented =>
    obtain ⟨hlt, -⟩ := hty.described_lt ht hd (List.mem_append_right _ List.mem_cons_self)
    exact h.document ht hlt documented
  | enroll hr attached => exact h.enroll ht hr attached
  | abandon hsub => exact h.of_sublist (hsub.map Prod.snd)

end RootInv

namespace RegionInv

theorem of_sublist {pending : Pending} (h : RegionInv ⟨arena, pending⟩) (hr : rest.Sublist pending) :
    RegionInv ⟨arena, rest⟩ :=
  ⟨h.root_region, h.enrolled, fun e he => h.pending_script e (hr.subset he)⟩

/-- What keeps kinds and the children of roots keeps the regions. -/
theorem of_extends {pending : Pending} (h : RegionInv ⟨arena, pending⟩) (hext : arena.Extends after)
    (hroot : ∀ n, after.kind? n = some .root → arena.kind? n = some .root)
    (hch : ∀ n c, arena.kind? n = some .root → c ∈ after.children n →
      c ∈ arena.children n ∨ (Role.script, c) ∈ pending) : RegionInv ⟨after, pending⟩ := by
  refine ⟨fun n hn => h.root_region n (hroot n hn), fun n c hn hc => ?_, fun e he hrole => ?_⟩
  · have hn := hroot n hn
    rcases hch n c hn hc with hc | hc
    · obtain ⟨module, hk⟩ := h.enrolled n c hn hc
      exact ⟨module, (hext c _ hk).1⟩
    · obtain ⟨module, hk⟩ := h.pending_script _ hc rfl
      exact ⟨module, (hext c _ hk).1⟩
  · obtain ⟨module, hk⟩ := h.pending_script e he hrole
    exact ⟨module, (hext _ _ hk).1⟩

theorem make {kind : Kind} {span : Span} {role : Role} {children : Pending}
    (h : RegionInv ⟨arena, children.reverse ++ rest⟩) (forms : Forms kind children role)
    (made : Made arena kind span (children.map Prod.snd) after) :
    RegionInv ⟨after, (role, arena.size) :: rest⟩ := by
  have hroot : ∀ n, after.kind? n = some .root → n ≠ arena.size ∧ arena.kind? n = some .root := by
    intro n hn
    rw [made.kind?] at hn
    split_ifs at hn with h1
    · exact absurd (Option.some.inj hn) forms.ne_root
    · exact ⟨h1, hn⟩
  have h' := h.of_extends made.extends (fun n hn => (hroot n hn).2) fun n c hn hc => by
    rw [made.children_eq, if_neg (Nat.ne_of_lt (Arena.lt_of_kind? hn))] at hc
    exact .inl hc
  refine ⟨h'.root_region, h'.enrolled, List.forall_mem_cons.2 ⟨fun hrole => ?_, fun e he =>
    h'.pending_script e (List.mem_append_right _ he)⟩⟩
  obtain rfl : role = .script := hrole
  cases forms with
  | script module _ => exact ⟨module, by rw [made.kind?, if_pos rfl]⟩

theorem step (h : s.RegionInv) (hs : Step s s') : s'.RegionInv := by
  cases hs with
  | make forms made => exact h.make forms made
  | serve serves =>
    refine ⟨h.root_region, h.enrolled, List.forall_mem_cons.2 ⟨fun hrole => ?_,
      (List.forall_mem_cons.1 h.pending_script).2⟩⟩
    cases serves <;> cases hrole
  | aim =>
    refine ⟨h.root_region, h.enrolled, List.forall_mem_cons.2 ⟨fun hrole => ?_,
      (List.forall_mem_cons.1 h.pending_script).2⟩⟩
    cases hrole
  | document documented =>
    refine (h.of_extends documented.extends (fun n hn => ?_) fun n c _ hc => ?_).of_sublist
      (List.sublist_append_right _ _)
    · rwa [documented.kind?] at hn
    · rw [documented.children_eq] at hc
      exact .inl hc
  | enroll hr attached =>
    refine (h.of_extends (attached.extends hr) (fun n hn => ?_) fun n c _ hc => ?_).of_sublist
      (List.sublist_cons_self _ _)
    · rwa [attached.kind?] at hn
    · rw [attached.children_eq (Arena.lt_of_kind? hr)] at hc
      split_ifs at hc with h1
      · rcases List.mem_append.1 hc with hc | hc
        · exact .inl hc
        · rw [List.mem_singleton.1 hc]
          exact .inr List.mem_cons_self
      · exact .inl hc
  | abandon hsub => exact h.of_sublist hsub

end RegionInv

/-- All that assembly keeps, from the two empty regions on. -/
structure ForestInv (s : Assembly) : Prop where
  tree : s.TreeInv
  types : ∃ typed, TypeInv typed s ∧ ∀ n, typed n → s.arena.doc? n = none
  docs : s.DocInv
  roots : s.RootInv
  regions : s.RegionInv

theorem ForestInv.step (h : s.ForestInv) (hs : Step s s') : s'.ForestInv := by
  obtain ⟨typed, ht, hdoc⟩ := h.types
  exact ⟨h.tree.step hs, ht.step_undocumented h.tree h.docs hdoc hs, h.docs.step h.tree hs,
    h.roots.step h.tree ht h.docs hs, h.regions.step hs⟩

theorem ForestInv.steps (h : s.ForestInv) (hs : Steps s s') : s'.ForestInv := by
  induction hs with
  | refl => exact h
  | tail _ hs ih => exact ih.step hs

end Assembly

namespace Arena

/-- A forest: the trees of child links are apart from one another, and among them the trees of types from
all others. -/
structure Forest (arena : Arena) : Prop where
  parent_lt : ∀ n p, arena.parent? n = some p → p < arena.size
  child_lt_size : ∀ n c, c ∈ arena.children n → c < arena.size
  type_lt : ∀ n t, t ∈ arena.typeRoots n → t < arena.size
  mem_children : ∀ n c, c ∈ arena.children n ↔ arena.parent? c = some n
  children_nodup : ∀ n, (arena.children n).Nodup
  rooted : ∀ n, ∃ top, arena.parent? top = none ∧
    Relation.ReflTransGen (fun c p => arena.parent? c = some p) n top
  child_lt : ∀ n c, c ∈ arena.children n →
    c < n ∨ (∃ region : Region, n = region.root) ∧ ∃ module, arena.kind? c = some (.script module)
  types_nodup : ((List.range arena.size).flatMap arena.typeRoots).Nodup
  type_free : ∀ n t, t ∈ arena.typeRoots n → arena.parent? t = none
  type_undocumented : ∀ n t m, t ∈ arena.typeRoots n → arena.Below t m → arena.doc? m = none
  type_apart : ∀ n t m (region : Region), t ∈ arena.typeRoots n → arena.Below t m →
    ¬ arena.Below region.root m

/-- Ranks fall from a parent to its child, so a path of parents ends. -/
theorem exists_top {arena : Arena} (hl : arena.Linked) (ha : arena.Acyclic) (n : NodeId) :
    ∃ top, arena.parent? top = none ∧
      Relation.ReflTransGen (fun c p => arena.parent? c = some p) n top := by
  have hup : ∀ k n, arena.size ≤ arena.rank n + k → ∃ top, arena.parent? top = none ∧
      Relation.ReflTransGen (fun c p => arena.parent? c = some p) n top := by
    intro k
    induction k with
    | zero =>
      intro n hn
      refine ⟨n, ?_, .refl⟩
      cases hp : arena.parent? n with
      | none => rfl
      | some p =>
        have hrank := ha.rank_lt_size (Arena.lt_of_parent? hp)
        omega
    | succ k ih =>
      intro n hn
      cases hp : arena.parent? n with
      | none => exact ⟨n, hp, .refl⟩
      | some p =>
        have hrank := ha.rank_lt hl (.inl ((hl.mem_children p n).2 hp))
        obtain ⟨top, hfree, hpath⟩ := ih p (by omega)
        exact ⟨top, hfree, hpath.head hp⟩
  exact hup arena.size n (Nat.le_add_left _ _)

end Arena

namespace Program
open Assembly

theorem empty_forestInv : ForestInv ⟨empty, []⟩ where
  tree := empty_inv.tree
  types := by
    obtain ⟨typed, ht⟩ := empty_inv.types
    exact ⟨typed, ht, fun n _ => doc?_empty n⟩
  docs := empty_inv.docs
  roots :=
    { roots_nodup := by simp [Arena.typeRoots, doc?_empty]
      owner_unique := by simp [Arena.typeRoots, doc?_empty]
      root_free := by simp [Arena.typeRoots, doc?_empty]
      pending_not_root := by simp }
  regions :=
    { root_region := by
        intro n hn
        have hlt : n < 2 := Arena.lt_of_kind? hn
        rcases Nat.lt_succ_iff_lt_or_eq.1 hlt with hlt | rfl
        · exact ⟨.externs, Nat.lt_one_iff.1 hlt⟩
        · exact ⟨.source, rfl⟩
      enrolled := by simp [children_empty]
      pending_script := by simp }

theorem forestInv (scripts : List Script) : ForestInv ⟨ofScripts scripts, []⟩ :=
  empty_forestInv.steps (foldl_add_steps scripts empty empty_inv kind?_empty_root)

/-- Every program is a forest, whatever scripts were read into it and whichever of them were refused. -/
theorem forest (scripts : List Script) : (ofScripts scripts).Forest := by
  have h := forestInv scripts
  have hs := shape scripts
  obtain ⟨typed, ht, hdoc⟩ := h.types
  have hbelow : ∀ n t m, t ∈ (ofScripts scripts).typeRoots n → (ofScripts scripts).Below t m → typed m := by
    intro n t m hmem hm
    induction hm with
    | refl => exact (ht.owner n t hmem).1
    | tail _ hc ih => exact (ht.typed_child _ _ hc).2 ih
  constructor
  case parent_lt =>
    intro n p hp
    exact Arena.lt_of_mem_children ((h.tree.mem_children p n).2 hp)
  case child_lt_size => exact fun _ _ => h.tree.child_lt_size
  case type_lt => exact fun _ _ => ht.root_lt
  case mem_children => exact h.tree.mem_children
  case children_nodup => exact h.tree.children_nodup
  case rooted => exact Arena.exists_top hs.linked hs.acyclic
  case child_lt =>
    intro n c hc
    rcases h.tree.child_lt n c hc with hlt | hroot
    · exact .inl hlt
    · exact .inr ⟨h.regions.root_region n hroot, h.regions.enrolled n c hroot hc⟩
  case types_nodup =>
    refine List.nodup_flatMap.2 ⟨fun n _ => h.roots.roots_nodup n, ?_⟩
    refine List.nodup_range.imp fun {n m} hne => ?_
    refine List.disjoint_left.2 fun t hn hm => ?_
    exact hne (h.roots.owner_unique n m t hn hm)
  case type_free => exact h.roots.root_free
  case type_undocumented => exact fun n t m hmem hm => hdoc m (hbelow n t m hmem hm)
  case type_apart =>
    intro n t m region hmem hm
    refine hs.linked.disjoint_below ?_ (h.roots.root_free n t hmem) (hs.root_free region) hm
    rintro rfl
    exact (ht.typed_form _ (ht.owner n _ hmem).1).ne_root (hs.root_kind region)

end Program

end ScriptIndex
