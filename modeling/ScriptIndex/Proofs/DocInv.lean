import ScriptIndex.Proofs.AssemblyInv

/-! # Assembly keeps documentation apart

`TypeInv`: nodes of types have trees of their own, which only documentation leads to. `DocInv`:
documentation stands only on statements and on the expressions of expression statements. -/

namespace ScriptIndex

namespace Arena

/-- Nodes that `arena` has keep their kinds in `after`, and their children unless they are roots. -/
def Extends (arena after : Arena) : Prop :=
  ∀ n kind, arena.kind? n = some kind →
    after.kind? n = some kind ∧ (kind ≠ .root → after.children n = arena.children n)

/-- A whole type: a node of a kind that only types have, or a function over a list of types. -/
def IsTypeNode (arena : Arena) (n : NodeId) : Prop :=
  (∃ kind, arena.kind? n = some kind ∧ kind.isType = true) ∨
    arena.kind? n = some .function ∧ ∃ p, arena.firstChild? n = some p ∧ arena.kind? p = some .params

/-- A whole type, or the parameters of a function type. -/
def InType (arena : Arena) (n : NodeId) : Prop :=
  arena.IsTypeNode n ∨ arena.kind? n = some .params ∧ ∀ c ∈ arena.children n, arena.IsTypeNode c

variable {arena after : Arena} {n : NodeId}

theorem IsTypeNode.extends (h : arena.IsTypeNode n) (hext : arena.Extends after) : after.IsTypeNode n := by
  rcases h with ⟨kind, hk, htype⟩ | ⟨hk, p, hp, hpk⟩
  · exact .inl ⟨kind, (hext n kind hk).1, htype⟩
  · obtain ⟨hk', hch⟩ := hext n _ hk
    refine .inr ⟨hk', p, ?_, (hext p _ hpk).1⟩
    rw [firstChild?, hch (by simp)]
    exact hp

theorem InType.extends (h : arena.InType n) (hext : arena.Extends after) : after.InType n := by
  rcases h with h | ⟨hk, hch⟩
  · exact .inl (h.extends hext)
  · obtain ⟨hk', heq⟩ := hext n _ hk
    refine .inr ⟨hk', fun c hc => ?_⟩
    rw [heq (by simp)] at hc
    exact (hch c hc).extends hext

theorem InType.ne_root (h : arena.InType n) : arena.kind? n ≠ some .root := by
  intro hr
  rcases h with (⟨kind, hk, htype⟩ | ⟨hk, -⟩) | ⟨hk, -⟩ <;> rw [hr] at hk <;> cases hk
  cases htype

end Arena

theorem Made.extends {arena after : Arena} {kind : Kind} {span : Span} {children : List NodeId}
    (h : Made arena kind span children after) : arena.Extends after := by
  intro n kind hk
  have hne := Nat.ne_of_lt (Arena.lt_of_kind? hk)
  exact ⟨by rw [h.kind?, if_neg hne]; exact hk, fun _ => by rw [h.children_eq, if_neg hne]⟩

theorem Documented.extends {arena after : Arena} {node : NodeId} {doc : Doc}
    (h : Documented arena node doc after) : arena.Extends after :=
  fun n _ hk => ⟨(h.kind? n).trans hk, fun _ => h.children_eq n⟩

theorem Attached.extends {arena after : Arena} {root script : NodeId} (h : Attached arena root script after)
    (hr : arena.kind? root = some .root) : arena.Extends after := by
  refine fun n kind hk => ⟨(h.kind? n).trans hk, fun hne => ?_⟩
  rw [h.children_eq (Arena.lt_of_kind? hr), if_neg]
  rintro rfl
  exact hne (Option.some.inj (hk.symm.trans hr))

namespace Assembly

variable {s s' : Assembly} {arena after : Arena} {rest : Pending} {typed : NodeId → Prop}

theorem Step.extends (h : Step s s') : s.arena.Extends s'.arena := by
  cases h with
  | make _ made => exact made.extends
  | serve | aim | abandon => exact fun n _ hk => ⟨hk, fun _ => rfl⟩
  | document documented => exact documented.extends
  | enroll hr attached => exact attached.extends hr

/-- `typed` are the nodes that were made for types. -/
structure TypeInv (typed : NodeId → Prop) (s : Assembly) : Prop where
  typed_lt : ∀ n, typed n → n < s.arena.size
  typed_child : ∀ n c, c ∈ s.arena.children n → (typed c ↔ typed n)
  typed_form : ∀ n, typed n → s.arena.InType n
  owner : ∀ n t, t ∈ s.arena.typeRoots n → typed t ∧ ¬ typed n
  pending_typed : ∀ e ∈ s.pending, (typed e.2 ↔ e.1.IsType)
  pending_type : ∀ e ∈ s.pending, e.1 = .type → s.arena.IsTypeNode e.2
  pending_params : ∀ e ∈ s.pending, e.1 = .typeParams → s.arena.kind? e.2 = some .params

structure DocInv (s : Assembly) : Prop where
  doc_parent : ∀ n p, s.arena.doc? n ≠ none → s.arena.parent? n = some p →
    ∃ kind, s.arena.kind? p = some kind ∧ (kind.holdsStatements = true ∨ kind = .expressionStatement)
  pending_doc : ∀ e ∈ s.pending, s.arena.doc? e.2 ≠ none → e.1.IsStatement
  pending_stating : ∀ e ∈ s.pending, ∀ d, e.1 = .stating d →
    d = e.2 ∨ s.arena.kind? e.2 = some .expressionStatement ∧ d ∈ s.arena.children e.2

namespace TypeInv

theorem of_sublist {pending : Pending} (h : TypeInv typed ⟨arena, pending⟩) (hr : rest.Sublist pending) :
    TypeInv typed ⟨arena, rest⟩ :=
  ⟨h.typed_lt, h.typed_child, h.typed_form, h.owner, fun e he => h.pending_typed e (hr.subset he),
    fun e he => h.pending_type e (hr.subset he), fun e he => h.pending_params e (hr.subset he)⟩

/-- A node made over pending nodes is a type if it was made in a role of types. -/
theorem make_form {kind : Kind} {span : Span} {role : Role} {children : Pending}
    (h : TypeInv typed ⟨arena, children.reverse ++ rest⟩) (forms : Forms kind children role)
    (made : Made arena kind span (children.map Prod.snd) after) : (role = .type → after.IsTypeNode arena.size) ∧
      (role = .typeParams → after.kind? arena.size = some .params ∧
        ∀ c ∈ after.children arena.size, after.IsTypeNode c) := by
  have hext := made.extends
  have hkind : after.kind? arena.size = some kind := by rw [made.kind?, if_pos rfl]
  have hch : after.children arena.size = children.map Prod.snd := by rw [made.children_eq, if_pos rfl]
  have hmem : ∀ c ∈ children, c ∈ children.reverse ++ rest := fun c hc =>
    List.mem_append_left _ (List.mem_reverse.2 hc)
  have hfun : ∀ p cs, children = (.typeParams, p) :: cs → kind = .function →
      after.IsTypeNode arena.size := by
    rintro p cs rfl rfl
    have hp := h.pending_params _ (hmem _ List.mem_cons_self) rfl
    refine .inr ⟨hkind, p, ?_, (hext _ _ hp).1⟩
    rw [Arena.firstChild?, hch]
    rfl
  refine ⟨?_, ?_⟩ <;> rintro rfl
  · cases forms with
    | type hk _ => exact .inl ⟨kind, hkind, Kind.isType_of_takesTypes hk⟩
    | typeFunction p => exact hfun p _ rfl rfl
    | typeFunctionTo p t => exact hfun p _ rfl rfl
  · cases forms with
    | typeParams hall =>
      refine ⟨hkind, fun c hc => ?_⟩
      rw [hch] at hc
      obtain ⟨e, he, rfl⟩ := List.mem_map.1 hc
      exact (h.pending_type e (hmem e he) (hall e he)).extends hext

theorem make {kind : Kind} {span : Span} {role : Role} {children : Pending}
    (h : TypeInv typed ⟨arena, children.reverse ++ rest⟩) (ht : TreeInv ⟨arena, children.reverse ++ rest⟩)
    (forms : Forms kind children role) (made : Made arena kind span (children.map Prod.snd) after) :
    TypeInv (fun n => if n = arena.size then role.IsType else typed n) ⟨after, (role, arena.size) :: rest⟩ := by
  have hext : arena.Extends after := made.extends
  obtain ⟨htype, hparams⟩ := h.make_form forms made
  have hold : ∀ e ∈ rest, e ∈ children.reverse ++ rest := fun e he => List.mem_append_right _ he
  have hnot : ¬ typed arena.size := fun hn => Nat.lt_irrefl _ (h.typed_lt _ hn)
  have hroots : ∀ n, after.typeRoots n = arena.typeRoots n := fun n => by
    rw [Arena.typeRoots, made.doc?]; rfl
  refine ⟨fun n hn => ?_, fun n c hc => ?_, fun n hn => ?_, fun n t hmem => ?_, ?_, ?_, ?_⟩
  · rw [made.size]
    split_ifs at hn with h1
    · exact h1 ▸ Nat.lt_succ_self _
    · exact Nat.lt_succ_of_lt (h.typed_lt n hn)
  · have hlt : c < arena.size := by
      rw [made.children_eq] at hc
      split_ifs at hc
      · exact (ht.of_reverse_append.2.2.2 c hc).1
      · exact ht.child_lt_size hc
    rw [if_neg (Nat.ne_of_lt hlt)]
    rw [made.children_eq] at hc
    split_ifs at hc ⊢ with h1
    · obtain ⟨e, he, rfl⟩ := List.mem_map.1 hc
      rw [h.pending_typed e (List.mem_append_left _ (List.mem_reverse.2 he))]
      exact forms.isType_iff he
    · exact h.typed_child n c hc
  · split_ifs at hn with h1
    · rcases hn with hrole | hrole
      · exact .inl (h1 ▸ htype hrole)
      · exact .inr (h1 ▸ hparams hrole)
    · exact (h.typed_form n hn).extends hext
  · rw [hroots] at hmem
    obtain ⟨h1, h2⟩ := h.owner n t hmem
    have hn : n ≠ arena.size := by
      rintro rfl
      simp [Arena.typeRoots, Arena.doc?, Arena.node?_eq_none] at hmem
    rw [if_neg hn, if_neg (Nat.ne_of_lt (h.typed_lt t h1))]
    exact ⟨h1, h2⟩
  · intro e he
    rcases List.mem_cons.1 he with rfl | he
    · rw [if_pos rfl]
    · rw [if_neg (Nat.ne_of_lt (ht.pending_lt e (hold e he)))]
      exact h.pending_typed e (hold e he)
  · intro e he hrole
    rcases List.mem_cons.1 he with rfl | he
    · exact htype hrole
    · exact (h.pending_type e (hold e he) hrole).extends hext
  · intro e he hrole
    rcases List.mem_cons.1 he with rfl | he
    · exact (hparams hrole).1
    · exact (hext _ _ (h.pending_params e (hold e he) hrole)).1

/-- A pending node may change its role if the roles are no roles of types. -/
theorem rerole {role other : Role} {n : NodeId} (h : TypeInv typed ⟨arena, (role, n) :: rest⟩)
    (hrole : ¬ role.IsType) (hother : ¬ other.IsType) : TypeInv typed ⟨arena, (other, n) :: rest⟩ := by
  have h' := h.of_sublist (List.sublist_cons_self _ rest)
  refine ⟨h.typed_lt, h.typed_child, h.typed_form, h.owner, ?_, ?_, ?_⟩
  · refine List.forall_mem_cons.2 ⟨?_, h'.pending_typed⟩
    rw [h.pending_typed (role, n) List.mem_cons_self]
    exact iff_of_false hrole hother
  · exact List.forall_mem_cons.2 ⟨fun heq => absurd (.inl heq) hother, h'.pending_type⟩
  · exact List.forall_mem_cons.2 ⟨fun heq => absurd (.inr heq) hother, h'.pending_params⟩

theorem document {described statement : NodeId} {doc : Doc}
    (h : TypeInv typed
      ⟨arena, (doc.typeRoots.map (Role.type, ·)).reverse ++ (.stating described, statement) :: rest⟩)
    (hd : described < arena.size) (hnot : ¬ typed described) (documented : Documented arena described doc after) :
    TypeInv typed ⟨after, (.stating described, statement) :: rest⟩ := by
  have hext : arena.Extends after := documented.extends
  have h' := h.of_sublist (List.sublist_append_right _ _)
  refine ⟨fun n hn => ?_, fun n c hc => ?_, fun n hn => (h.typed_form n hn).extends hext, fun n t ht => ?_,
    h'.pending_typed, fun e he hrole => (h'.pending_type e he hrole).extends hext,
    fun e he hrole => (hext _ _ (h'.pending_params e he hrole)).1⟩
  · rw [documented.size]
    exact h.typed_lt n hn
  · rw [documented.children_eq] at hc
    exact h.typed_child n c hc
  · rw [Arena.typeRoots, documented.doc? hd] at ht
    by_cases h1 : n = described
    · rw [if_pos h1] at ht
      have hmem : (Role.type, t) ∈ (doc.typeRoots.map (Role.type, ·)).reverse :=
        List.mem_reverse.2 (List.mem_map_of_mem ht)
      exact ⟨(h.pending_typed _ (List.mem_append_left _ hmem)).2 (.inl rfl), h1 ▸ hnot⟩
    · rw [if_neg h1] at ht
      exact h.owner n t ht

theorem enroll {root script : NodeId} (h : TypeInv typed ⟨arena, (.script, script) :: rest⟩)
    (hr : arena.kind? root = some .root) (attached : Attached arena root script after) :
    TypeInv typed ⟨after, rest⟩ := by
  have hext : arena.Extends after := attached.extends hr
  have h' := h.of_sublist (List.sublist_cons_self _ rest)
  have hroot : ¬ typed root := fun ht => (h.typed_form root ht).ne_root hr
  have hscript : ¬ typed script := fun ht =>
    absurd ((h.pending_typed _ List.mem_cons_self).1 ht) (by simp [Role.IsType])
  refine ⟨fun n hn => ?_, fun n c hc => ?_, fun n hn => (h.typed_form n hn).extends hext, fun n t ht => ?_,
    h'.pending_typed, fun e he hrole => (h'.pending_type e he hrole).extends hext,
    fun e he hrole => (hext _ _ (h'.pending_params e he hrole)).1⟩
  · rw [attached.size]
    exact h.typed_lt n hn
  · rw [attached.children_eq (Arena.lt_of_kind? hr)] at hc
    split_ifs at hc with h1
    · rcases List.mem_append.1 hc with hc | hc
      · exact h.typed_child n c hc
      · rw [List.mem_singleton.1 hc, h1]
        exact iff_of_false hscript hroot
    · exact h.typed_child n c hc
  · rw [Arena.typeRoots, attached.doc?] at ht
    exact h.owner n t ht

/-- A node to be documented is in the arena and in no type. -/
theorem described_lt {pending : Pending} {described statement : NodeId} (h : TypeInv typed ⟨arena, pending⟩)
    (ht : TreeInv ⟨arena, pending⟩) (hd : DocInv ⟨arena, pending⟩)
    (hmem : (Role.stating described, statement) ∈ pending) : described < arena.size ∧ ¬ typed described := by
  have hstatement : ¬ typed statement := fun htyped => by
    simpa [Role.IsType] using (h.pending_typed _ hmem).1 htyped
  rcases hd.pending_stating _ hmem described rfl with rfl | ⟨-, hc⟩
  · exact ⟨ht.pending_lt _ hmem, hstatement⟩
  · exact ⟨ht.child_lt_size hc, fun htyped => hstatement ((h.typed_child _ _ hc).1 htyped)⟩

/-- Old nodes are in types as before. -/
theorem step (h : TypeInv typed s) (ht : s.TreeInv) (hd : s.DocInv) (hs : Step s s') :
    ∃ typed', TypeInv typed' s' ∧ ∀ n < s.arena.size, typed' n ↔ typed n := by
  cases hs with
  | make forms made =>
    refine ⟨_, h.make ht forms made, fun n hn => ?_⟩
    rw [if_neg (Nat.ne_of_lt hn)]
  | serve serves =>
    refine ⟨typed, h.rerole ?_ ?_, fun _ _ => Iff.rfl⟩ <;> cases serves <;> simp [Role.IsType]
  | aim => exact ⟨typed, h.rerole (by simp [Role.IsType]) (by simp [Role.IsType]), fun _ _ => Iff.rfl⟩
  | document documented =>
    obtain ⟨hlt, hnot⟩ := h.described_lt ht hd (List.mem_append_right _ List.mem_cons_self)
    exact ⟨typed, h.document hlt hnot documented, fun _ _ => Iff.rfl⟩
  | enroll hr attached => exact ⟨typed, h.enroll hr attached, fun _ _ => Iff.rfl⟩
  | abandon hsub => exact ⟨typed, h.of_sublist hsub, fun _ _ => Iff.rfl⟩

end TypeInv

namespace DocInv

theorem of_sublist {pending : Pending} (h : DocInv ⟨arena, pending⟩) (hr : rest.Sublist pending) :
    DocInv ⟨arena, rest⟩ :=
  ⟨h.doc_parent, fun e he => h.pending_doc e (hr.subset he), fun e he => h.pending_stating e (hr.subset he)⟩

theorem make {kind : Kind} {span : Span} {role : Role} {children : Pending}
    (h : DocInv ⟨arena, children.reverse ++ rest⟩) (ht : TreeInv ⟨arena, children.reverse ++ rest⟩)
    (forms : Forms kind children role) (made : Made arena kind span (children.map Prod.snd) after) :
    DocInv ⟨after, (role, arena.size) :: rest⟩ := by
  have hext := made.extends
  have hkind : after.kind? arena.size = some kind := by rw [made.kind?, if_pos rfl]
  have hch := ht.of_reverse_append.2.2.2
  have hold : ∀ e ∈ rest, e ∈ children.reverse ++ rest := fun e he => List.mem_append_right _ he
  refine ⟨fun n p hn hp => ?_, ?_, ?_⟩
  · rw [made.doc?] at hn
    rw [made.parent? fun c hc => (hch c hc).1] at hp
    split_ifs at hp with h1
    · cases hp
      obtain ⟨e, he, rfl⟩ := List.mem_map.1 h1
      have hrole := h.pending_doc e (List.mem_append_left _ (List.mem_reverse.2 he)) hn
      exact ⟨kind, hkind, .inl (forms.holdsStatements he hrole)⟩
    · obtain ⟨k, hk, hor⟩ := h.doc_parent n p hn hp
      exact ⟨k, (hext _ _ hk).1, hor⟩
  · intro e he hdoc
    rw [made.doc?] at hdoc
    rcases List.mem_cons.1 he with rfl | he
    · exact absurd (by simp [Arena.doc?, Arena.node?_eq_none]) hdoc
    · exact h.pending_doc e (hold e he) hdoc
  · intro e he d hrole
    rcases List.mem_cons.1 he with rfl | he
    · obtain rfl : role = .stating d := hrole
      cases forms
      exact .inr ⟨hkind, by rw [made.children_eq, if_pos rfl]; simp⟩
    · rcases h.pending_stating e (hold e he) d hrole with heq | ⟨hk, hd⟩
      · exact .inl heq
      · obtain ⟨hk', hch'⟩ := hext _ _ hk
        exact .inr ⟨hk', by rw [hch' (by simp)]; exact hd⟩

/-- Documentation may stand on a pending node if that was made for a statement. -/
theorem rerole {role other : Role} {n : NodeId} (h : DocInv ⟨arena, (role, n) :: rest⟩)
    (hrole : role.IsStatement → other.IsStatement)
    (hother : ∀ d, other = .stating d → role = .stating d ∨ d = n) :
    DocInv ⟨arena, (other, n) :: rest⟩ := by
  have h' := h.of_sublist (List.sublist_cons_self _ rest)
  refine ⟨h.doc_parent, ?_, ?_⟩
  · exact List.forall_mem_cons.2
      ⟨fun hdoc => hrole (h.pending_doc (role, n) List.mem_cons_self hdoc), h'.pending_doc⟩
  · refine List.forall_mem_cons.2 ⟨fun d hd => ?_, h'.pending_stating⟩
    rcases hother d hd with heq | heq
    · exact h.pending_stating (role, n) List.mem_cons_self d heq
    · exact .inl heq

theorem document {described statement : NodeId} {doc : Doc}
    (h : DocInv ⟨arena, (.stating described, statement) :: rest⟩)
    (ht : TreeInv ⟨arena, (.stating described, statement) :: rest⟩)
    (documented : Documented arena described doc after) :
    DocInv ⟨after, (.stating described, statement) :: rest⟩ := by
  have hmem : (Role.stating described, statement) ∈ (Role.stating described, statement) :: rest :=
    List.mem_cons_self
  obtain ⟨hnot, -⟩ := List.nodup_cons.1 ht.pending_nodup
  -- the described node is the statement, which has no parent, or the child of an expression statement
  have hdescribed : described < arena.size ∧ (∀ e ∈ rest, e.2 ≠ described) ∧
      ∀ p, arena.parent? described = some p → arena.kind? p = some .expressionStatement := by
    rcases h.pending_stating _ hmem described rfl with rfl | ⟨hk, hc⟩
    · refine ⟨ht.pending_lt _ hmem, fun e he heq => hnot (List.mem_map.2 ⟨e, he, heq⟩), fun p hp => ?_⟩
      rw [ht.pending_free _ hmem] at hp
      cases hp
    · have hp := (ht.mem_children _ _).1 hc
      refine ⟨ht.child_lt_size hc, fun e he heq => ?_, fun p hp' => ?_⟩
      · rw [← heq, ht.pending_free e (List.mem_cons_of_mem _ he)] at hp
        cases hp
      · rw [hp] at hp'
        exact Option.some.inj hp' ▸ hk
  obtain ⟨hlt, hrest, hparent⟩ := hdescribed
  refine ⟨fun n p hn hp => ?_, fun e he hdoc => ?_, fun e he d hd => ?_⟩
  · rw [documented.parent?] at hp
    rw [documented.kind?]
    by_cases h1 : n = described
    · exact ⟨_, hparent p (h1 ▸ hp), .inr rfl⟩
    · rw [documented.doc? hlt, if_neg h1] at hn
      exact h.doc_parent n p hn hp
  · rw [documented.doc? hlt] at hdoc
    split_ifs at hdoc with h1
    · rcases List.mem_cons.1 he with rfl | he
      · trivial
      · exact absurd h1 (hrest e he)
    · exact h.pending_doc e he hdoc
  · rw [documented.kind?, documented.children_eq]
    exact h.pending_stating e he d hd

theorem enroll {root script : NodeId} (h : DocInv ⟨arena, (.script, script) :: rest⟩)
    (ht : TreeInv ⟨arena, (.script, script) :: rest⟩) (hr : arena.kind? root = some .root)
    (attached : Attached arena root script after) : DocInv ⟨after, rest⟩ := by
  have hext := attached.extends hr
  have h' := h.of_sublist (List.sublist_cons_self _ rest)
  have hne : script ≠ root := fun heq => ht.pending_kind _ List.mem_cons_self (heq ▸ hr)
  refine ⟨fun n p hn hp => ?_, fun e he hdoc => ?_, fun e he d hd => ?_⟩
  · rw [attached.doc?] at hn
    rw [attached.parent? (ht.pending_lt _ List.mem_cons_self) hne] at hp
    rw [attached.kind?]
    split_ifs at hp with h1
    · -- a script is not documented
      exact absurd (h.pending_doc _ List.mem_cons_self (h1 ▸ hn)) id
    · exact h.doc_parent n p hn hp
  · rw [attached.doc?] at hdoc
    exact h'.pending_doc e he hdoc
  · rcases h'.pending_stating e he d hd with heq | ⟨hk, hc⟩
    · exact .inl heq
    · obtain ⟨hk', hch⟩ := hext _ _ hk
      exact .inr ⟨hk', by rw [hch (by simp)]; exact hc⟩

theorem step (h : s.DocInv) (ht : s.TreeInv) (hs : Step s s') : s'.DocInv := by
  cases hs with
  | make forms made => exact h.make ht forms made
  | serve serves =>
    refine h.rerole ?_ ?_ <;> cases serves <;> simp [Role.IsStatement]
  | aim => exact h.rerole (by simp [Role.IsStatement]) (by simp)
  | document documented =>
    exact (h.of_sublist (List.sublist_append_right _ _)).document
      (ht.of_sublist ((List.sublist_append_right _ _).map Prod.snd)) documented
  | enroll hr attached => exact h.enroll ht hr attached
  | abandon hsub => exact h.of_sublist hsub

end DocInv

/-- All that assembly keeps. -/
structure Inv (s : Assembly) : Prop where
  tree : s.TreeInv
  types : ∃ typed, TypeInv typed s
  docs : s.DocInv

theorem Inv.step (h : s.Inv) (hs : Step s s') : s'.Inv := by
  obtain ⟨typed, ht⟩ := h.types
  obtain ⟨typed', ht', -⟩ := ht.step h.tree h.docs hs
  exact ⟨h.tree.step hs, ⟨typed', ht'⟩, h.docs.step h.tree hs⟩

theorem Inv.steps (h : s.Inv) (hs : Steps s s') : s'.Inv := by
  induction hs with
  | refl => exact h
  | tail _ hs ih => exact ih.step hs

theorem Steps.kind?_root (hs : Steps s s') {n : NodeId} (hr : s.arena.kind? n = some .root) :
    s'.arena.kind? n = some .root := by
  induction hs with
  | refl => exact hr
  | tail _ hs ih => exact (hs.extends n _ ih).1

end Assembly

end ScriptIndex
