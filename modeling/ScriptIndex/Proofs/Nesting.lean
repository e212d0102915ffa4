import ScriptIndex.Proofs.Runs

/-! # Spans in order

`Arena.Row`: nodes stand one after the other between two positions. In an arena that is `Sound`, the children of
every node stand in a row within its span, and what was read of a documentation comment stands in that comment.
`Build.Nests e kinds x arena Q` says that the action `x` leaves a sound arena sound, whether it succeeds or
fails; the nodes that were there keep their spans, so that rows stay rows. -/

namespace ScriptIndex

/-- The tokens of a source as they are read, and the length of the source. -/
structure Extent where
  stream : Stream
  stop : Nat
  ends : ∀ t, stream.last = .ok t → t.span = ⟨stop, stop⟩
  docs : ∀ t ∈ stream.tokens, ∀ text, t.doc = some text →
    text.span.stop = text.span.start + text.bytes.length ∧ text.span.stop ≤ stop

namespace Arena

def span? (arena : Arena) (node : NodeId) : Option Span := (arena.node? node).map (·.span)

/-- The nodes stand one after the other between two positions. -/
def Row (arena : Arena) : Nat → List NodeId → Nat → Prop
  | start, [], stop => start ≤ stop
  | start, n :: ns, stop => ∃ span, arena.span? n = some span ∧ start ≤ span.start ∧ span.start ≤ span.stop ∧
      arena.Row span.stop ns stop

/-- The nodes of an arena have their kinds, spans and children in the other as well. The nodes that are in the
other only are of the given kinds. -/
structure Grows (kinds : Kind → Prop) (arena after : Arena) : Prop where
  size : arena.size ≤ after.size
  kind? : ∀ n < arena.size, after.kind? n = arena.kind? n
  span? : ∀ n < arena.size, after.span? n = arena.span? n
  children : ∀ n < arena.size, after.children n = arena.children n
  new : ∀ n kind, arena.size ≤ n → after.kind? n = some kind → kinds kind

/-- The node is what documentation before a statement describes that begins at `start`: the statement itself,
or the expression in it, which is in no other expression statement. -/
structure Aims (arena : Arena) (described statement : NodeId) (start : Nat) : Prop where
  self_or : described = statement ∨
    arena.kind? statement = some .expressionStatement ∧ described ∈ arena.children statement
  only : ∀ p, arena.kind? p = some .expressionStatement → described ∈ arena.children p → p = statement
  starts : ∃ span, arena.span? statement = some span ∧ span.start = start

/-- Types on a node were read from the comment before a token, and a statement that the comment describes begins
with that token. -/
structure Annotated (arena : Arena) (t : Token) (described : NodeId) (types : List NodeId) : Prop where
  statement : ∃ statement, arena.Aims described statement t.span.start
  text : ∃ text, t.doc = some text ∧ ∀ type ∈ types, arena.Row text.span.start [type] text.span.stop

/-- Every node has its children in a row within its span, and they are older than it. -/
structure Sound (e : Extent) (arena : Arena) : Prop where
  rows : ∀ n span, arena.span? n = some span →
    arena.Row span.start (arena.children n) span.stop ∧ span.stop ≤ e.stop
  older : ∀ n, ∀ c ∈ arena.children n, c < n
  docs : ∀ n doc, arena.doc? n = some doc → ∃ t ∈ e.stream.tokens, arena.Annotated t n doc.typeRoots

section
variable {e : Extent} {kinds : Kind → Prop} {arena mid after : Arena} {start stop pos : Nat} {n d st : NodeId}
  {ns ms : List NodeId} {span : Span}

theorem span?_eq_some_iff : arena.span? n = some span ↔ ∃ x, arena.node? n = some x ∧ x.span = span :=
  Option.map_eq_some_iff

theorem lt_of_span? (h : arena.span? n = some span) : n < arena.size := by
  obtain ⟨x, hx, -⟩ := span?_eq_some_iff.1 h
  exact lt_of_node? hx

namespace Row

theorem le : ∀ {start : Nat} {ns : List NodeId}, arena.Row start ns stop → start ≤ stop
  | _, [], h => h
  | _, _ :: _, ⟨_, _, hstart, hle, hrest⟩ => Nat.le_trans hstart (Nat.le_trans hle hrest.le)

theorem mono_right {stop' : Nat} (h : stop ≤ stop') : ∀ {start : Nat} {ns : List NodeId},
    arena.Row start ns stop → arena.Row start ns stop'
  | _, [], hrow => Nat.le_trans hrow h
  | _, _ :: _, ⟨span, hspan, hstart, hle, hrest⟩ => ⟨span, hspan, hstart, hle, hrest.mono_right h⟩

theorem append : ∀ {start : Nat} {ns : List NodeId}, arena.Row start ns pos → arena.Row pos ms stop →
    arena.Row start (ns ++ ms) stop
  | _, [], h, h' => by
    cases ms with
    | nil => exact Nat.le_trans h h'
    | cons m ms =>
      obtain ⟨span, hspan, hstart, hrest⟩ := h'
      exact ⟨span, hspan, Nat.le_trans h hstart, hrest⟩
  | _, _ :: _, ⟨span, hspan, hstart, hle, hrest⟩, h' => ⟨span, hspan, hstart, hle, hrest.append h'⟩

theorem mono_left {start' : Nat} (h : arena.Row start ns stop) (hle : start' ≤ start) : arena.Row start' ns stop := by
  have hnone : arena.Row start' [] start := hle
  exact hnone.append h

theorem lt_size : ∀ {start : Nat} {ns : List NodeId}, arena.Row start ns stop → ∀ n ∈ ns, n < arena.size
  | _, [], _ => List.forall_mem_nil _
  | _, _ :: _, ⟨_, hspan, _, _, hrest⟩ => List.forall_mem_cons.2 ⟨lt_of_span? hspan, hrest.lt_size⟩

theorem grows (hg : arena.Grows kinds after) : ∀ {start : Nat} {ns : List NodeId}, arena.Row start ns stop →
    after.Row start ns stop
  | _, [], h => h
  | _, _ :: _, ⟨span, hspan, hstart, hle, hrest⟩ =>
    ⟨span, (hg.span? _ (lt_of_span? hspan)).trans hspan, hstart, hle, hrest.grows hg⟩

end Row

namespace Grows

theorem refl (kinds : Kind → Prop) (arena : Arena) : arena.Grows kinds arena := by
  refine ⟨Nat.le_refl _, fun _ _ => rfl, fun _ _ => rfl, fun _ _ => rfl, fun n kind hn hkind => ?_⟩
  exact absurd hn (Nat.not_le_of_gt (lt_of_kind? hkind))

theorem trans (h : arena.Grows kinds mid) (h' : mid.Grows kinds after) : arena.Grows kinds after where
  size := Nat.le_trans h.size h'.size
  kind? n hn := (h'.kind? n (Nat.lt_of_lt_of_le hn h.size)).trans (h.kind? n hn)
  span? n hn := (h'.span? n (Nat.lt_of_lt_of_le hn h.size)).trans (h.span? n hn)
  children n hn := (h'.children n (Nat.lt_of_lt_of_le hn h.size)).trans (h.children n hn)
  new n kind hn hkind := by
    rcases Nat.lt_or_ge n mid.size with hlt | hge
    · exact h.new n kind hn ((h'.kind? n hlt).symm.trans hkind)
    · exact h'.new n kind hge hkind

theorem mono {kinds' : Kind → Prop} (h : arena.Grows kinds after) (hkinds : ∀ kind, kinds kind → kinds' kind) :
    arena.Grows kinds' after :=
  ⟨h.size, h.kind?, h.span?, h.children, fun n kind hn hkind => hkinds kind (h.new n kind hn hkind)⟩

end Grows

namespace Aims

/-- What documentation describes stays the same while no new expression statement is made over it. -/
theorem grows (h : arena.Aims d st start) (hg : arena.Grows kinds after)
    (hnew : ∀ p, arena.size ≤ p → after.kind? p = some .expressionStatement → d ∉ after.children p) :
    after.Aims d st start := by
  obtain ⟨span, hspan, hstart⟩ := h.starts
  have hst := lt_of_span? hspan
  refine ⟨?_, fun p hk hmem => ?_, span, (hg.span? st hst).trans hspan, hstart⟩
  · rw [hg.kind? st hst, hg.children st hst]
    exact h.self_or
  · rcases Nat.lt_or_ge p arena.size with hlt | hge
    · exact h.only p ((hg.kind? p hlt).symm.trans hk) (hg.children p hlt ▸ hmem)
    · exact absurd hmem (hnew p hge hk)

theorem lt_size (h : arena.Aims d st start) (hsound : arena.Sound e) : d < arena.size := by
  obtain ⟨span, hspan, -⟩ := h.starts
  rcases h.self_or with rfl | ⟨-, hmem⟩
  · exact lt_of_span? hspan
  · exact Nat.lt_trans (hsound.older st d hmem) (lt_of_span? hspan)

/-- Documentation describes a statement that was made last. -/
theorem itself (hsound : arena.Sound e) (hsize : arena.size = n + 1)
    (hstarts : ∃ span, arena.span? n = some span ∧ span.start = start) : arena.Aims n n start := by
  refine ⟨.inl rfl, fun p hk hmem => ?_, hstarts⟩
  have hp := lt_of_kind? hk
  rw [hsize] at hp
  exact absurd (hsound.older p n hmem) (Nat.not_lt_of_ge (Nat.le_of_lt_succ hp))

/-- Documentation describes the expression of an expression statement that was made last. -/
theorem expression (hsound : arena.Sound e) (hsize : arena.size = d + 2)
    (hk : arena.kind? (d + 1) = some .expressionStatement) (hmem : d ∈ arena.children (d + 1))
    (hstarts : ∃ span, arena.span? (d + 1) = some span ∧ span.start = start) : arena.Aims d (d + 1) start := by
  refine ⟨.inr ⟨hk, hmem⟩, fun p hp hmem' => ?_, hstarts⟩
  have hp := lt_of_kind? hp
  rw [hsize] at hp
  exact Nat.le_antisymm (Nat.le_of_lt_succ hp) (hsound.older p d hmem')

end Aims

theorem Annotated.grows {t : Token} {types : List NodeId} (h : arena.Annotated t d types)
    (hg : arena.Grows kinds after)
    (hnew : ∀ p, arena.size ≤ p → after.kind? p = some .expressionStatement → d ∉ after.children p) :
    after.Annotated t d types := by
  obtain ⟨⟨st, haims⟩, text, htext, htypes⟩ := h
  exact ⟨⟨st, haims.grows hg hnew⟩, text, htext, fun type htype => (htypes type htype).grows hg⟩

end

end Arena

section
variable {e : Extent} {kinds : Kind → Prop} {arena after : Arena} {kind : Kind} {span : Span}
  {children : List NodeId} {n : NodeId} {doc : Doc}

namespace Made

theorem span? (h : Made arena kind span children after) (n : NodeId) :
    after.span? n = if n = arena.size then some span else arena.span? n := by
  unfold Arena.span?
  rw [h.node?]
  split_ifs
  · rfl
  · simp [Function.comp_def]
  · rfl

theorem grows (h : Made arena kind span children after) (hk : kinds kind) : arena.Grows kinds after where
  size := h.size ▸ Nat.le_succ _
  kind? n hn := (h.kind? n).trans (if_neg (Nat.ne_of_lt hn))
  span? n hn := (h.span? n).trans (if_neg (Nat.ne_of_lt hn))
  children n hn := (h.children_eq n).trans (if_neg (Nat.ne_of_lt hn))
  new n kind' hn hkind := by
    have hlt := Arena.lt_of_kind? hkind
    rw [h.size] at hlt
    obtain rfl : n = arena.size := Nat.le_antisymm (Nat.le_of_lt_succ hlt) hn
    rw [h.kind?, if_pos rfl] at hkind
    exact Option.some.inj hkind ▸ hk

/-- A node is made over nodes that stand in a row. No expression statement is made over what is documented. -/
theorem sound (h : Made arena kind span children after) (hsound : arena.Sound e)
    (hrow : arena.Row span.start children span.stop) (hstop : span.stop ≤ e.stop)
    (hdoc : kind = .expressionStatement → ∀ c ∈ children, arena.doc? c = none) : after.Sound e := by
  have hg : arena.Grows (fun _ => True) after := h.grows trivial
  refine ⟨fun n span' hspan => ?_, fun n c hc => ?_, fun n doc hn => ?_⟩
  · rw [h.children_eq]
    rw [h.span?] at hspan
    split_ifs at hspan ⊢
    · cases hspan
      exact ⟨hrow.grows hg, hstop⟩
    · obtain ⟨hrow, hle⟩ := hsound.rows n span' hspan
      exact ⟨hrow.grows hg, hle⟩
  · rw [h.children_eq] at hc
    split_ifs at hc with hn
    · exact hn ▸ hrow.lt_size c hc
    · exact hsound.older n c hc
  · rw [h.doc?] at hn
    obtain ⟨t, ht, hannotated⟩ := hsound.docs n doc hn
    refine ⟨t, ht, hannotated.grows hg fun p hp hk hmem => ?_⟩
    have hlt := Arena.lt_of_kind? hk
    rw [h.size] at hlt
    obtain rfl : p = arena.size := Nat.le_antisymm (Nat.le_of_lt_succ hlt) hp
    rw [h.kind?, if_pos rfl] at hk
    rw [h.children_eq, if_pos rfl] at hmem
    cases hn.symm.trans (hdoc (Option.some.inj hk) n hmem)

end Made

namespace Documented

theorem span? (h : Documented arena n doc after) (m : NodeId) : after.span? m = arena.span? m := by
  unfold Arena.span?
  rw [h.node?]
  split_ifs <;> simp [Function.comp_def]

theorem grows (h : Documented arena n doc after) : arena.Grows kinds after where
  size := Nat.le_of_eq h.size.symm
  kind? m _ := h.kind? m
  span? m _ := h.span? m
  children m _ := h.children_eq m
  new m _ hm hkind := absurd hm (Nat.not_le_of_gt (Arena.lt_of_kind? (h.kind? m ▸ hkind)))

theorem sound {t : Token} (h : Documented arena n doc after) (hsound : arena.Sound e) (ht : t ∈ e.stream.tokens)
    (hn : n < arena.size) (hannotated : arena.Annotated t n doc.typeRoots) : after.Sound e := by
  have hg : arena.Grows (fun _ => True) after := h.grows
  have hnew (m p : NodeId) (hp : arena.size ≤ p) (hk : after.kind? p = some .expressionStatement) :
      m ∉ after.children p :=
    absurd hp (Nat.not_le_of_gt (h.size ▸ Arena.lt_of_kind? hk))
  refine ⟨fun m span hspan => ?_, fun m c hc => ?_, fun m doc' hm => ?_⟩
  · rw [h.children_eq]
    obtain ⟨hrow, hle⟩ := hsound.rows m span (h.span? m ▸ hspan)
    exact ⟨hrow.grows hg, hle⟩
  · exact hsound.older m c (h.children_eq m ▸ hc)
  · rw [h.doc? hn] at hm
    split_ifs at hm with heq
    · cases hm
      exact ⟨t, ht, heq ▸ hannotated.grows hg (hnew n)⟩
    · obtain ⟨t', ht', hannotated'⟩ := hsound.docs m doc' hm
      exact ⟨t', ht', hannotated'.grows hg (hnew m)⟩

end Documented

theorem Arena.sound_empty (e : Extent) : Arena.empty.Sound e := by
  refine ⟨fun n span h => ?_, fun n c h => ?_, fun n doc h => ?_⟩ <;> cases h

end

namespace Build

variable {α β : Type} {e : Extent} {kinds : Kind → Prop} {arena : Arena}

/-- From a sound arena the action comes to a sound arena. If it succeeds, the arena has grown by nodes of the
given kinds and satisfies `Q`. -/
def Nests (e : Extent) (kinds : Kind → Prop) (x : Build α) (arena : Arena) (Q : α → Arena → Prop) : Prop :=
  arena.Sound e → match x arena with
    | .ok a after => after.Sound e ∧ arena.Grows kinds after ∧ Q a after
    | .error _ after => after.Sound e

namespace Nests
variable {x : Build α} {P Q : α → Arena → Prop} {R : β → Arena → Prop}

theorem done {a : α} (h : Q a arena) : Nests e kinds (pure a) arena Q :=
  fun hsound => ⟨hsound, .refl kinds arena, h⟩

theorem fails (failure : Failure) : Nests e kinds (throw failure : Build α) arena Q :=
  fun hsound => hsound

theorem seq {f : α → Build β} (hx : Nests e kinds x arena P)
    (hf : ∀ a mid, mid.Sound e → arena.Grows kinds mid → P a mid → Nests e kinds (f a) mid R) :
    Nests e kinds (x >>= f) arena R := by
  intro hsound
  have h := hx hsound
  cases hr : x arena with
  | error failure mid =>
    rw [hr] at h
    rw [run_bind_error hr]
    exact h
  | ok a mid =>
    rw [hr] at h
    obtain ⟨hmid, hgrows, hP⟩ := h
    have h := hf a mid hmid hgrows hP hmid
    rw [run_bind_ok hr]
    cases hr' : f a mid with
    | error failure after =>
      rw [hr'] at h
      exact h
    | ok b after =>
      rw [hr'] at h
      exact ⟨h.1, hgrows.trans h.2.1, h.2.2⟩

theorem weaken {kinds' : Kind → Prop} (hx : Nests e kinds x arena P) (hkinds : ∀ kind, kinds kind → kinds' kind)
    (h : ∀ a after, after.Sound e → arena.Grows kinds after → P a after → Q a after) :
    Nests e kinds' x arena Q := by
  intro hsound
  have hr := hx hsound
  split
  · next heq =>
    rw [heq] at hr
    exact ⟨hr.1, hr.2.1.mono hkinds, h _ _ hr.1 hr.2.1 hr.2.2⟩
  · next heq =>
    rw [heq] at hr
    exact hr

theorem node {kind : Kind} {span : Span} {children : List NodeId} {Q : NodeId → Arena → Prop}
    (hrow : arena.Row span.start children span.stop) (hstop : span.stop ≤ e.stop) (hk : kinds kind)
    (hdoc : kind = .expressionStatement → ∀ c ∈ children, arena.doc? c = none)
    (h : ∀ after, Made arena kind span children after → Q arena.size after) :
    Nests e kinds (Build.node kind span children) arena Q := by
  intro hsound
  obtain ⟨after, hrun, hmade⟩ := run_node kind span hrow.lt_size
  rw [hrun]
  exact ⟨hmade.sound hsound hrow hstop hdoc, hmade.grows hk, h after hmade⟩

theorem setDoc {t : Token} {n : NodeId} {doc : Doc} (ht : t ∈ e.stream.tokens) (hn : n < arena.size)
    (hannotated : arena.Annotated t n doc.typeRoots) :
    Nests e kinds (Build.update (·.setDoc n doc)) arena fun _ _ => True := by
  intro hsound
  obtain ⟨after, hset, hdocumented⟩ := Arena.setDoc_of_lt doc hn
  rw [run_update_ok (f := (·.setDoc n doc)) hset]
  exact ⟨hdocumented.sound hsound ht hn hannotated, hdocumented.grows, trivial⟩

/-- What holds of each item and is kept while the arena grows holds of all items. -/
theorem mapM {f : α → Build β} {p : β → Arena → Prop}
    (hp : ∀ b arena after, arena.Grows kinds after → p b arena → p b after) : ∀ {l : List α} {arena : Arena},
    (∀ a ∈ l, ∀ mid, arena.Grows kinds mid → Nests e kinds (f a) mid p) →
      Nests e kinds (l.mapM f) arena fun bs after => ∀ b ∈ bs, p b after
  | [], _, _ => by
    rw [List.mapM_nil]
    exact done (List.forall_mem_nil _)
  | a :: l, arena, h => by
    rw [List.mapM_cons]
    obtain ⟨ha, hl⟩ := List.forall_mem_cons.1 h
    refine seq (ha arena (.refl _ _)) fun b mid _ hgrows hb => ?_
    have hl := fun a hmem mid' hgrows' => hl a hmem mid' (hgrows.trans hgrows')
    refine seq (mapM hp hl) fun bs after _ hgrows' hbs => ?_
    exact done (List.forall_mem_cons.2 ⟨hp b mid after hgrows' hb, hbs⟩)

end Nests

end Build

namespace Reader

variable {σ α β : Type} {e : Extent} {kinds : Kind → Prop} {arena : Arena} {s : σ}

def Nests (e : Extent) (kinds : Kind → Prop) (x : Reader σ α) (s : σ) (arena : Arena)
    (Q : α → σ → Arena → Prop) : Prop :=
  Build.Nests e kinds (x s) arena fun r => Q r.1 r.2

/-- Which inputs arise, and the position that has been read up to. -/
structure Track (σ : Type) where
  Proper : σ → Prop
  pos : σ → Nat

/-- The nodes stand in a row in what is read between two inputs. -/
structure Track.Lays (m : Track σ) (s : σ) (ns : List NodeId) (s' : σ) (arena : Arena) : Prop where
  proper : m.Proper s'
  row : arena.Row (m.pos s) ns (m.pos s')

/-- What an action gives are nodes that it makes in a row. -/
def Lays (e : Extent) (kinds : Kind → Prop) (m : Track σ) (x : Reader σ α) (nodes : α → List NodeId) : Prop :=
  ∀ s arena, m.Proper s → Nests e kinds x s arena fun a s' => m.Lays s (nodes a) s'

def Turn.nodes : Turn NodeId → List NodeId
  | .stop => []
  | .last n | .more n => [n]

namespace Track.Lays
variable {m : Track σ} {mid after : Arena} {s' s'' : σ} {ns ms : List NodeId}

theorem refl (h : m.Proper s) (arena : Arena) : m.Lays s [] s arena := ⟨h, Nat.le_refl _⟩

/-- Nodes that were laid before are there still, in front of those that are laid now. -/
theorem trans (h : m.Lays s ns s' mid) (hg : mid.Grows kinds after) (h' : m.Lays s' ms s'' after) :
    m.Lays s (ns ++ ms) s'' after :=
  ⟨h'.proper, (h.row.grows hg).append h'.row⟩

/-- Nothing was made before. -/
theorem since (h' : m.Lays s' ns s'' after) (h : m.Lays s [] s' arena) : m.Lays s ns s'' after :=
  ⟨h'.proper, h'.row.mono_left h.row⟩

end Track.Lays

namespace Nests
variable {x y : Reader σ α} {P Q : α → σ → Arena → Prop} {R : β → σ → Arena → Prop}

theorem done {a : α} (h : Q a s arena) : Nests e kinds (pure a : Reader σ α) s arena Q :=
  Build.Nests.done h

theorem fails (failure : Failure) : Nests e kinds (throw failure : Reader σ α) s arena Q :=
  Build.Nests.fails (α := α × σ) failure

theorem rejects (cause : Cause) (span : Span) (token : Option TokenKind) :
    Nests e kinds (liftM (Build.reject cause span token : Build α) : Reader σ α) s arena Q :=
  Build.Nests.fails (α := α × σ) _

theorem seq {f : α → Reader σ β} (hx : Nests e kinds x s arena P)
    (hf : ∀ a s' mid, mid.Sound e → arena.Grows kinds mid → P a s' mid → Nests e kinds (f a) s' mid R) :
    Nests e kinds (x >>= f) s arena R :=
  Build.Nests.seq hx fun r => hf r.1 r.2

theorem weaken (hx : Nests e kinds x s arena P)
    (h : ∀ a s' after, after.Sound e → arena.Grows kinds after → P a s' after → Q a s' after) :
    Nests e kinds x s arena Q :=
  Build.Nests.weaken hx (fun _ => id) fun r => h r.1 r.2

theorem map {f : α → β} (hx : Nests e kinds x s arena fun a => R (f a)) : Nests e kinds (f <$> x) s arena R := by
  rw [map_eq_pure_bind]
  exact hx.seq fun _ _ _ _ _ h => done h

/-- An action on the arena alone leaves the input as it is. -/
theorem lift {x : Build α} (hx : Build.Nests e kinds x arena fun a after => Q a s after) :
    Nests e kinds (liftM x : Reader σ α) s arena Q :=
  Build.Nests.seq hx fun _ _ _ _ h => Build.Nests.done h

/-- Nothing is done after an action that never succeeds. -/
theorem stops {f : α → Reader σ β} (hx : Nests e kinds x s arena fun _ _ _ => False) :
    Nests e kinds (x >>= f) s arena R :=
  hx.seq fun _ _ _ _ _ h => h.elim

theorem readSeq {f : σ → Reader σ β} (h : Nests e kinds (f s) s arena R) : Nests e kinds (get >>= f) s arena R :=
  h

theorem puts {s' : σ} {Q : PUnit → σ → Arena → Prop} (h : Q ⟨⟩ s' arena) :
    Nests e kinds (set s' : Reader σ PUnit) s arena Q :=
  Build.Nests.done h

theorem updates {f : σ → σ} {Q : PUnit → σ → Arena → Prop} (h : Q ⟨⟩ (f s) arena) :
    Nests e kinds (modify f : Reader σ PUnit) s arena Q :=
  Build.Nests.done h

theorem branch {c : Prop} [Decidable c] (hx : c → Nests e kinds x s arena Q) (hy : ¬ c → Nests e kinds y s arena Q) :
    Nests e kinds (if c then x else y) s arena Q := by
  split
  · next h => exact hx h
  · next h => exact hy h

/-- The nodes of an action are laid after those that were laid before. -/
theorem laySeq {m : Track σ} {nodes : α → List NodeId} {f : α → Reader σ β} {s₀ : σ} {ns : List NodeId}
    (h : m.Lays s₀ ns s arena) (hx : Lays e kinds m x nodes)
    (hf : ∀ a s' mid, m.Lays s₀ (ns ++ nodes a) s' mid → Nests e kinds (f a) s' mid R) :
    Nests e kinds (x >>= f) s arena R :=
  seq (hx s arena h.proper) fun a s' mid _ hgrows ha => hf a s' mid (h.trans hgrows ha)

/-- Nothing is made by an action. -/
theorem skipSeq {m : Track σ} {f : α → Reader σ β} {s₀ : σ} {ns : List NodeId} (h : m.Lays s₀ ns s arena)
    (hx : Lays e kinds m x fun _ => []) (hf : ∀ a s' mid, m.Lays s₀ ns s' mid → Nests e kinds (f a) s' mid R) :
    Nests e kinds (x >>= f) s arena R :=
  laySeq h hx fun a s' mid ha => hf a s' mid (ns.append_nil ▸ ha)

theorem collect {m : Track σ} {turn : Reader σ (Turn NodeId)} (h : Lays e kinds m turn Turn.nodes) :
    ∀ turns : Nat, Lays e kinds m (Reader.collect turn turns) id
  | 0, _, _, _ => fails _
  | turns + 1, s, arena, hs => by
    refine seq (h s arena hs) fun t s' mid _ _ ht => ?_
    cases t with
    | stop => exact done ht
    | last n => exact done ht
    | more n =>
      exact seq (collect h turns s' mid ht.proper) fun ns s'' after _ hgrows hns => done (ht.trans hgrows hns)

theorem extend {step : α → Reader σ (Option α)} {I : α → σ → Arena → Prop}
    (h : ∀ a s arena, I a s arena → Nests e kinds (step a) s arena fun r => I (r.getD a)) :
    ∀ (turns : Nat) (a : α) (s : σ) (arena : Arena), I a s arena →
      Nests e kinds (Reader.extend step turns a) s arena I
  | 0, _, _, _, _ => fails _
  | turns + 1, a, s, arena, ha => by
    refine seq (h a s arena ha) fun r s' mid _ _ hr => ?_
    cases r with
    | none => exact done hr
    | some b => exact extend h turns b s' mid hr

end Nests

end Reader

end ScriptIndex
