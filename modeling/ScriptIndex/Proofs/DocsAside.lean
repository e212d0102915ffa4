import Mathlib.Data.List.Forall2
import ScriptIndex.Proofs.ScriptAppend

/-! # Reading with and without documentation

With and without documentation a script reads as the same tree. Where documentation is read, the nodes of its
types stand between the others, so that the run without it is followed by a growing list of the nodes that its
own nodes stand for (`DocsAside.Among`). The runs part only where a comment holds a malformed type. -/

namespace ScriptIndex
open Assembly

/-- `f` takes the nodes of `left` to nodes of `right`, in their order and with their links, and no other node of
`right` is linked to those. -/
structure Arena.Embeds (f : NodeId → NodeId) (left right : Arena) : Prop where
  lt : ∀ n < left.size, f n < right.size
  mono : ∀ m n, m < n → n < left.size → f m < f n
  inside : ∀ n x, left.node? n = some x → (∀ p ∈ x.parent, p < left.size) ∧ ∀ c ∈ x.children, c < left.size
  node : ∀ n x, left.node? n = some x → ∃ doc, right.node? (f n) = some { x.renamed f with doc }
  apart : ∀ k, (∀ m < left.size, f m ≠ k) → ∀ n < left.size,
    right.parent? k ≠ some (f n) ∧ right.parent? (f n) ≠ some k ∧ f n ∉ right.children k ∧ k ∉ right.children (f n)

/-- What reading a script comes to without documentation, and with it. -/
inductive Build.Aside :
    EStateM.Result Failure Arena NodeId → EStateM.Result Failure Arena NodeId → Prop
  /-- The same tree, and no documentation in the first arena. -/
  | ok {f : NodeId → NodeId} {n : NodeId} {left right : Arena} (lt : n < left.size) (embeds : left.Embeds f right)
      (docs : ∀ k, left.doc? k = none) : Aside (.ok n left) (.ok (f n) right)
  | refused {e : Failure} {left right : Arena} : Aside (.error e left) (.error e right)
  | malformed {r : EStateM.Result Failure Arena NodeId} {e : SyntaxError} {right : Arena}
      (cause : e.cause = .malformedType) : Aside r (.error (.rejected e) right)

namespace DocsAside

/-- The node that the `n`th node of the first run stands for. -/
abbrev Ids (ids : List NodeId) (n n' : NodeId) : Prop := ids[n]? = some n'

structure Nodes (ids : List NodeId) (x y : Node) : Prop where
  kind : y.kind = x.kind
  span : y.span = x.span
  parent : Option.Rel (Ids ids) x.parent y.parent
  children : List.Forall₂ (Ids ids) x.children y.children
  doc : x.doc = none

/-- The nodes of `left` stand for those in the list. -/
structure Among (ids : List NodeId) (left right : Arena) : Prop where
  length : ids.length = left.size
  sorted : ids.Pairwise (· < ·)
  lt : ∀ n ∈ ids, n < right.size
  node : ∀ n n' x, Ids ids n n' → left.node? n = some x → ∃ y, right.node? n' = some y ∧ Nodes ids x y

structure Inputs (s s' : Input) : Prop where
  stream : s.stream = s'.stream.withoutDocs
  lastEnd : s.lastEnd = s'.lastEnd

/-- The second run reads documentation. -/
def comparison : Comparison where
  World := List NodeId
  le := (· <+: ·)
  Arenas := Among
  Ids := Ids
  Spans := Eq
  Tokens t t' := t = { t' with doc := none }
  Inputs := Inputs
  After := Inputs
  Fails := Eq
  LostLeft _ := False
  LostRight e := ∃ error, e = .rejected error ∧ error.cause = .malformedType

variable {ids ids' : List NodeId} {left right left' right' : Arena} {n n' : NodeId} {x y : Node}

theorem Ids.mono (h : Ids ids n n') (hle : ids <+: ids') : Ids ids' n n' := by
  obtain ⟨rest, rfl⟩ := hle
  obtain ⟨hlt, hn⟩ := List.getElem?_eq_some_iff.1 h
  rw [Ids, List.getElem?_append_left hlt]
  exact h

theorem Nodes.mono (h : Nodes ids x y) (hle : ids <+: ids') : Nodes ids' x y := by
  obtain ⟨kind, span, parent, children, doc⟩ := x
  obtain ⟨kind', span', parent', children', doc'⟩ := y
  refine ⟨h.kind, h.span, ?_, h.children.imp fun _ _ h => h.mono hle, h.doc⟩
  cases h.parent with
  | none => exact .none
  | some hp => exact .some (Ids.mono hp hle)

namespace Among
variable (h : Among ids left right)
include h

theorem lt_left (hn : Ids ids n n') : n < left.size := by
  rw [← h.length]
  exact (List.getElem?_eq_some_iff.1 hn).1

theorem lt_right (hn : Ids ids n n') : n' < right.size :=
  h.lt n' (List.mem_of_getElem? hn)

theorem inj {m : NodeId} (hm : Ids ids m n') (hn : Ids ids n n') : m = n := by
  have hnd : ids.Nodup := h.sorted.imp Nat.ne_of_lt
  exact (List.getElem?_inj (List.getElem?_eq_some_iff.1 hm).1 hnd).1 (hm.trans hn.symm)

/-- Related lists of nodes have the same members. -/
theorem mem_iff {l l' : List NodeId} (hl : List.Forall₂ (Ids ids) l l') (hn : Ids ids n n') : n' ∈ l' ↔ n ∈ l := by
  induction hl with
  | nil => simp
  | @cons a b l l' hab _ ih =>
    rw [List.mem_cons, List.mem_cons, ih]
    refine or_congr_left ⟨fun heq => h.inj hn (heq ▸ hab), fun heq => ?_⟩
    exact Option.some.inj (hn.symm.trans (heq ▸ hab))

theorem forall_lt {l l' : List NodeId} (hl : List.Forall₂ (Ids ids) l l') :
    (∀ n ∈ l, n < left.size) ∧ ∀ n ∈ l', n < right.size := by
  induction hl with
  | nil => simp
  | cons hab _ ih =>
    exact ⟨List.forall_mem_cons.2 ⟨h.lt_left hab, ih.1⟩, List.forall_mem_cons.2 ⟨h.lt_right hab, ih.2⟩⟩

theorem getElem?_last : Ids (ids ++ [right.size]) left.size right.size := by
  rw [Ids, ← h.length, List.getElem?_concat_length]

theorem made {kind : Kind} {span : Span} {children children' : List NodeId}
    (hc : List.Forall₂ (Ids ids) children children') (hl : Made left kind span children left')
    (hr : Made right kind span children' right') :
    Among (ids ++ [right.size]) left' right' := by
  have hle : ids <+: ids ++ [right.size] := List.prefix_append _ _
  refine ⟨?_, ?_, ?_, fun n n' x hn hx => ?_⟩
  · rw [List.length_append, h.length, hl.size]
    rfl
  · refine List.pairwise_append.2 ⟨h.sorted, List.pairwise_singleton _ _, fun a ha b hb => ?_⟩
    rw [List.mem_singleton.1 hb]
    exact h.lt a ha
  · intro k hk
    rw [hr.size]
    rcases List.mem_append.1 hk with hk | hk
    · exact Nat.lt_succ_of_lt (h.lt k hk)
    · rw [List.mem_singleton.1 hk]
      exact Nat.lt_succ_self _
  · have hlast := h.getElem?_last
    rw [hl.node?] at hx
    rw [hr.node?]
    by_cases h1 : n = left.size
    · subst h1
      cases hlast.symm.trans hn
      rw [if_pos rfl] at hx ⊢
      cases hx
      exact ⟨_, rfl, rfl, rfl, .none, hc.imp fun _ _ h => h.mono hle, rfl⟩
    · have hold : Ids ids n n' := by
        have hlt : n < ids.length + 1 := by simpa using (List.getElem?_eq_some_iff.1 hn).1
        have hlt : n < ids.length := Nat.lt_of_le_of_ne (Nat.le_of_lt_succ hlt) (h.length ▸ h1)
        rw [Ids, List.getElem?_append_left hlt] at hn
        exact hn
      rw [if_neg h1] at hx
      rw [if_neg (Nat.ne_of_lt (h.lt_right hold))]
      by_cases h2 : n ∈ children
      · rw [if_pos h2] at hx
        rw [if_pos ((h.mem_iff hc hold).2 h2)]
        obtain ⟨x₀, hx₀, rfl⟩ := Option.map_eq_some_iff.1 hx
        obtain ⟨y, hy, hxy⟩ := h.node n n' x₀ hold hx₀
        rw [hy]
        have hxy := hxy.mono hle
        exact ⟨_, rfl, hxy.kind, hxy.span, .some hlast, hxy.children, hxy.doc⟩
      · rw [if_neg h2] at hx
        rw [if_neg (mt (h.mem_iff hc hold).1 h2)]
        obtain ⟨y, hy, hxy⟩ := h.node n n' x hold hx
        exact ⟨y, hy, hxy.mono hle⟩

/-- More nodes after those of the second arena, and documentation on one of them. -/
theorem documented {fresh : Arena} {doc : Doc} (hr : Documented (right.followedBy fresh) n doc right') :
    Among ids left right' := by
  refine ⟨h.length, h.sorted, fun k hk => ?_, fun k k' x hk hx => ?_⟩
  · rw [hr.size, Arena.size_followedBy]
    exact Nat.lt_add_right _ (h.lt k hk)
  · obtain ⟨y, hy, hxy⟩ := h.node k k' x hk hx
    rw [hr.node?, Arena.node?_followedBy_old fresh (h.lt_right hk), hy]
    split
    · exact ⟨_, rfl, hxy.kind, hxy.span, hxy.parent, hxy.children, hxy.doc⟩
    · exact ⟨y, rfl, hxy⟩

end Among

end DocsAside

namespace Build
open Relocation

/-- Documentation is put on a node after the nodes of its types are added, or it holds a malformed type. -/
inductive Documents (arena : Arena) (n : NodeId) : EStateM.Result Failure Arena Doc → Prop
  | ok {doc : Doc} {fresh after : Arena} (documented : Documented (arena.followedBy fresh) n doc after) :
      Documents arena n (.ok doc after)
  | malformed {e : SyntaxError} {after : Arena} (cause : e.cause = .malformedType) :
      Documents arena n (.error (.rejected e) after)

theorem document_documents {arena : Arena} {n : NodeId} (hn : n < arena.size) (text : Cursor) :
    Documents arena n (document n text arena) := by
  have hcursors : (after arena).Cursors text text := ⟨rfl, rfl⟩
  have hdoc := doc_relocates hcursors .empty arena (.empty arena) (Nat.le_refl 0)
  have hfinishes := doc_finishes text .empty
  unfold document
  generalize doc text .empty = r at hdoc hfinishes
  generalize hright : doc text arena = r' at hdoc
  cases hdoc with
  | @ok d d' fresh right harenas hle hd =>
    rw [harenas.eq] at hright
    have hlt : n < (arena.followedBy fresh).size := by
      rw [Arena.size_followedBy]
      exact Nat.lt_add_right _ hn
    obtain ⟨after, hset, hdocumented⟩ := Arena.setDoc_of_lt d' hlt
    rw [run_bind_ok hright, run_bind_ok (run_update_ok (f := (·.setDoc n d')) hset)]
    exact .ok hdocumented
  | error harenas hfail =>
    rw [run_bind_error hright]
    cases hfail.eq
    cases hfinishes with
    | rejected h => exact .malformed h.cause
    -- no node is asked for in the text
    | unknownNode => cases hfail

end Build

namespace DocsAside

theorem Inputs.head {s s' : Input} (h : Inputs s s') : comparison.Heads s.head s'.head := by
  obtain ⟨⟨tokens, last⟩, lastEnd⟩ := s
  obtain ⟨⟨tokens', last'⟩, lastEnd'⟩ := s'
  cases h.stream
  cases tokens' with
  | cons t rest => exact .ok rfl
  | nil =>
    cases last' with
    | ok t => exact .ok rfl
    | error e => exact .error rfl

theorem Inputs.read {s s' : Input} {t t' : Token} (h : Inputs s s') (hl : s.head = .ok t) (hr : s'.head = .ok t') :
    Inputs (s.read t) (s'.read t') := by
  have hheads := h.head
  rw [hl, hr] at hheads
  cases hheads with
  | ok ht =>
    refine ⟨?_, congrArg (·.span.stop) ht⟩
    rw [Input.read, Input.read, h.stream]
    obtain ⟨⟨tokens', last'⟩, lastEnd'⟩ := s'
    cases tokens' <;> rfl

theorem node_follows (kind : Kind) {span span' : Span} {children children' : List NodeId} (hspan : span = span')
    (hc : List.Forall₂ (Ids ids) children children') :
    Build.Follows comparison ids (Build.node kind span children) (Build.node kind span' children') Ids := by
  subst hspan
  intro left right harenas
  obtain ⟨hlt, hlt'⟩ := harenas.forall_lt hc
  obtain ⟨left', hl, hmade⟩ := Build.run_node kind span hlt
  obtain ⟨right', hr, hmade'⟩ := Build.run_node kind span hlt'
  rw [hl, hr]
  exact .ok (List.prefix_append _ _) (harenas.made hc hmade hmade') harenas.getElem?_last

theorem describe_follows {t t' : Token} (ht : t = { t' with doc := none }) (hn : Ids ids n n') :
    Build.Follows comparison ids (Build.describe t n) (Build.describe t' n') fun _ _ _ => True := by
  intro left right harenas
  obtain ⟨kind, span, bytes, doc⟩ := t'
  cases ht
  cases doc with
  | none => exact .ok (List.prefix_refl _) harenas trivial
  | some text =>
    have h := Build.document_documents (harenas.lt_right hn) ⟨text.span.start, text.bytes⟩
    show comparison.Outcomes _ ids (.ok () left)
      ((Build.document n' ⟨text.span.start, text.bytes⟩ >>= fun _ => pure ()) right)
    generalize hrun : Build.document n' ⟨text.span.start, text.bytes⟩ right = r at h
    cases h with
    | ok documented =>
      rw [Build.run_bind_ok hrun]
      exact .ok (List.prefix_refl _) (harenas.documented documented) trivial
    | malformed cause =>
      rw [Build.run_bind_error hrun]
      exact .lostRight ⟨_, rfl, cause⟩

theorem sound : comparison.Sound where
  le_refl := List.prefix_refl
  le_trans := List.IsPrefix.trans
  ids_mono := Ids.mono
  kind h := by rw [h]
  bytes h := by rw [h]
  token_span h := by rw [h]; rfl
  stop_span h := by rw [h]; rfl
  span_from hs h := by rw [h, hs.lastEnd]; rfl
  reject _ _ h := by rw [h]; rfl
  exhausted := rfl
  after h := h
  head h := h.head
  read_after h hl hr _ := h.read hl hr
  read h hl hr _ := h.read hl hr
  turns h := .inl (by rw [h.stream]; exact List.length_map _)
  ended h := .inl h
  node kind hs hc := node_follows kind hs hc
  kind? h hn := by
    obtain ⟨x, hx⟩ := Arena.exists_node? (h.lt_left hn)
    obtain ⟨y, hy, hxy⟩ := h.node _ _ x hn hx
    exact ⟨x.kind, by simp [Arena.kind?, hx], by simp [Arena.kind?, hy, hxy.kind]⟩
  document ht hn := describe_follows ht hn

/-- The node that the `n`th node of the first run stands for, where there is one. -/
def image (ids : List NodeId) (n : NodeId) : NodeId := ids[n]?.getD 0

theorem Ids.image (h : Ids ids n n') : image ids n = n' := by
  simp [DocsAside.image, h]

theorem Ids.map_image {l l' : List NodeId} (h : List.Forall₂ (Ids ids) l l') : l' = l.map (DocsAside.image ids) := by
  induction h with
  | nil => rfl
  | cons h _ ih => rw [ih, List.map_cons, h.image]

theorem Nodes.renamed (h : Nodes ids x y) : y = { x.renamed (image ids) with doc := y.doc } := by
  obtain ⟨kind, span, parent, children, doc⟩ := x
  obtain ⟨kind', span', parent', children', doc'⟩ := y
  obtain ⟨hkind, hspan, hparent, hchildren, -⟩ := h
  cases hkind
  cases hspan
  have hp : parent' = parent.map (image ids) := by
    cases hparent with
    | none => rfl
    | some h => rw [Option.map_some, Ids.image h]
  have hc : children' = children.map (image ids) := Ids.map_image hchildren
  rw [hp, hc]
  rfl

theorem Among.doc?_left (h : Among ids left right) (n : NodeId) : left.doc? n = none := by
  rcases Nat.lt_or_ge n left.size with hn | hn
  · obtain ⟨x, hx⟩ := Arena.exists_node? hn
    obtain ⟨n', hn'⟩ : ∃ n', Ids ids n n' := ⟨_, List.getElem?_eq_getElem (h.length ▸ hn)⟩
    obtain ⟨y, -, hxy⟩ := h.node n n' x hn' hx
    rw [Arena.doc?, hx]
    exact hxy.doc
  · rw [Arena.doc?, Arena.node?_eq_none hn]
    rfl

/-- The links inside the second arena show that the other nodes are apart. -/
theorem Among.embeds (h : Among ids left right)
    (hmem : ∀ n c, c ∈ right.children n ↔ right.parent? c = some n) : left.Embeds (image ids) right := by
  have hids : ∀ n < left.size, Ids ids n (image ids n) := by
    intro n hn
    obtain ⟨n', hn'⟩ : ∃ n', Ids ids n n' := ⟨_, List.getElem?_eq_getElem (h.length ▸ hn)⟩
    rwa [hn'.image]
  have hnode : ∀ n x, left.node? n = some x → ∃ y, right.node? (image ids n) = some y ∧ Nodes ids x y :=
    fun n x hx => h.node n _ x (hids n (Arena.lt_of_node? hx)) hx
  have inside : ∀ n x, left.node? n = some x → (∀ p ∈ x.parent, p < left.size) ∧ ∀ c ∈ x.children, c < left.size := by
    intro n x hx
    obtain ⟨y, -, hxy⟩ := hnode n x hx
    refine ⟨fun p hp => ?_, (h.forall_lt hxy.children).1⟩
    have hparent := hxy.parent
    rw [Option.mem_def.1 hp] at hparent
    generalize y.parent = parent at hparent
    cases hparent with
    | some hp => exact h.lt_left hp
  refine ⟨fun n hn => h.lt_right (hids n hn), fun m n hmn hn => ?_, inside, fun n x hx => ?_, fun k hk n hn => ?_⟩
  · obtain ⟨hlt, himage⟩ := List.getElem?_eq_some_iff.1 (hids n hn)
    obtain ⟨hlt', himage'⟩ := List.getElem?_eq_some_iff.1 (hids m (Nat.lt_trans hmn hn))
    rw [← himage, ← himage']
    exact List.pairwise_iff_getElem.1 h.sorted m n hlt' hlt hmn
  · obtain ⟨y, hy, hxy⟩ := hnode n x hx
    exact ⟨y.doc, hxy.renamed ▸ hy⟩
  · obtain ⟨x, hx⟩ := Arena.exists_node? hn
    obtain ⟨y, hy, hxy⟩ := hnode n x hx
    have hparent : right.parent? (image ids n) ≠ some k := by
      rw [Arena.parent?, hy, hxy.renamed]
      intro hp
      obtain ⟨p, hp, hpk⟩ := Option.map_eq_some_iff.1 hp
      exact hk p ((inside n x hx).1 p hp) hpk
    have hchild : k ∉ right.children (image ids n) := by
      rw [Arena.children, hy, hxy.renamed]
      intro hc
      obtain ⟨c, hc, hck⟩ := List.mem_map.1 hc
      exact hk c ((inside n x hx).2 c hc) hck
    exact ⟨mt (hmem _ k).2 hchild, hparent, mt (hmem k _).1 hparent, hchild⟩

end DocsAside

namespace Build
open DocsAside

theorem script_tree (source : List UInt8) (options : Options) {n : NodeId} {after : Arena}
    (h : script source options .empty = .ok n after) : TreeInv ⟨after, [(.script, n)]⟩ := by
  have hruns := script_runs (P := []) source options .empty (by simp [Bounded])
  rw [h] at hruns
  exact TreeInv.empty.steps hruns

/-- With documentation a script reads as the same tree, unless a comment holds a malformed type. What is refused
without documentation is refused for the same reason with it, or for such a type. -/
theorem script_aside (source : List UInt8) (module : Option ModuleId) :
    Aside (script source ⟨module, false⟩ .empty) (script source ⟨module, true⟩ .empty) := by
  have hempty : Among [] .empty .empty :=
    ⟨rfl, List.Pairwise.nil, by simp, fun _ _ _ h => by cases h⟩
  have hspan (t t' : Token) (ht : t = { t' with doc := none }) : (⟨0, t.span.stop⟩ : Span) = ⟨0, t'.span.stop⟩ := by
    rw [ht]
  have hscript := ScriptReader.script_follows sound (fun _ _ h => h) hspan module [] _ _
    (⟨rfl, rfl⟩ : Inputs (.ofStream (Stream.ofBytes source).withoutDocs) (.ofStream (Stream.ofBytes source)))
  have h : comparison.Outcomes Ids [] (script source ⟨module, false⟩ .empty) (script source ⟨module, true⟩ .empty) :=
    hscript.map (fun _ _ _ hn => hn.1) .empty .empty hempty
  generalize script source ⟨module, false⟩ .empty = r at h
  generalize hr : script source ⟨module, true⟩ .empty = r' at h
  cases h with
  | @ok ids n n' left right _ harenas hn =>
    have harenas : Among ids left right := harenas
    have hn : Ids ids n n' := hn
    rw [← hn.image]
    exact .ok (harenas.lt_left hn) (harenas.embeds (script_tree source _ hr).mem_children) harenas.doc?_left
  | error _ hfails =>
    cases hfails
    exact .refused
  | lostLeft hlost => exact hlost.elim
  | lostRight hlost =>
    obtain ⟨error, rfl, cause⟩ := hlost
    exact .malformed cause

end Build

end ScriptIndex
