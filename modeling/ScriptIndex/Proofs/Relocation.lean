import Mathlib.Data.List.Forall2
import ScriptIndex.Proofs.Runs

/-! # Reading the same elsewhere

A reader does the same wherever it starts: in an arena that holds other nodes before, and at other positions
of a source. `Relocation` says how a second run differs from a first one, and `Build.Relocates x y R` that
the action `y` does elsewhere what `x` does: both fail alike, or both succeed with results related by `R`,
and the new nodes differ in nothing but indexes and positions. The rules below compose such pairs of
runs. -/

namespace ScriptIndex

def Tag.renamed (f : NodeId → NodeId) (tag : Tag) : Tag :=
  ⟨tag.name, tag.type.map f⟩

def Doc.renamed (f : NodeId → NodeId) (doc : Doc) : Doc :=
  ⟨doc.tags.map (·.renamed f)⟩

/-- The node with all indexes in it renamed. -/
def Node.renamed (f : NodeId → NodeId) (x : Node) : Node :=
  { x with parent := x.parent.map f, children := x.children.map f, doc := x.doc.map (·.renamed f) }

/-- Where a second run takes place: after the nodes of `base`, and at positions that `near` relates to
those of the first run. -/
structure Relocation where
  base : Arena
  near : Nat → Nat → Prop
  near_add : ∀ {a b : Nat} (n : Nat), near a b → near (a + n) (b + n)
  near_max : ∀ {a b c d : Nat}, near a b → near c d → near (max a c) (max b d)

namespace Relocation

variable (m : Relocation)

/-- The index in the second run of a node of the first run. -/
def node (n : NodeId) : NodeId := m.base.size + n

structure Spans (a b : Span) : Prop where
  start : m.near a.start b.start
  stop : m.near a.stop b.stop

structure Nodes (x y : Node) : Prop where
  kind : y.kind = x.kind
  span : m.Spans x.span y.span
  parent : y.parent = x.parent.map m.node
  children : y.children = x.children.map m.node
  doc : y.doc = x.doc.map (·.renamed m.node)

/-- The second arena holds the nodes of the base and, after them, those of the first arena. -/
structure Arenas (left right : Arena) : Prop where
  size : right.size = m.base.size + left.size
  old : ∀ n < m.base.size, right.node? n = m.base.node? n
  new : ∀ n x, left.node? n = some x → ∃ y, right.node? (m.node n) = some y ∧ m.Nodes x y

/-- `n'` is the node `n` of an arena of the given size. -/
structure Ids (size : Nat) (n n' : NodeId) : Prop where
  lt : n < size
  eq : n' = m.node n

abbrev Lists (size : Nat) : List NodeId → List NodeId → Prop := List.Forall₂ (m.Ids size)

structure Errors (e e' : SyntaxError) : Prop where
  cause : e'.cause = e.cause
  span : m.Spans e.span e'.span
  token : e'.token = e.token

/-- Both runs end in the same way. That an index lies outside the arena is none of the ways. -/
inductive Failures : Failure → Failure → Prop
  | rejected {e e' : SyntaxError} (h : m.Errors e e') : Failures (.rejected e) (.rejected e')
  | exhausted : Failures .exhausted .exhausted

/-- The outcomes of two runs, the first of which started from an arena of the given size. -/
inductive Outcomes {α β : Type} (R : Nat → α → β → Prop) (size : Nat) :
    EStateM.Result Failure Arena α → EStateM.Result Failure Arena β → Prop
  | ok {a : α} {b : β} {left right : Arena} (arenas : m.Arenas left right) (le : size ≤ left.size)
      (results : R left.size a b) : Outcomes R size (.ok a left) (.ok b right)
  | error {e e' : Failure} {left right : Arena} (arenas : m.Arenas left right) (failures : m.Failures e e') :
      Outcomes R size (.error e left) (.error e' right)

/-- Results that do not depend on where a run takes place. -/
def Same {α : Type} (_ : Nat) (a b : α) : Prop := b = a

variable {m}

theorem node_inj {n n' : NodeId} : m.node n = m.node n' ↔ n = n' :=
  Nat.add_left_cancel_iff

theorem Ids.mono {size size' : Nat} {n n' : NodeId} (h : m.Ids size n n') (hle : size ≤ size') :
    m.Ids size' n n' :=
  ⟨Nat.lt_of_lt_of_le h.lt hle, h.eq⟩

theorem Lists.mono {size size' : Nat} {l l' : List NodeId} (h : m.Lists size l l') (hle : size ≤ size') :
    m.Lists size' l l' :=
  h.imp fun _ _ h => h.mono hle

theorem Lists.eq_map {size : Nat} {l l' : List NodeId} (h : m.Lists size l l') :
    (∀ n ∈ l, n < size) ∧ l' = l.map m.node := by
  induction h with
  | nil => exact ⟨by simp, rfl⟩
  | cons h _ ih => exact ⟨List.forall_mem_cons.2 ⟨h.lt, ih.1⟩, by rw [h.eq, ih.2]; rfl⟩

namespace Arenas
variable {left right left' right' : Arena} (h : m.Arenas left right)
include h

theorem exists_node? {n : NodeId} (hn : n < left.size) :
    ∃ x y, left.node? n = some x ∧ right.node? (m.node n) = some y ∧ m.Nodes x y := by
  obtain ⟨x, hx⟩ := Arena.exists_node? hn
  obtain ⟨y, hy, hxy⟩ := h.new n x hx
  exact ⟨x, y, hx, hy, hxy⟩

theorem kind? {n n' : NodeId} (hn : m.Ids left.size n n') :
    ∃ kind, left.kind? n = some kind ∧ right.kind? n' = some kind := by
  obtain ⟨x, y, hx, hy, hxy⟩ := h.exists_node? hn.lt
  refine ⟨x.kind, by simp [Arena.kind?, hx], ?_⟩
  simp [Arena.kind?, hn.eq, hy, hxy.kind]

/-- Nodes made over nodes of the first run are related. -/
theorem made {kind : Kind} {span span' : Span} {children : List NodeId} (hs : m.Spans span span')
    (hc : ∀ c ∈ children, c < left.size) (hl : Made left kind span children left')
    (hr : Made right kind span' (children.map m.node) right') : m.Arenas left' right' := by
  have hmem : ∀ n, m.node n ∈ children.map m.node ↔ n ∈ children := fun n =>
    ⟨fun hn => by
      obtain ⟨c, hc, heq⟩ := List.mem_map.1 hn
      exact node_inj.1 heq ▸ hc, List.mem_map_of_mem⟩
  refine ⟨?_, fun n hn => ?_, fun n x hx => ?_⟩
  · rw [hl.size, hr.size, h.size]
    rfl
  · have hne : n ≠ m.base.size + left.size := Nat.ne_of_lt (Nat.lt_add_right _ hn)
    -- the children come after the nodes of the base
    have hnc : n ∉ children.map m.node := by
      intro hc
      obtain ⟨c, -, rfl⟩ := List.mem_map.1 hc
      exact absurd hn (Nat.not_lt.2 (Nat.le_add_right _ _))
    rw [hr.node?, h.size, if_neg hne, if_neg hnc]
    exact h.old n hn
  · rw [hl.node?] at hx
    rw [hr.node?, h.size]
    by_cases h1 : n = left.size
    · rw [if_pos h1] at hx
      cases hx
      rw [if_pos (by rw [h1]; rfl)]
      exact ⟨_, rfl, rfl, hs, rfl, rfl, rfl⟩
    · have hne : m.node n ≠ m.base.size + left.size := fun heq => h1 (Nat.add_left_cancel heq)
      rw [if_neg h1] at hx
      rw [if_neg hne]
      by_cases h2 : n ∈ children
      · obtain ⟨x', y, hx', hy, hxy⟩ := h.exists_node? (hc n h2)
        rw [if_pos h2, hx'] at hx
        cases hx
        rw [if_pos ((hmem n).2 h2), hy]
        exact ⟨_, rfl, hxy.kind, hxy.span, rfl, hxy.children, hxy.doc⟩
      · rw [if_neg h2] at hx
        rw [if_neg (mt (hmem n).1 h2)]
        exact h.new n x hx

theorem documented {n : NodeId} {doc : Doc} (hl : Documented left n doc left')
    (hr : Documented right (m.node n) (doc.renamed m.node) right') : m.Arenas left' right' := by
  refine ⟨?_, fun k hk => ?_, fun k x hx => ?_⟩
  · rw [hl.size, hr.size, h.size]
  · have hne : k ≠ m.node n := fun heq =>
      absurd (heq ▸ hk) (Nat.not_lt.2 (Nat.le_add_right _ _))
    rw [hr.node?, if_neg hne]
    exact h.old k hk
  · rw [hl.node?] at hx
    rw [hr.node?]
    by_cases h1 : k = n
    · rw [if_pos h1] at hx
      obtain ⟨x', hx', rfl⟩ := Option.map_eq_some_iff.1 hx
      obtain ⟨y, hy, hxy⟩ := h.new k x' hx'
      rw [if_pos (by rw [h1]), hy]
      exact ⟨_, rfl, hxy.kind, hxy.span, hxy.parent, hxy.children, rfl⟩
    · rw [if_neg h1] at hx
      rw [if_neg (mt node_inj.1 h1)]
      exact h.new k x hx

end Arenas

end Relocation

namespace Build
open Relocation

variable {α β γ δ : Type}

/-- From arenas whose first has at least the given size, `y` does elsewhere what `x` does. -/
def Relocates (m : Relocation) (size : Nat) (x : Build α) (y : Build β) (R : Nat → α → β → Prop) : Prop :=
  ∀ left right, m.Arenas left right → size ≤ left.size → m.Outcomes R left.size (x left) (y right)

namespace Relocates
variable {m : Relocation} {size : Nat} {R : Nat → α → β → Prop} {S : Nat → γ → δ → Prop}

theorem done {a : α} {b : β} (h : ∀ size', size ≤ size' → R size' a b) :
    Relocates m size (pure a) (pure b) R :=
  fun left _ harenas hle => .ok harenas (Nat.le_refl _) (h left.size hle)

theorem fails {e e' : Failure} (h : m.Failures e e') :
    Relocates m size (throw e : Build α) (throw e' : Build β) R :=
  fun _ _ harenas _ => .error harenas h

theorem rejects {cause : Cause} {span span' : Span} (h : m.Spans span span') (token : Option TokenKind) :
    Relocates m size (reject cause span token : Build α) (reject cause span' token : Build β) R :=
  fails (.rejected ⟨rfl, h, rfl⟩)

theorem seq {x : Build α} {y : Build β} {f : α → Build γ} {g : β → Build δ} (hx : Relocates m size x y R)
    (hf : ∀ size' a b, size ≤ size' → R size' a b → Relocates m size' (f a) (g b) S) :
    Relocates m size (x >>= f) (y >>= g) S := by
  intro left right harenas hle
  have h := hx left right harenas hle
  show m.Outcomes S left.size (EStateM.bind x f left) (EStateM.bind y g right)
  unfold EStateM.bind
  generalize x left = r at h
  generalize y right = r' at h
  cases h with
  | error harenas' hfail => exact .error harenas' hfail
  | @ok a b mid mid' harenas' hle' hab =>
    have h' := hf mid.size a b (Nat.le_trans hle hle') hab mid mid' harenas' (Nat.le_refl _)
    show m.Outcomes S left.size (f a mid) (g b mid')
    generalize f a mid = q at h'
    generalize g b mid' = q' at h'
    cases h' with
    | error harenas'' hfail => exact .error harenas'' hfail
    | ok harenas'' hle'' hcd => exact .ok harenas'' (Nat.le_trans hle' hle'') hcd

/-- Nothing but the results is changed after the actions. -/
theorem map {x : Build α} {y : Build β} {f : α → γ} {g : β → δ} (hx : Relocates m size x y R)
    (h : ∀ size' a b, R size' a b → S size' (f a) (g b)) :
    Relocates m size (f <$> x) (g <$> y) S := by
  intro left right harenas hle
  have h' := hx left right harenas hle
  show m.Outcomes S left.size (EStateM.map f x left) (EStateM.map g y right)
  unfold EStateM.map
  generalize x left = r at h'
  generalize y right = r' at h'
  cases h' with
  | error harenas' hfail => exact .error harenas' hfail
  | ok harenas' hle' hab => exact .ok harenas' hle' (h _ _ _ hab)

theorem node {kind : Kind} {span span' : Span} {children children' : List NodeId} (hs : m.Spans span span')
    (hc : m.Lists size children children') :
    Relocates m size (Build.node kind span children) (Build.node kind span' children') m.Ids := by
  intro left right harenas hle
  obtain ⟨hlt, rfl⟩ := (Lists.mono hc hle).eq_map
  have hlt' : ∀ c ∈ children.map m.node, c < right.size := by
    intro c hmem
    obtain ⟨n, hn, rfl⟩ := List.mem_map.1 hmem
    rw [harenas.size]
    exact Nat.add_lt_add_left (hlt n hn) _
  obtain ⟨left', hl, hmade⟩ := run_node kind span hlt
  obtain ⟨right', hr, hmade'⟩ := run_node kind span' hlt'
  rw [hl, hr]
  refine .ok (harenas.made hs hlt hmade hmade') ?_ ⟨?_, harenas.size⟩ <;> rw [hmade.size]
  · exact Nat.le_succ _
  · exact Nat.lt_succ_self _

theorem setDoc {n n' : NodeId} {doc doc' : Doc} (hn : m.Ids size n n') (hdoc : doc' = doc.renamed m.node) :
    Relocates m size (update (·.setDoc n doc)) (update (·.setDoc n' doc')) Same := by
  intro left right harenas hle
  obtain ⟨hlt, rfl⟩ := hn.mono hle
  subst hdoc
  have hlt' : m.node n < right.size := by
    rw [harenas.size]
    exact Nat.add_lt_add_left hlt _
  obtain ⟨left', hl, hdoc⟩ := Arena.setDoc_of_lt doc hlt
  obtain ⟨right', hr, hdoc'⟩ := Arena.setDoc_of_lt (doc.renamed m.node) hlt'
  rw [run_update_ok (f := (·.setDoc n doc)) hl, run_update_ok (f := (·.setDoc (m.node n) _)) hr]
  exact .ok (harenas.documented hdoc hdoc') (Nat.le_of_eq hdoc.size.symm) rfl

/-- Results that are related whatever the arena are related one by one. -/
theorem mapM {f : α → Build γ} {g : β → Build δ} {P : α → β → Prop} {Q : γ → δ → Prop}
    (hf : ∀ size a b, P a b → Relocates m size (f a) (g b) (fun _ => Q)) :
    ∀ {l : List α} {l' : List β} {size : Nat}, List.Forall₂ P l l' →
      Relocates m size (l.mapM f) (l'.mapM g) (fun _ => List.Forall₂ Q)
  | [], [], _, .nil => by
    rw [List.mapM_nil, List.mapM_nil]
    exact done fun _ _ => .nil
  | a :: l, b :: l', _, .cons hab hl => by
    rw [List.mapM_cons, List.mapM_cons]
    exact seq (hf _ a b hab) fun _ c d _ hcd => seq (mapM hf hl) fun _ cs ds _ hcs =>
      done fun _ _ => .cons hcd hcs

end Relocates

end Build

namespace Reader
open Relocation

variable {σ α β γ δ : Type} {m : Relocation} {I : σ → σ → Prop} {size : Nat}

/-- The same for actions that read inputs related by `I`. -/
def Relocates (m : Relocation) (I : σ → σ → Prop) (size : Nat) (x : Reader σ α) (y : Reader σ β)
    (R : Nat → α → β → Prop) : Prop :=
  ∀ s s', I s s' → Build.Relocates m size (x s) (y s') fun size r r' => R size r.1 r'.1 ∧ I r.2 r'.2

/-- The action makes the same node elsewhere. -/
def Moves (m : Relocation) (I : σ → σ → Prop) (x : Reader σ NodeId) : Prop :=
  ∀ size, Relocates m I size x x m.Ids

/-- Both loops go on or stop, with related items. -/
inductive Turns (R : α → β → Prop) : Turn α → Turn β → Prop
  | stop : Turns R .stop .stop
  | last {a : α} {b : β} (h : R a b) : Turns R (.last a) (.last b)
  | more {a : α} {b : β} (h : R a b) : Turns R (.more a) (.more b)

namespace Relocates
variable {R : Nat → α → β → Prop} {S : Nat → γ → δ → Prop}

theorem done {a : α} {b : β} (h : ∀ size', size ≤ size' → R size' a b) :
    Relocates m I size (pure a : Reader σ α) (pure b) R :=
  fun _ _ hs => Build.Relocates.done fun size' hle => ⟨h size' hle, hs⟩

theorem fails {e e' : Failure} (h : m.Failures e e') :
    Relocates m I size (throw e : Reader σ α) (throw e' : Reader σ β) R :=
  fun _ _ _ => Build.Relocates.fails h

theorem seq {x : Reader σ α} {y : Reader σ β} {f : α → Reader σ γ} {g : β → Reader σ δ}
    (hx : Relocates m I size x y R)
    (hf : ∀ size' a b, size ≤ size' → R size' a b → Relocates m I size' (f a) (g b) S) :
    Relocates m I size (x >>= f) (y >>= g) S :=
  fun s s' hs => Build.Relocates.seq (hx s s' hs) fun size' r r' hle hr => hf size' r.1 r'.1 hle hr.1 r.2 r'.2 hr.2

theorem seqSame {x y : Reader σ α} {f : α → Reader σ γ} {g : α → Reader σ δ}
    (hx : Relocates m I size x y Same)
    (hf : ∀ size' a, size ≤ size' → Relocates m I size' (f a) (g a) S) :
    Relocates m I size (x >>= f) (y >>= g) S := by
  refine seq hx fun size' a b hle hab => ?_
  cases hab
  exact hf size' a hle

theorem lift {x : Build α} {y : Build β} (hx : Build.Relocates m size x y R) :
    Relocates m I size (liftM x : Reader σ α) (liftM y) R := by
  intro s s' hs
  have hmap (γ : Type) (z : Build γ) (s : σ) : (liftM z : Reader σ γ) s = (·, s) <$> z := by
    rw [map_eq_pure_bind]
    rfl
  rw [hmap, hmap]
  exact hx.map fun _ _ _ hab => ⟨hab, hs⟩

theorem reads : Relocates m I size (get : Reader σ σ) get (fun _ => I) :=
  fun _ _ hs => Build.Relocates.done fun _ _ => ⟨hs, hs⟩

theorem puts {s s' : σ} (h : I s s') : Relocates m I size (set s : Reader σ PUnit) (set s') Same :=
  fun _ _ _ => Build.Relocates.done fun _ _ => ⟨rfl, h⟩

theorem updates {f g : σ → σ} (h : ∀ s s', I s s' → I (f s) (g s')) :
    Relocates m I size (modify f : Reader σ PUnit) (modify g) Same :=
  fun s s' hs => Build.Relocates.done fun _ _ => ⟨rfl, h s s' hs⟩

theorem branch {c c' : Prop} [Decidable c] [Decidable c'] (hc : c' ↔ c) {x z : Reader σ α} {y w : Reader σ β}
    (hx : Relocates m I size x y R) (hz : Relocates m I size z w R) :
    Relocates m I size (if c then x else z) (if c' then y else w) R := by
  by_cases h : c
  · rw [if_pos h, if_pos (hc.2 h)]
    exact hx
  · rw [if_neg h, if_neg (mt hc.1 h)]
    exact hz

/-- A loop that makes a node in each turn. -/
theorem collect {turn : Reader σ (Turn NodeId)}
    (h : ∀ size, Relocates m I size turn turn fun size => Turns (m.Ids size)) :
    ∀ turns size : Nat, Relocates m I size (Reader.collect turn turns) (Reader.collect turn turns) m.Lists
  | 0, _ => fails .exhausted
  | turns + 1, size => by
    refine seq (h size) fun size' t t' _ ht => ?_
    cases ht with
    | stop => exact done fun _ _ => .nil
    | last hn => exact done fun _ hle => .cons (hn.mono hle) .nil
    | more hn =>
      refine seq (collect h turns size') fun _ items items' hle hitems => ?_
      exact done fun _ hle' => .cons (hn.mono (Nat.le_trans hle hle')) (Lists.mono hitems hle')

end Relocates

end Reader

end ScriptIndex
