import Mathlib.Data.List.Flatten
import Mathlib.Tactic.SplitIfs
import ScriptIndex.Arena.Traversal
import ScriptIndex.Proofs.WalkOrder

/-! # Runs of traversals

`Ends c s x Q` says that a part `x` of a traversal, begun in the context `c`, ends in the same context. What
a traversal does at a node is told once, in `Arena.branch_ends`: it visits the node and goes through the
children, each in its context. A traversal by a policy notes the arrivals of the walk by that policy. -/

namespace ScriptIndex

variable {σ α β : Type}

namespace Traversal

/-- Begun in the context `c` and the state `s`, the action ends in the same context, with a result and a
state that satisfy `Q`. -/
def Ends (c : Context) (s : σ) (x : Traversal σ α) (Q : α → σ → Prop) : Prop :=
  ∃ a s', x ⟨c, s⟩ = (a, ⟨c, s'⟩) ∧ Q a s'

namespace Ends
variable {c : Context} {s : σ} {Q : α → σ → Prop} {R : β → σ → Prop}

theorem done {a : α} (h : Q a s) : Ends c s (pure a : Traversal σ α) Q :=
  ⟨a, s, rfl, h⟩

theorem seq {x : Traversal σ α} {f : α → Traversal σ β} (hx : Ends c s x Q)
    (hf : ∀ a s', Q a s' → Ends c s' (f a) R) : Ends c s (x >>= f) R := by
  obtain ⟨a, s', hrun, ha⟩ := hx
  obtain ⟨b, s'', hrun', hb⟩ := hf a s' ha
  refine ⟨b, s'', ?_, hb⟩
  show (x >>= f) ⟨c, s⟩ = _
  rw [← hrun']
  show (let (a, t) := x ⟨c, s⟩; f a t) = _
  rw [hrun]

theorem weaken {x : Traversal σ α} {Q' : α → σ → Prop} (hx : Ends c s x Q) (h : ∀ a s', Q a s' → Q' a s') :
    Ends c s x Q' := by
  obtain ⟨a, s', hrun, ha⟩ := hx
  exact ⟨a, s', hrun, h a s' ha⟩

/-- The module is put back. -/
theorem inModule {module : Option ModuleId} {x : Traversal σ α} (hx : Ends { c with module } s x Q) :
    Ends c s (inModule module x) Q := by
  obtain ⟨a, s', hrun, ha⟩ := hx
  refine ⟨a, s', ?_, ha⟩
  show (let (a, t) := x ⟨{ c with module }, s⟩; (a, _)) = _
  rw [hrun]

/-- The scope is closed. -/
theorem inScope {node : NodeId} {x : Traversal σ α} (hx : Ends { c with scopes := node :: c.scopes } s x Q) :
    Ends c s (inScope node x) Q := by
  obtain ⟨a, s', hrun, ha⟩ := hx
  refine ⟨a, s', ?_, ha⟩
  show (let (a, t) := x ⟨{ c with scopes := node :: c.scopes }, s⟩; (a, _)) = _
  rw [hrun]
  rfl

end Ends

theorem place_ends (c : Context) (s : σ) : Ends c s place (fun p s' => p = c.place ∧ s' = s) :=
  ⟨_, _, rfl, rfl, rfl⟩

theorem enters_ends (callback : Callback σ) (parent : Option NodeId) (node : NodeId) (c : Context) (s : σ) :
    Ends c s (enters callback parent node) (fun b s' => (b, s') = callback.enters c.place node parent s) :=
  ⟨_, _, rfl, rfl⟩

/-- The callback is told the node and its place, and what it answers is done. -/
theorem visit_ends {callback : Callback σ} {traverse : NodeId → Traversal σ (List Call)} {here : Context} {s : σ}
    {parent : Option NodeId} {node : NodeId} {Q : Call → σ → Prop}
    (h : Ends here s (follow traverse (callback.visit here.place node parent s)) fun started =>
      Q ⟨⟨node, parent, here.place, true⟩, started⟩) :
    Ends here s (visit callback traverse parent node) Q := by
  obtain ⟨started, s', hrun, hq⟩ := h
  refine ⟨⟨⟨node, parent, here.place, true⟩, started⟩, s', ?_, hq⟩
  show (let (started, t) := follow traverse (callback.visit here.place node parent s) ⟨here, s⟩
        (Call.mk ⟨node, parent, here.place, true⟩ started, t)) = _
  rw [hrun]

/-- A tree is traversed first, and the response goes on from there. -/
theorem follow_traverse {traverse : NodeId → Traversal σ (List Call)} {root : NodeId} {state before : σ}
    {resume : Place → σ → Response σ} {c : Context} {Q : List Call → σ → Prop}
    {R : List (NodeId × List Call) → σ → Prop} (htree : Ends c state (traverse root) Q)
    (hrest : ∀ calls s, Q calls s →
      Ends c s (follow traverse (resume c.place s)) fun started s' => R ((root, calls) :: started) s') :
    Ends c before (follow traverse (.traverse root state resume)) R := by
  obtain ⟨calls, s, hrun, hq⟩ := htree
  obtain ⟨started, s', hrun', hr⟩ := hrest calls s hq
  refine ⟨(root, calls) :: started, s', ?_, hr⟩
  show (let (calls, t) := traverse root ⟨c, state⟩
        let (started, t') := follow traverse (resume t.context.place t.state) t
        ((root, calls) :: started, t')) = _
  rw [hrun]
  dsimp only
  rw [hrun']

/-- Trees traversed one after the other leave the state that each makes of the one before. -/
theorem follow_through {traverse : NodeId → Traversal σ (List Call)} {k : Place → σ → Response σ}
    {f : σ → NodeId → σ} {c : Context} {Q : σ → Prop}
    (h : ∀ t s, Ends c s (traverse t) fun _ s' => s' = f s t) :
    ∀ (roots : List NodeId) (s before : σ),
      (∀ before, Ends c before (follow traverse (k c.place (roots.foldl f s))) fun _ => Q) →
      Ends c before (follow traverse (.through roots k c.place s)) fun _ => Q
  | [], _, before, hlast => hlast before
  | t :: roots, s, before, hlast => by
    refine follow_traverse (h t s) ?_
    rintro calls _ rfl
    exact follow_through h roots (f s t) (f s t) hlast

/-- Each traversal that a response starts begins in the context that the response is followed in. -/
theorem follow_forall {traverse : NodeId → Traversal σ (List Call)} {c : Context} {Q : NodeId → List Call → Prop}
    (h : ∀ t s, Ends c s (traverse t) fun calls _ => Q t calls) : ∀ (response : Response σ) (s : σ),
      Ends c s (follow traverse response) fun started _ => ∀ p ∈ started, Q p.1 p.2
  | .done state, _ => ⟨[], state, rfl, List.forall_mem_nil _⟩
  | .traverse root state resume, _ =>
    follow_traverse (h root state) fun _ s hcalls =>
      (follow_forall h (resume c.place s) s).weaken fun _ _ hstarted => List.forall_mem_cons.2 ⟨hcalls, hstarted⟩

/-- The nodes of a list are gone through one after the other, each in its context. -/
def EndsAll (branch : NodeId → Traversal σ (List Call)) :
    List (Context × NodeId) → σ → (List Call → σ → Prop) → Prop
  | [], s, Q => Q [] s
  | (c, n) :: rest, s, Q => Ends c s (branch n) fun calls s' =>
    EndsAll branch rest s' fun more => Q (calls ++ more)

theorem each_ends {branch : NodeId → Traversal σ (List Call)} {c : Context} :
    ∀ {nodes : List NodeId} {s : σ} {Q : List Call → σ → Prop},
      EndsAll branch (nodes.map (c, ·)) s Q → Ends c s (each branch nodes) Q
  | [], _, _, h => .done h
  | _ :: _, _, _, h => h.seq fun _ _ h => (each_ends h).seq fun _ _ h => .done h

namespace EndsAll
variable {branch : NodeId → Traversal σ (List Call)}

theorem weaken : ∀ {ps : List (Context × NodeId)} {s : σ} {Q Q' : List Call → σ → Prop},
    EndsAll branch ps s Q → (∀ calls s', Q calls s' → Q' calls s') → EndsAll branch ps s Q'
  | [], s, _, _, h, hq => hq [] s h
  | _ :: _, _, _, _, h, hq => Ends.weaken h fun calls _ h => weaken h fun more => hq (calls ++ more)

/-- What is told of each node adds up along the list. -/
theorem of_forall {P : Context × NodeId → σ → List Call → σ → Prop}
    {J : List (Context × NodeId) → σ → List Call → σ → Prop} (nil : ∀ s, J [] s [] s)
    (cons : ∀ {p ps s calls s' more s''}, P p s calls s' → J ps s' more s'' → J (p :: ps) s (calls ++ more) s'') :
    ∀ (ps : List (Context × NodeId)) (s : σ), (∀ p ∈ ps, ∀ s, Ends p.1 s (branch p.2) (P p s)) →
      EndsAll branch ps s (J ps s)
  | [], s, _ => nil s
  | p :: ps, s, h => Ends.weaken (h p List.mem_cons_self s) fun _ s' hp =>
    weaken (of_forall nil cons ps s' fun q hq => h q (List.mem_cons_of_mem p hq)) fun _ _ hj => cons hp hj

theorem of_append : ∀ {ps qs : List (Context × NodeId)} {s : σ} {Q : List Call → σ → Prop},
    EndsAll branch (ps ++ qs) s Q →
      EndsAll branch ps s fun calls s' => EndsAll branch qs s' fun more => Q (calls ++ more)
  | [], _, _, _, h => h
  | _ :: _, _, _, _, h => Ends.weaken h fun _ _ h => weaken (of_append h) fun _ _ h => weaken h fun _ _ h => by
    rwa [List.append_assoc]

end EndsAll

end Traversal

namespace Arena
open Traversal

variable {arena : Arena} {callback : Callback σ} {depth : Nat} {parent : Option NodeId} {node : NodeId}

/-- The context that a node is visited in. -/
def contextAt (arena : Arena) (around : Context) (node : NodeId) : Context :=
  match arena.kind? node with
  | some (.script module) => { around with module }
  | _ => around

/-- The children of a node, each with its context. -/
def childContexts (arena : Arena) (here : Context) (node : NodeId) (parent : Option NodeId) :
    List (Context × NodeId) :=
  let inner := if arena.opensScope node parent then { here with scopes := node :: here.scopes } else here
  match arena.children node with
  | [] => []
  | first :: rest =>
    (if arena.isFunctionDeclaration node then here else inner, first) :: rest.map (inner, ·)

theorem place_contextAt (around : Context) (node : NodeId) :
    (arena.contextAt around node).place = arena.placeAt around.place node := by
  unfold contextAt placeAt
  cases arena.kind? node with
  | none => rfl
  | some kind => cases kind <;> rfl

theorem map_childContexts (here : Context) (node : NodeId) (parent : Option NodeId) :
    (arena.childContexts here node parent).map (Prod.map Context.place id) =
      arena.childPlaces here.place node parent := by
  have hinner : (if arena.opensScope node parent then { here with scopes := node :: here.scopes } else here).place =
      if arena.opensScope node parent then here.place.enclosed else here.place := by
    split_ifs <;> rfl
  unfold childContexts childPlaces
  cases arena.children node with
  | nil => rfl
  | cons first rest =>
    simp only [List.map_cons, List.map_map, Prod.map, id]
    rw [← hinner]
    congr 1
    · split_ifs <;> rfl

theorem childContexts_eq (here : Context) (node : NodeId) (parent : Option NodeId) :
    arena.childContexts here node parent =
      ((arena.children node).take (if arena.isFunctionDeclaration node then 1 else 0)).map (here, ·) ++
      ((arena.children node).drop (if arena.isFunctionDeclaration node then 1 else 0)).map
        (if arena.opensScope node parent then { here with scopes := node :: here.scopes } else here, ·) := by
  unfold childContexts
  cases arena.children node with
  | nil => simp
  | cons first rest => cases arena.isFunctionDeclaration node <;> simp

/-- Nothing is called below a node that the callback refuses. -/
theorem branch_refused {around : Context} {s s' : σ} (h : callback.enters around.place node parent s = (false, s')) :
    Ends around s (arena.branch callback (depth + 1) parent node) fun calls t =>
      calls = [⟨⟨node, parent, around.place, false⟩, []⟩] ∧ t = s' := by
  refine (enters_ends callback parent node around s).seq fun b t hb => ?_
  obtain ⟨rfl, rfl⟩ := Prod.mk.inj (hb.trans h)
  refine (place_ends around t).seq ?_
  rintro _ _ ⟨rfl, rfl⟩
  exact .done ⟨rfl, rfl⟩

/-- A node that the callback lets in is visited in its context, and then its children, each in its own. -/
theorem branch_entered {around : Context} {s s' : σ} {Q : List Call → σ → Prop}
    (h : callback.enters around.place node parent s = (true, s'))
    (hvisit : Ends (arena.contextAt around node) s'
      (visit callback (arena.branch callback depth none) parent node) fun call t =>
        EndsAll (arena.branch callback depth (some node))
          (arena.childContexts (arena.contextAt around node) node parent) t fun calls => Q (call :: calls)) :
    Ends around s (arena.branch callback (depth + 1) parent node) Q := by
  refine (enters_ends callback parent node around s).seq fun b t hb => ?_
  obtain ⟨rfl, rfl⟩ := Prod.mk.inj (hb.trans h)
  rw [childContexts_eq] at hvisit
  have hplain (hk : arena.kind? node ≠ some .function) : arena.isFunctionDeclaration node = false := by
    simp [isFunctionDeclaration, isFunction, hk]
  rw [if_pos rfl]
  dsimp only
  split
  · next module hk =>
    have hhere : arena.contextAt around node = { around with module } := by simp [contextAt, hk]
    have hopens : arena.opensScope node parent = false := by simp [opensScope, hk]
    rw [hhere, hplain (by simp [hk]), hopens] at hvisit
    exact .inModule (hvisit.seq fun call _ h => (each_ends h).seq fun _ _ h => .done h)
  · next hk =>
    have hhere : arena.contextAt around node = around := by simp [contextAt, hk]
    have hopens : arena.opensScope node parent = true := by simp [opensScope, hk]
    rw [hhere, hopens] at hvisit
    exact hvisit.seq fun call _ h => (each_ends h.of_append).seq fun _ _ h => (Ends.inScope (each_ends h)).seq
      fun _ _ h => .done h
  · next hk =>
    have hhere : arena.contextAt around node = around := by simp [contextAt, hk]
    have hopens : arena.opensScope node parent = !parent.any arena.isFunction := by simp [opensScope, hk]
    rw [hhere, hplain (by simp [hk]), hopens] at hvisit
    refine hvisit.seq fun call _ h => ?_
    cases hbody : parent.any arena.isFunction with
    | true =>
      rw [hbody] at h
      exact (each_ends h).seq fun _ _ h => .done h
    | false =>
      rw [hbody] at h
      exact (Ends.inScope (each_ends h)).seq fun _ _ h => .done h
  · next hscript hfunction hblock =>
    have hhere : arena.contextAt around node = around := by
      unfold contextAt
      split
      · next hk => exact absurd hk (hscript _)
      · rfl
    have hopens : arena.opensScope node parent = false := by
      unfold opensScope
      split
      · next hk => exact absurd hk hfunction
      · next hk => exact absurd hk hblock
      · rfl
    rw [hhere, hplain hfunction, hopens] at hvisit
    exact hvisit.seq fun call _ h => (each_ends h).seq fun _ _ h => .done h

/-! ### Traversals and walks -/

/-- What a visit by a policy notes. -/
theorem visit_policy {policy : Policy} {note : σ → Arrival → σ} {traverse : NodeId → Traversal σ (List Call)}
    {here : Context} {s : σ} (h : ∀ t s, Ends here s (traverse t) fun _ s' =>
      s' = (arena.walkWithin policy depth here.place none t).foldl note s) :
    Ends here s (visit (policy.callback arena note) traverse parent node) fun _ s' =>
      s' = (arena.typeWalk policy .beforeOwner depth here.place node ++
        [(⟨node, parent, here.place, true⟩ : Arrival)] ++
        arena.typeWalk policy .afterOwner depth here.place node).foldl note s := by
  have hfold (s : σ) : (arena.typeRoots node).foldl
        (fun s t => (arena.walkWithin policy depth here.place none t).foldl note s) s =
      ((arena.typeRoots node).flatMap (arena.walkWithin policy depth here.place none)).foldl note s :=
    (List.foldl_flatMap ..).symm
  have hfollow : Ends here s (follow traverse ((policy.callback arena note).visit here.place node parent s))
      fun _ s' => s' = (arena.typeWalk policy .beforeOwner depth here.place node ++
        [(⟨node, parent, here.place, true⟩ : Arrival)] ++
        arena.typeWalk policy .afterOwner depth here.place node).foldl note s := by
    unfold Policy.callback typeWalk
    dsimp only
    cases policy.types with
    | never => exact ⟨[], _, rfl, by simp⟩
    | beforeOwner =>
      refine follow_through h _ _ _ fun _ => ⟨[], _, rfl, ?_⟩
      rw [hfold]
      simp
    | afterOwner =>
      refine follow_through (k := fun _ => .done) h _ _ _ fun _ => ⟨[], _, rfl, ?_⟩
      rw [hfold]
      simp
  exact visit_ends hfollow

/-- A traversal by a policy notes the arrivals of the walk by that policy. -/
theorem branch_policy {policy : Policy} {note : σ → Arrival → σ} : ∀ (depth : Nat) (parent : Option NodeId)
    (node : NodeId) (around : Context) (s : σ),
    Ends around s (arena.branch (policy.callback arena note) depth parent node) fun _ s' =>
      s' = (arena.walkWithin policy depth around.place parent node).foldl note s
  | 0, _, _, _, _ => .done rfl
  | depth + 1, parent, node, around, s => by
    cases henters : policy.enters node parent with
    | false =>
      rw [walkWithin_of_not_enters henters]
      have hlet : (policy.callback arena note).enters around.place node parent s =
          (false, note s ⟨node, parent, around.place, false⟩) := by
        simp [Policy.callback, henters]
      exact (branch_refused hlet).weaken fun _ _ h => h.2
    | true =>
      rw [walkWithin_of_enters henters, ← place_contextAt, List.foldl_append]
      have hlet : (policy.callback arena note).enters around.place node parent s = (true, s) := by
        simp [Policy.callback, henters]
      refine branch_entered hlet ((visit_policy fun t s => branch_policy depth none t _ s).weaken ?_)
      rintro _ t rfl
      rw [childWalk, ← map_childContexts, List.flatMap_map]
      exact EndsAll.of_forall (J := fun ps s _ s' => s' = (ps.flatMap fun p =>
          arena.walkWithin policy depth p.1.place (some node) p.2).foldl note s)
        (fun _ => rfl) (fun hp hj => by rw [List.flatMap_cons, List.foldl_append, ← hp, ← hj]) _ _
        fun p _ s => branch_policy depth (some node) p.2 p.1 s

end Arena

/-- The callback goes by a predicate on nodes and starts no traversals. -/
structure Callback.Plain (callback : Callback σ) (P : NodeId → Bool) : Prop where
  enters : ∀ around node parent s, (callback.enters around node parent s).1 = P node
  visit : ∀ here node parent s, ∃ s', callback.visit here node parent s = .done s'

namespace Arena
open Traversal

variable {arena : Arena} {callback : Callback σ}

/-- A plain callback is called at the arrivals of a walk that stays out of types. -/
theorem branch_plain {P : NodeId → Bool} (h : callback.Plain P) : ∀ (depth : Nat) (parent : Option NodeId)
    (node : NodeId) (around : Context) (s : σ),
    Ends around s (arena.branch callback depth parent node) fun calls _ =>
      calls = (arena.walkWithin ⟨fun n _ => P n, .never⟩ depth around.place parent node).map (.mk · [])
  | 0, _, _, _, _ => .done rfl
  | depth + 1, parent, node, around, s => by
    have henters := h.enters around.place node parent s
    rcases hrun : callback.enters around.place node parent s with ⟨b, s'⟩
    rw [hrun] at henters
    obtain rfl : b = P node := henters
    cases hP : P node with
    | false =>
      rw [hP] at hrun
      rw [walkWithin_of_not_enters hP]
      exact (branch_refused hrun).weaken fun _ _ h => h.1
    | true =>
      rw [hP] at hrun
      have henters : (⟨fun n _ => P n, .never⟩ : Policy).enters node parent = true := hP
      rw [walkWithin_of_enters henters, ← place_contextAt]
      -- the answer to a visit is a state, so nothing is traversed in it
      have hvisit : Ends (arena.contextAt around node) s'
          (visit callback (arena.branch callback depth none) parent node) fun call _ =>
            call = ⟨⟨node, parent, (arena.contextAt around node).place, true⟩, []⟩ := by
        obtain ⟨s'', hdone⟩ := h.visit (arena.contextAt around node).place node parent s'
        refine visit_ends ?_
        rw [hdone]
        exact ⟨[], s'', rfl, rfl⟩
      refine branch_entered hrun (hvisit.weaken ?_)
      rintro _ t rfl
      have hnone (order : TypeOrder) (hne : TypeOrder.never ≠ order) : arena.typeWalk ⟨fun n _ => P n, .never⟩ order
          depth (arena.contextAt around node).place node = [] := if_neg hne
      rw [hnone _ TypeOrder.noConfusion, hnone _ TypeOrder.noConfusion, childWalk, ← map_childContexts,
        List.flatMap_map]
      refine (EndsAll.of_forall (J := fun ps _ calls _ => calls = (ps.flatMap fun p =>
          arena.walkWithin ⟨fun n _ => P n, .never⟩ depth p.1.place (some node) p.2).map (.mk · []))
        (fun _ => rfl) (fun hp hj => by rw [List.flatMap_cons, List.map_append, ← hp, ← hj]) _ _
        fun p _ s => branch_plain h depth (some node) p.2 p.1 s).weaken ?_
      rintro _ _ rfl
      rfl

end Arena

end ScriptIndex
