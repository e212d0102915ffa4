import ScriptIndex.Proofs.TraversalRuns

/-! # What callbacks are told

A callback may take note of what it is told: of the nodes that it refuses and of the visits. To take notes
changes nothing else, and the notes are in the end the arrivals of the calls that the traversal gives. So what is
known of these calls is known of what any callback is told. -/

namespace ScriptIndex

variable {σ τ α β : Type}

/-- Answers the same, and keeps notes beside the state. -/
def Response.recording (notes : List Arrival) : Response σ → Response (σ × List Arrival)
  | .done state => .done (state, notes)
  | .traverse root state resume =>
    .traverse root (state, notes) fun place noted => (resume place noted.1).recording noted.2

/-- Takes note of the nodes that are refused and of the visits. -/
def Callback.recording (callback : Callback σ) : Callback (σ × List Arrival) where
  enters around node parent noted :=
    let (entered, state) := callback.enters around node parent noted.1
    (entered, (state, if entered then noted.2 else noted.2 ++ [⟨node, parent, around, false⟩]))
  visit here node parent noted :=
    (callback.visit here node parent noted.1).recording (noted.2 ++ [⟨node, parent, here, true⟩])

/-- The arrival of a call, and then those of the traversals that were started in it. -/
def Call.arrivals : Call → List Arrival
  | mk arrival started => arrival :: started.flatMap fun p => p.2.flatMap arrivals
decreasing_by
  rename_i hp _ hcall
  have hcall := List.sizeOf_lt_of_mem hcall
  have hp := List.sizeOf_lt_of_mem hp
  cases p
  simp only [Prod.mk.sizeOf_spec, mk.sizeOf_spec] at hcall hp ⊢
  omega

/-- The state without the notes. -/
def TraversalState.unnoted (t : TraversalState (σ × τ)) : TraversalState σ := ⟨t.context, t.state.1⟩

namespace Traversal

/-! ### To take notes changes nothing else -/

/-- The action `y` does what `x` does, and keeps notes beside the state. -/
def Noted (x : Traversal σ α) (y : Traversal (σ × τ) α) : Prop :=
  ∀ t, x t.unnoted = ((y t).1, (y t).2.unnoted)

namespace Noted

theorem done (a : α) : Noted (pure a : Traversal σ α) (pure a : Traversal (σ × τ) α) :=
  fun _ => rfl

theorem seq {x : Traversal σ α} {y : Traversal (σ × τ) α} {f : α → Traversal σ β} {g : α → Traversal (σ × τ) β}
    (h : Noted x y) (hf : ∀ a, Noted (f a) (g a)) : Noted (x >>= f) (y >>= g) := by
  intro t
  show (let (a, t) := x t.unnoted; f a t) = _
  rw [h t]
  exact hf _ _

theorem read {f : TraversalState σ → Traversal σ β} {g : TraversalState (σ × τ) → Traversal (σ × τ) β}
    (h : ∀ t, Noted (f t.unnoted) (g t)) : Noted (get >>= f) (get >>= g) :=
  fun t => h t t

theorem change {f : TraversalState σ → TraversalState σ} {g : TraversalState (σ × τ) → TraversalState (σ × τ)}
    (h : ∀ t, f t.unnoted = (g t).unnoted) : Noted (modify f) (modify g) :=
  fun t => Prod.ext rfl (h t)

theorem inModule {x : Traversal σ α} {y : Traversal (σ × τ) α} (module : Option ModuleId) (h : Noted x y) :
    Noted (inModule module x) (inModule module y) :=
  read fun _ => (change fun _ => rfl).seq fun _ => h.seq fun _ => (change fun _ => rfl).seq fun _ => done _

theorem inScope {x : Traversal σ α} {y : Traversal (σ × τ) α} (node : NodeId) (h : Noted x y) :
    Noted (inScope node x) (inScope node y) :=
  (change fun _ => rfl).seq fun _ => h.seq fun _ => (change fun _ => rfl).seq fun _ => done _

theorem place : Noted (place : Traversal σ Place) (place : Traversal (σ × τ) Place) :=
  fun _ => rfl

theorem enters (callback : Callback σ) (parent : Option NodeId) (node : NodeId) :
    Noted (enters callback parent node) (enters callback.recording parent node) :=
  fun _ => rfl

theorem each {branch : NodeId → Traversal σ (List Call)} {branch' : NodeId → Traversal (σ × τ) (List Call)}
    (h : ∀ n, Noted (branch n) (branch' n)) : ∀ nodes, Noted (each branch nodes) (each branch' nodes)
  | [] => done []
  | n :: nodes => (h n).seq fun _ => (each h nodes).seq fun _ => done _

section
variable {traverse : NodeId → Traversal σ (List Call)} {traverse' : NodeId → Traversal (σ × List Arrival) (List Call)}
  (h : ∀ n, Noted (traverse n) (traverse' n))
include h

theorem follow : ∀ (response : Response σ) (notes : List Arrival),
    Noted (follow traverse response) (follow traverse' (response.recording notes))
  | .done _, _ => (change fun _ => rfl).seq fun _ => done []
  | .traverse root _ resume, _ =>
    (change fun _ => rfl).seq fun _ => (h root).seq fun _ => read fun t =>
      (follow (resume t.context.place t.state.1) t.state.2).seq fun _ => done _

theorem visit (callback : Callback σ) (parent : Option NodeId) (node : NodeId) :
    Noted (visit callback traverse parent node) (visit callback.recording traverse' parent node) :=
  read fun _ => (follow h _ _).seq fun _ => done _

end

end Noted

end Traversal

namespace Arena
open Traversal

/-- A traversal goes the same way whether or not the callback takes notes. -/
theorem branch_noted (arena : Arena) (callback : Callback σ) : ∀ (depth : Nat) (parent : Option NodeId) (node : NodeId),
    Noted (arena.branch callback depth parent node) (arena.branch callback.recording depth parent node)
  | 0, _, _ => .done []
  | depth + 1, parent, node => by
    have hvisit := Noted.visit (branch_noted arena callback depth none) callback parent node
    have hbelow := Noted.each (branch_noted arena callback depth (some node))
    refine (Noted.enters callback parent node).seq fun entered => ?_
    cases entered with
    | false => exact Noted.place.seq fun _ => .done _
    | true =>
      dsimp only
      rw [if_pos rfl, if_pos rfl]
      split
      · exact .inModule _ (hvisit.seq fun _ => (hbelow _).seq fun _ => .done _)
      · exact hvisit.seq fun _ => (hbelow _).seq fun _ => (Noted.inScope node (hbelow _)).seq fun _ => .done _
      · refine hvisit.seq fun _ => ?_
        split_ifs
        · exact (hbelow _).seq fun _ => .done _
        · exact (Noted.inScope node (hbelow _)).seq fun _ => .done _
      · exact hvisit.seq fun _ => (hbelow _).seq fun _ => .done _

end Arena

/-! ### The notes -/

/-- Calls in which nothing is traversed have one arrival each. -/
theorem Call.flatMap_arrivals (told : List Arrival) : (told.map (.mk · [])).flatMap arrivals = told := by
  rw [List.flatMap_map]
  simp [arrivals]

/-- Notes are taken of these calls. -/
def Call.NotedIn (calls : List Call) (noted noted' : σ × List Arrival) : Prop :=
  noted'.2 = noted.2 ++ calls.flatMap arrivals

namespace Traversal

/-- A response brings its notes along, so those from before it do not matter. -/
theorem follow_notes {traverse : NodeId → Traversal (σ × List Arrival) (List Call)} {here : Context}
    (h : ∀ t noted, Ends here noted (traverse t) fun calls noted' => Call.NotedIn calls noted noted') :
    ∀ (response : Response σ) (notes : List Arrival) (before : σ × List Arrival),
      Ends here before (follow traverse (response.recording notes)) fun started noted' =>
        noted'.2 = notes ++ started.flatMap fun p => p.2.flatMap Call.arrivals
  | .done state, notes, _ => ⟨[], (state, notes), rfl, (List.append_nil notes).symm⟩
  | .traverse root state resume, notes, _ => by
    refine follow_traverse (h root (state, notes)) fun calls noted hcalls => ?_
    refine (follow_notes h (resume here.place noted.1) noted.2 noted).weaken fun started noted' hstarted => ?_
    have hcalls : noted.2 = notes ++ calls.flatMap Call.arrivals := hcalls
    rw [hstarted, hcalls, List.flatMap_cons, List.append_assoc]

end Traversal

namespace Arena
open Traversal

/-- The notes grow by the arrivals of the calls. -/
theorem branch_notes (arena : Arena) (callback : Callback σ) : ∀ (depth : Nat) (parent : Option NodeId)
    (node : NodeId) (around : Context) (noted : σ × List Arrival),
    Ends around noted (arena.branch callback.recording depth parent node) fun calls noted' =>
      Call.NotedIn calls noted noted'
  | 0, _, _, _, noted => .done (List.append_nil noted.2).symm
  | depth + 1, parent, node, around, noted => by
    rcases henters : callback.enters around.place node parent noted.1 with ⟨entered, s⟩
    cases entered with
    | false =>
      have hlet : callback.recording.enters around.place node parent noted =
          (false, (s, noted.2 ++ [⟨node, parent, around.place, false⟩])) := by
        simp [Callback.recording, henters]
      refine (branch_refused hlet).weaken ?_
      rintro _ _ ⟨rfl, rfl⟩
      simp [Call.NotedIn, Call.arrivals]
    | true =>
      have hlet : callback.recording.enters around.place node parent noted = (true, (s, noted.2)) := by
        simp [Callback.recording, henters]
      have hvisit : Ends (arena.contextAt around node) (s, noted.2)
          (visit callback.recording (arena.branch callback.recording depth none) parent node) fun call noted' =>
            noted'.2 = noted.2 ++ call.arrivals := by
        have hstarted := follow_notes fun t noted =>
          branch_notes arena callback depth none t (arena.contextAt around node) noted
        refine visit_ends ((hstarted _ _ _).weaken fun started noted' h => ?_)
        rw [h, Call.arrivals, List.append_assoc, List.singleton_append]
      refine branch_entered hlet (hvisit.weaken fun call noted' hcall => ?_)
      refine (EndsAll.of_forall (J := fun _ noted calls noted' => Call.NotedIn calls noted noted')
        (fun noted => (List.append_nil noted.2).symm) (fun {_ _ _ _ _ _ _} hp hj => ?_) _ _
        fun p _ noted => branch_notes arena callback depth (some node) p.2 p.1 noted).weaken fun calls noted'' h => ?_
      · rw [Call.NotedIn] at hp hj ⊢
        rw [hj, hp, List.flatMap_append, List.append_assoc]
      · rw [Call.NotedIn] at h ⊢
        rw [h, hcall, List.flatMap_cons, List.append_assoc]

/-- In the end a callback that takes notes has them of all calls, and the rest is as without notes. -/
theorem traverse_recording {arena : Arena} {callback : Callback σ} {depth : Nat} {root : NodeId}
    {before after : Context} {s s' : σ} {calls : List Call}
    (h : (arena.traverse callback depth root).run ⟨before, s⟩ = (calls, ⟨after, s'⟩)) :
    (arena.traverse callback.recording depth root).run ⟨before, (s, [])⟩ =
      (calls, ⟨after, (s', calls.flatMap Call.arrivals)⟩) := by
  obtain ⟨told, ⟨t, notes⟩, hrun, hnotes⟩ := branch_notes arena callback depth none root before (s, [])
  have hsame := branch_noted arena callback depth none root ⟨before, (s, [])⟩
  rw [hrun] at hsame
  cases hsame.symm.trans h
  obtain rfl : notes = _ := hnotes
  exact hrun

end Arena

end ScriptIndex
