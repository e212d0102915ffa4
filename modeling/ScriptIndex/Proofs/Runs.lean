import ScriptIndex.Proofs.Assembly

/-! # Actions as runs of assembly steps

`Runs x P Q`: whatever the arena, the action `x` assembles from the pending nodes `P` those of `Q`, or
fails after some steps. The rules below compose such runs; the readers' own actions on nodes are runs of
one step. -/

namespace ScriptIndex
open Assembly

namespace Arena

theorem append_of_lt {arena : Arena} {parent child : NodeId} (hc : child < arena.size)
    (hp : parent < arena.size) (hne : child ≠ parent) :
    ∃ after, arena.append parent child = .ok after ∧ Attached arena parent child after := by
  refine ⟨⟨(arena.nodes.modify child fun x => { x with parent := some parent }).modify parent
    fun x => { x with children := x.children ++ [child] }⟩, ?_, ?_, fun n => ?_⟩
  · simp only [append, check, contains_iff.2 hc, contains_iff.2 hp, if_true]; rfl
  · simp [size]
  · simp only [node?, Array.getElem?_modify]
    by_cases h1 : parent = n <;> by_cases h2 : child = n
    · exact absurd (h2.trans h1.symm) hne
    · simp [h1, h2]
    · simp [h1, h2, Ne.symm h1]
    · simp [h1, h2, Ne.symm h1, Ne.symm h2]

theorem setDoc_eq_ok {arena after : Arena} {node : NodeId} {doc : Doc}
    (h : arena.setDoc node doc = .ok after) : Documented arena node doc after := by
  simp only [setDoc, check] at h
  split at h
  · cases h
    refine ⟨by simp [size], fun n => ?_⟩
    simp only [node?, Array.getElem?_modify, eq_comm (a := node)]
  · cases h

theorem setDoc_of_lt {arena : Arena} {node : NodeId} (doc : Doc) (h : node < arena.size) :
    ∃ after, arena.setDoc node doc = .ok after ∧ Documented arena node doc after := by
  have hok : arena.setDoc node doc = .ok ⟨arena.nodes.modify node fun x => { x with doc := some doc }⟩ := by
    simp only [setDoc, check, contains_iff.2 h, if_true]
    rfl
  exact ⟨_, hok, setDoc_eq_ok hok⟩

end Arena

namespace Build

theorem run_bind_ok {α β : Type} {x : Build α} {f : α → Build β} {arena after : Arena} {a : α}
    (h : x arena = .ok a after) : (x >>= f) arena = f a after := by
  simp only [bind, EStateM.bind, h]

theorem run_bind_error {α β : Type} {x : Build α} {f : α → Build β} {arena after : Arena} {e : Failure}
    (h : x arena = .error e after) : (x >>= f) arena = .error e after := by
  simp only [bind, EStateM.bind, h]

theorem bind_eq_ok {α β : Type} {x : Build α} {f : α → Build β} {arena after : Arena} {b : β}
    (h : (x >>= f) arena = .ok b after) : ∃ a mid, x arena = .ok a mid ∧ f a mid = .ok b after := by
  cases hx : x arena with
  | ok a mid =>
    rw [run_bind_ok hx] at h
    exact ⟨a, mid, rfl, h⟩
  | error e mid =>
    rw [run_bind_error hx] at h
    cases h

theorem run'_eq_some {α : Type} {x : Build α} {arena : Arena} {a : α} (h : x.run' arena = some a) :
    ∃ after, x arena = .ok a after := by
  unfold EStateM.run' at h
  split at h
  · next hx =>
    cases h
    exact ⟨_, hx⟩
  · cases h

theorem run_get (arena : Arena) : (get : Build Arena) arena = .ok arena arena := rfl

theorem run_update_ok {f : Arena → Except Failure Arena} {arena after : Arena} (h : f arena = .ok after) :
    update f arena = .ok () after := by
  rw [update, run_bind_ok (run_get arena), h]
  rfl

theorem run_update_error {f : Arena → Except Failure Arena} {arena : Arena} {e : Failure}
    (h : f arena = .error e) : update f arena = .error e arena := by
  rw [update, run_bind_ok (run_get arena), h]
  rfl

/-- Putting children under a node `p` one by one. -/
theorem forM_append {p : NodeId} : ∀ (children : List NodeId) (arena : Arena), p < arena.size →
    (∀ c ∈ children, c < arena.size ∧ c ≠ p) → ∃ after,
      children.forM (fun child => update (·.append p child)) arena = .ok () after ∧
      after.size = arena.size ∧ ∀ n, after.node? n =
        if n = p then (arena.node? n).map fun x => { x with children := x.children ++ children }
        else if n ∈ children then (arena.node? n).map fun x => { x with parent := some p }
        else arena.node? n
  | [], arena, _, _ => ⟨arena, rfl, rfl, fun n => by split <;> simp⟩
  | c :: children, arena, hp, hc => by
    obtain ⟨hlt, hne⟩ := hc c (by simp)
    obtain ⟨mid, hmid, hat⟩ := Arena.append_of_lt hlt hp hne
    obtain ⟨after, hrun, hsize, hnode⟩ := forM_append children mid (hat.size ▸ hp)
      fun c' hc' => ⟨hat.size ▸ (hc c' (by simp [hc'])).1, (hc c' (by simp [hc'])).2⟩
    refine ⟨after, ?_, hsize.trans hat.size, fun n => ?_⟩
    · rw [List.forM_eq_forM, List.forM_cons,
        run_bind_ok (run_update_ok (f := (·.append p c)) hmid)]
      exact hrun
    · rw [hnode, hat.node?]
      by_cases h1 : n = p
      · simp [h1, Function.comp_def]
      · by_cases h2 : n = c
        · subst h2; by_cases h3 : n ∈ children <;> simp [h1, h3, Function.comp_def]
        · by_cases h3 : n ∈ children <;> simp [h1, h2, h3]

theorem run_node (kind : Kind) (span : Span) {children : List NodeId} {arena : Arena}
    (h : ∀ c ∈ children, c < arena.size) :
    ∃ after, node kind span children arena = .ok arena.size after ∧
      Made arena kind span children after := by
  have hlt := arena.size_push kind span
  obtain ⟨after, hrun, hsize, hnode⟩ := forM_append children (arena.push kind span).2
    (by rw [hlt]; exact Nat.lt_succ_self _)
    fun c hc => ⟨by rw [hlt]; exact Nat.lt_succ_of_lt (h c hc), Nat.ne_of_lt (h c hc)⟩
  refine ⟨after, ?_, hsize.trans hlt, fun n => ?_⟩
  · have hpush : push kind span arena = .ok arena.size (arena.push kind span).2 := rfl
    rw [node, run_bind_ok hpush, run_bind_ok hrun]; rfl
  · rw [hnode, Arena.node?_push]
    by_cases h1 : n = arena.size
    · simp [h1]
    · simp [h1]

/-- From the pending nodes `P` the action assembles those of `Q`, or it fails. -/
def Runs {α : Type} (x : Build α) (P : Pending) (Q : α → Pending) : Prop :=
  ∀ arena, Bounded ⟨arena, P⟩ →
    match x arena with
    | .ok a after => Steps ⟨arena, P⟩ ⟨after, Q a⟩
    | .error _ after => ∃ rest, Steps ⟨arena, P⟩ ⟨after, rest⟩

/-- Every result of the action satisfies `p`. -/
def Gives {α : Type} (x : Build α) (p : α → Prop) : Prop :=
  ∀ arena a after, x arena = .ok a after → p a

namespace Gives
variable {α β : Type} {p q : α → Prop} {r : β → Prop}

theorem done {a : α} (h : p a) : Gives (pure a) p := by
  intro arena b after hb
  cases hb
  exact h

theorem fails (e : Failure) : Gives (throw e : Build α) p := by
  intro arena a after h
  cases h

theorem seq {x : Build α} {f : α → Build β} (hx : Gives x p) (hf : ∀ a, p a → Gives (f a) r) :
    Gives (x >>= f) r := by
  intro arena b after h
  obtain ⟨a, mid, ha, hb⟩ := bind_eq_ok h
  exact hf a (hx arena a mid ha) mid b after hb

theorem and {x : Build α} (hp : Gives x p) (hq : Gives x q) : Gives x fun a => p a ∧ q a :=
  fun arena a after h => ⟨hp arena a after h, hq arena a after h⟩

end Gives

namespace Runs
variable {α β : Type} {P P' : Pending} {Q : α → Pending} {R : β → Pending}

theorem done (a : α) (h : P = Q a) : Runs (pure a) P Q :=
  fun _ _ => h ▸ Relation.ReflTransGen.refl

theorem fails (e : Failure) : Runs (throw e : Build α) P Q :=
  fun _ _ => ⟨P, Relation.ReflTransGen.refl⟩

/-- The second action may rely on what every result of the first one satisfies. -/
theorem seqOf {p : α → Prop} {x : Build α} {f : α → Build β} (hx : Runs x P Q) (hp : Gives x p)
    (hf : ∀ a, p a → Runs (f a) (Q a) R) : Runs (x >>= f) P R := by
  intro arena hb
  have h := hx arena hb
  cases hr : x arena with
  | error e mid =>
    rw [hr] at h
    rw [run_bind_error hr]
    exact h
  | ok a mid =>
    rw [hr] at h
    rw [run_bind_ok hr]
    have h' := hf a (hp arena a mid hr) mid (Steps.bounded h hb)
    cases hr' : f a mid with
    | ok b after => rw [hr'] at h'; exact h.trans h'
    | error e after => rw [hr'] at h'; obtain ⟨rest, h'⟩ := h'; exact ⟨rest, h.trans h'⟩

theorem seq {x : Build α} {f : α → Build β} (hx : Runs x P Q) (hf : ∀ a, Runs (f a) (Q a) R) :
    Runs (x >>= f) P R :=
  seqOf hx (fun _ _ _ _ => trivial) fun a (_ : True) => hf a

/-- Steps that leave the arena as it is may come before an action. -/
theorem after {x : Build α} (h : ∀ arena, Steps ⟨arena, P⟩ ⟨arena, P'⟩) (hx : Runs x P' Q) : Runs x P Q := by
  intro arena hb
  have h' := hx arena (Steps.bounded (h arena) hb)
  cases hr : x arena with
  | ok a next => rw [hr] at h'; exact (h arena).trans h'
  | error e next => rw [hr] at h'; obtain ⟨rest, h'⟩ := h'; exact ⟨rest, (h arena).trans h'⟩

/-- Steps that leave the arena as it is may come after an action. -/
theorem weaken {x : Build α} {Q' : α → Pending} (hx : Runs x P Q)
    (h : ∀ arena a, Steps ⟨arena, Q a⟩ ⟨arena, Q' a⟩) : Runs x P Q' := by
  intro arena hb
  have h' := hx arena hb
  cases hr : x arena with
  | ok a next => rw [hr] at h'; exact h'.trans (h next a)
  | error e next => rw [hr] at h'; exact h'

theorem update {f : Arena → Except Failure Arena} {P' : Pending}
    (h : ∀ arena, match f arena with
      | .ok next => Steps ⟨arena, P⟩ ⟨next, P'⟩
      | .error _ => True) : Runs (update f) P (fun _ => P') := by
  intro arena _
  have h := h arena
  cases hf : f arena with
  | ok next => rw [run_update_ok hf]; rw [hf] at h; exact h
  | error e => rw [run_update_error hf]; exact ⟨P, .refl⟩

/-- Making a node is one step. -/
theorem node {kind : Kind} {span : Span} {role : Role} {children : Pending}
    (forms : Forms kind children role) :
    Runs (Build.node kind span (children.map Prod.snd)) (children.reverse ++ P)
      (fun n => (role, n) :: P) := by
  intro arena hb
  have hlt : ∀ c ∈ children.map Prod.snd, c < arena.size := fun c hc => by
    obtain ⟨e, he, rfl⟩ := List.mem_map.1 hc
    exact hb e (List.mem_append_left _ (List.mem_reverse.2 he))
  obtain ⟨next, hrun, made⟩ := run_node kind span hlt
  rw [hrun]
  exact Relation.ReflTransGen.single (.make forms made)

theorem mapM {f : α → Build β} {g : β → Pending} (hf : ∀ a P, Runs (f a) P (fun b => (g b).reverse ++ P)) :
    ∀ (l : List α) (P : Pending), Runs (l.mapM f) P (fun bs => (bs.flatMap g).reverse ++ P)
  | [], P => by rw [List.mapM_nil]; exact done [] rfl
  | a :: l, P => by
    rw [List.mapM_cons]
    exact seq (hf a P) fun b => seq (mapM hf l _) fun bs => done (b :: bs) (by simp)

end Runs

end Build

namespace Reader

/-- What actions may rely on about their inputs, and keep. -/
class Legible (σ : Type) where
  legible : σ → Prop

open Legible (legible)

/-- The same for an action that reads an input. -/
structure Runs {σ α : Type} [Legible σ] (x : Reader σ α) (P : Pending) (Q : α → Pending) : Prop where
  runs : ∀ s, legible s → Build.Runs (x s) P fun r => Q r.1
  keeps : ∀ s, legible s → Build.Gives (x s) fun r => legible r.2

/-- Every result of the action satisfies `p`. -/
def Gives {σ α : Type} [Legible σ] (x : Reader σ α) (p : α → Prop) : Prop :=
  ∀ s, legible s → Build.Gives (x s) fun r => p r.1

/-- The action makes one node in the given role. -/
def Makes {σ : Type} [Legible σ] (x : Reader σ NodeId) (role : Role) : Prop :=
  ∀ P, Runs x P (fun n => (role, n) :: P)

/-- What is pending after a turn that makes an item in the role. -/
def Turn.pending (role : Role) (P : Pending) : Turn NodeId → Pending
  | .stop => P
  | .last n | .more n => (role, n) :: P

variable {σ α β : Type} [Legible σ] {P P' : Pending} {Q : α → Pending} {R : β → Pending}

namespace Gives
variable {p : α → Prop} {q : β → Prop}

theorem done {a : α} (h : p a) : Gives (pure a : Reader σ α) p :=
  fun _ _ => Build.Gives.done h

theorem fails (e : Failure) : Gives (throw e : Reader σ α) p :=
  fun _ _ => Build.Gives.fails (α := α × σ) e

theorem after {x : Reader σ α} {f : α → Reader σ β} (hx : Runs x P Q) (hf : ∀ a, Gives (f a) q) :
    Gives (x >>= f) q :=
  fun s hs => (hx.keeps s hs).seq fun r hr => hf r.1 r.2 hr

theorem seq {x : Reader σ α} {f : α → Reader σ β} (hx : Runs x P Q) (hp : Gives x p)
    (hf : ∀ a, p a → Gives (f a) q) : Gives (x >>= f) q :=
  fun s hs => ((hp s hs).and (hx.keeps s hs)).seq fun r hr => hf r.1 hr.1 r.2 hr.2

end Gives

namespace Runs

theorem done (a : α) (h : P = Q a) : Runs (pure a : Reader σ α) P Q :=
  ⟨fun s _ => Build.Runs.done (a, s) h, fun s hs => Build.Gives.done (a := (a, s)) hs⟩

theorem fails (e : Failure) : Runs (throw e : Reader σ α) P Q :=
  ⟨fun _ _ => Build.Runs.fails (α := α × σ) e, fun _ _ => Build.Gives.fails (α := α × σ) e⟩

theorem seqOf {p : α → Prop} {x : Reader σ α} {f : α → Reader σ β} (hx : Runs x P Q) (hp : Gives x p)
    (hf : ∀ a, p a → Runs (f a) (Q a) R) : Runs (x >>= f) P R where
  runs s hs := (hx.runs s hs).seqOf ((hp s hs).and (hx.keeps s hs)) fun r hr => (hf r.1 hr.1).runs r.2 hr.2
  keeps s hs := ((hp s hs).and (hx.keeps s hs)).seq fun r hr => (hf r.1 hr.1).keeps r.2 hr.2

theorem seq {x : Reader σ α} {f : α → Reader σ β} (hx : Runs x P Q) (hf : ∀ a, Runs (f a) (Q a) R) :
    Runs (x >>= f) P R :=
  seqOf hx (fun _ _ _ _ _ _ => trivial) fun a (_ : True) => hf a

theorem weaken {x : Reader σ α} {Q' : α → Pending} (hx : Runs x P Q)
    (h : ∀ arena a, Steps ⟨arena, Q a⟩ ⟨arena, Q' a⟩) : Runs x P Q' :=
  ⟨fun s hs => (hx.runs s hs).weaken fun arena r => h arena r.1, hx.keeps⟩

theorem lift {x : Build α} (hx : Build.Runs x P Q) : Runs (liftM x : Reader σ α) P Q where
  runs _ _ := Build.Runs.seq hx fun _ => Build.Runs.done _ rfl
  keeps _ hs := Build.Gives.seq (p := fun _ => True) (fun _ _ _ _ => trivial) fun _ _ => Build.Gives.done hs

theorem reads : Runs (get : Reader σ σ) P (fun _ => P) :=
  ⟨fun _ _ => Build.Runs.done _ rfl, fun s hs => Build.Gives.done (a := (s, s)) hs⟩

theorem puts (s : σ) (hs : legible s) : Runs (set s : Reader σ PUnit) P (fun _ => P) :=
  ⟨fun _ _ => Build.Runs.done _ rfl, fun _ _ => Build.Gives.done hs⟩

theorem updates {f : σ → σ} (hf : ∀ s, legible s → legible (f s)) :
    Runs (modify f : Reader σ PUnit) P (fun _ => P) :=
  ⟨fun _ _ => Build.Runs.done _ rfl, fun s hs => Build.Gives.done (hf s hs)⟩

theorem branch {c : Prop} [Decidable c] {x y : Reader σ α} (hx : Runs x P Q) (hy : Runs y P Q) :
    Runs (if c then x else y) P Q := by
  split
  · exact hx
  · exact hy

/-- A loop that makes an item of one role in each turn. -/
theorem collect {turn : Reader σ (Turn NodeId)} (role : Role) (h : ∀ P, Runs turn P (Turn.pending role P)) :
    ∀ (turns : Nat) (P : Pending),
      Runs (Reader.collect turn turns) P (fun items => (items.map (role, ·)).reverse ++ P)
  | 0, _ => fails _
  | turns + 1, P => by
    refine seq (h P) fun t => ?_
    cases t with
    | stop => exact done [] rfl
    | last n => exact done [n] rfl
    | more n => exact seq (collect role h turns _) fun items => done (n :: items) (by simp [Turn.pending])

/-- A loop that makes one node over the last in each turn. -/
theorem extend {step : NodeId → Reader σ (Option NodeId)} {role : Role}
    (h : ∀ n P, Runs (step n) ((role, n) :: P) (fun m => (role, m.getD n) :: P)) :
    ∀ (turns : Nat) (n : NodeId) (P : Pending),
      Runs (Reader.extend step turns n) ((role, n) :: P) (fun m => (role, m) :: P)
  | 0, _, _ => fails _
  | turns + 1, n, P => by
    refine seq (h n P) fun m => ?_
    cases m with
    | none => exact done n rfl
    | some m => exact extend h turns m P

end Runs

/-- A loop whose turns each give an item gives one at least. -/
theorem Gives.collect_ne_nil {turn : Reader σ (Turn NodeId)} {role : Role}
    (h : ∀ P, Runs turn P (Turn.pending role P)) (hne : Gives turn (· ≠ .stop)) :
    ∀ turns : Nat, Gives (Reader.collect turn turns) (· ≠ [])
  | 0 => fails _
  | turns + 1 => by
    refine seq (h []) hne fun t ht => ?_
    cases t with
    | stop => exact absurd rfl ht
    | last n => exact done (List.cons_ne_nil _ _)
    | more n => exact after (Runs.collect role h turns []) fun items => done (List.cons_ne_nil _ _)

theorem Makes.serve {x : Reader σ NodeId} {role other : Role} (hx : x.Makes role)
    (h : ∀ n, role.Serves n other) : x.Makes other :=
  fun P => (hx P).weaken fun _ n => .single (.serve (h n))

end Reader

end ScriptIndex
