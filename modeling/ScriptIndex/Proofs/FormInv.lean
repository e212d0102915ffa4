import Mathlib.Logic.Function.Basic
import ScriptIndex.Proofs.Programs

/-! # Assembly keeps forms

`FormInv`: every node but a root was made over its children, each in a role that the child was made for or has
come to stand in since. So what kind of node a child is tells what its parent may be, and the other way round. -/

namespace ScriptIndex

/-- One way of standing in another role. -/
inductive Arena.Passes (arena : Arena) (n : NodeId) : Role → Role → Prop
  | serve {role other : Role} (serves : role.Serves n other) : Passes arena n role other
  | aim {kind : Kind} (hk : arena.kind? n = some kind) (target : kind.isTarget = true) :
      Passes arena n .expression .target

namespace Assembly

variable {s s' : Assembly} {arena after : Arena} {pending rest : Pending} {formed : NodeId → Role}

/-- The node stands in the role, given what each node was made for. -/
def Stands (arena : Arena) (formed : NodeId → Role) (e : Role × NodeId) : Prop :=
  Relation.ReflTransGen (arena.Passes e.2) (formed e.2) e.1

structure FormInv (formed : NodeId → Role) (s : Assembly) : Prop where
  form : ∀ n kind, s.arena.kind? n = some kind → kind ≠ .root → ∃ cs : Pending, Forms kind cs (formed n) ∧
    s.arena.children n = cs.map Prod.snd ∧ ∀ c ∈ cs, Stands s.arena formed c
  pending : ∀ e ∈ s.pending, Stands s.arena formed e

theorem Stands.mono {formed' : NodeId → Role} {e : Role × NodeId} (h : Stands arena formed e)
    (hk : ∀ kind, arena.kind? e.2 = some kind → after.kind? e.2 = some kind) (hsame : formed' e.2 = formed e.2) :
    Stands after formed' e := by
  unfold Stands
  rw [hsame]
  refine Relation.ReflTransGen.mono (fun role other hp => ?_) _ _ h
  cases hp with
  | serve serves => exact .serve serves
  | aim hkind target => exact .aim (hk _ hkind) target

namespace FormInv

theorem of_sublist (h : FormInv formed ⟨arena, pending⟩) (hr : rest.Sublist pending) :
    FormInv formed ⟨arena, rest⟩ :=
  ⟨h.form, fun e he => h.pending e (hr.subset he)⟩

/-- What keeps the kinds of all nodes and the children of all but roots keeps forms. -/
theorem of_kinds (h : FormInv formed ⟨arena, pending⟩) (hk : ∀ n, after.kind? n = arena.kind? n)
    (hch : ∀ n, arena.kind? n ≠ some .root → after.children n = arena.children n) :
    FormInv formed ⟨after, pending⟩ := by
  have hstands : ∀ e, Stands arena formed e → Stands after formed e := fun e he =>
    he.mono (fun kind hkind => (hk e.2).trans hkind) rfl
  refine ⟨fun n kind hkind hne => ?_, fun e he => hstands e (h.pending e he)⟩
  rw [hk] at hkind
  obtain ⟨cs, hforms, hcs, hstand⟩ := h.form n kind hkind hne
  refine ⟨cs, hforms, ?_, fun c hc => hstands c (hstand c hc)⟩
  rw [hch n fun hroot => hne (Option.some.inj (hkind.symm.trans hroot))]
  exact hcs

theorem make {kind : Kind} {span : Span} {role : Role} {children : Pending}
    (h : FormInv formed ⟨arena, children.reverse ++ rest⟩) (ht : TreeInv ⟨arena, children.reverse ++ rest⟩)
    (forms : Forms kind children role) (made : Made arena kind span (children.map Prod.snd) after) :
    FormInv (Function.update formed arena.size role) ⟨after, (role, arena.size) :: rest⟩ := by
  have hold : ∀ e : Role × NodeId, e.2 < arena.size → Stands arena formed e →
      Stands after (Function.update formed arena.size role) e := by
    intro e hlt he
    have hne : e.2 ≠ arena.size := Nat.ne_of_lt hlt
    exact he.mono (fun kind hk => by rwa [made.kind?, if_neg hne]) (Function.update_of_ne hne _ _)
  have hpending : ∀ e ∈ children.reverse ++ rest, Stands after (Function.update formed arena.size role) e :=
    fun e he => hold e (ht.pending_lt e he) (h.pending e he)
  refine ⟨fun n kind' hk hne => ?_, List.forall_mem_cons.2 ⟨?_, fun e he =>
    hpending e (List.mem_append_right _ he)⟩⟩
  · rw [made.kind?] at hk
    dsimp only
    rw [made.children_eq]
    split_ifs at hk ⊢ with hn
    · cases hk
      subst hn
      refine ⟨children, ?_, rfl, fun c hc => hpending c (List.mem_append_left _ (List.mem_reverse.2 hc))⟩
      rwa [Function.update_self]
    · obtain ⟨cs, hforms, hcs, hstand⟩ := h.form n kind' hk hne
      refine ⟨cs, ?_, hcs, fun c hc => hold c ?_ (hstand c hc)⟩
      · rwa [Function.update_of_ne hn]
      · refine ht.child_lt_size (n := n) ?_
        rw [show arena.children n = cs.map Prod.snd from hcs]
        exact List.mem_map_of_mem hc
  · unfold Stands
    rw [Function.update_self]

theorem pass {role other : Role} {n : NodeId} (h : FormInv formed ⟨arena, (role, n) :: rest⟩)
    (hp : arena.Passes n role other) : FormInv formed ⟨arena, (other, n) :: rest⟩ := by
  obtain ⟨hn, hrest⟩ := List.forall_mem_cons.1 h.pending
  exact ⟨h.form, List.forall_mem_cons.2 ⟨Relation.ReflTransGen.tail hn hp, hrest⟩⟩

theorem step (h : FormInv formed s) (ht : s.TreeInv) (hs : Step s s') : ∃ formed', FormInv formed' s' := by
  cases hs with
  | make forms made => exact ⟨_, h.make ht forms made⟩
  | serve serves => exact ⟨_, h.pass (.serve serves)⟩
  | aim hk target => exact ⟨_, h.pass (.aim hk target)⟩
  | document documented =>
    exact ⟨_, (h.of_kinds documented.kind? fun n _ => documented.children_eq n).of_sublist
      (List.sublist_append_right _ _)⟩
  | enroll hr attached =>
    refine ⟨_, (h.of_kinds attached.kind? fun n hne => ?_).of_sublist (List.sublist_cons_self _ _)⟩
    rw [attached.children_eq (Arena.lt_of_kind? hr), if_neg]
    rintro rfl
    exact hne hr
  | abandon hsub => exact ⟨_, h.of_sublist hsub⟩

theorem steps (h : FormInv formed s) (ht : s.TreeInv) (hs : Steps s s') : ∃ formed', FormInv formed' s' := by
  induction hs with
  | refl => exact ⟨formed, h⟩
  | tail hs hstep ih =>
    obtain ⟨formed', h'⟩ := ih
    exact h'.step (ht.steps hs) hstep

/-- A child under a parent that is no root is one of the nodes that the parent was formed of. -/
theorem child (h : FormInv formed s) {n p : NodeId} {kind : Kind} (hn : n ∈ s.arena.children p)
    (hk : s.arena.kind? p = some kind) (hne : kind ≠ .root) :
    ∃ cs role, Forms kind cs (formed p) ∧ (role, n) ∈ cs ∧ Stands s.arena formed (role, n) := by
  obtain ⟨cs, hforms, hcs, hstand⟩ := h.form p kind hk hne
  rw [hcs] at hn
  obtain ⟨c, hc, rfl⟩ := List.mem_map.1 hn
  exact ⟨cs, c.1, hforms, hc, hstand c hc⟩

end FormInv

end Assembly

namespace Program
open Assembly

theorem empty_formInv (formed : NodeId → Role) : FormInv formed ⟨empty, []⟩ where
  form n kind hk hne := by
    have hroot : empty.kind? n = some .root := by
      obtain ⟨x, hx, -⟩ := Option.map_eq_some_iff.1 hk
      rw [Arena.kind?, hx]
      rw [node?_empty] at hx
      split_ifs at hx
      cases hx
      rfl
    exact absurd (Option.some.inj (hk.symm.trans hroot)) hne
  pending := by simp

theorem exists_formInv (scripts : List Script) : ∃ formed, FormInv formed ⟨ofScripts scripts, []⟩ :=
  (empty_formInv fun _ => .expression).steps empty_inv.tree
    (foldl_add_steps scripts empty empty_inv kind?_empty_root)

end Program

end ScriptIndex
