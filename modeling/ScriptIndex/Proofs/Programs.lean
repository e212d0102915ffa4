import ScriptIndex.Proofs.DocInv
import ScriptIndex.Proofs.Links
import ScriptIndex.Proofs.ScriptRuns

/-! # The shape of programs

Every program is assembled from the two empty regions, so it has what assembly keeps: linked trees
without cycles, in which types are apart from the rest. -/

namespace ScriptIndex.Program
open Assembly

/-- What every program is like. -/
structure Shape (arena : Arena) : Prop where
  linked : arena.Linked
  acyclic : arena.Acyclic
  children_nodup : ∀ n, (arena.children n).Nodup
  root_kind : ∀ region : Region, arena.kind? region.root = some .root
  root_free : ∀ region : Region, arena.parent? region.root = none
  types : ∃ typed, TypeInv typed ⟨arena, []⟩
  doc_parent : ∀ n p, arena.doc? n ≠ none → arena.parent? n = some p →
    ∃ kind, arena.kind? p = some kind ∧ (kind.holdsStatements = true ∨ kind = .expressionStatement)

theorem Shape.root_lt {arena : Arena} (hs : Shape arena) (region : Region) : region.root < arena.size :=
  Arena.lt_of_kind? (hs.root_kind region)

theorem add_steps {arena : Arena} (script : Script) (hinv : Inv ⟨arena, []⟩)
    (hroot : arena.kind? script.region.root = some .root) :
    Steps ⟨arena, []⟩ ⟨add arena script, []⟩ := by
  have hruns := Build.script_runs (P := []) script.source script.options arena (by simp [Bounded])
  unfold add Build.addScript Build.scriptUnder
  cases hr : Build.script script.source script.options arena with
  | error e after =>
    rw [hr] at hruns
    obtain ⟨rest, hsteps⟩ := hruns
    rw [Build.run_bind_error hr]
    exact hsteps.tail (.abandon (List.nil_sublist rest))
  | ok n mid =>
    rw [hr] at hruns
    rw [Build.run_bind_ok hr]
    have hmid := (hinv.steps hruns).tree
    have hk : mid.kind? script.region.root = some .root := Steps.kind?_root hruns hroot
    have hne : n ≠ script.region.root := fun heq => hmid.pending_kind _ List.mem_cons_self (heq ▸ hk)
    obtain ⟨after, happend, attached⟩ :=
      Arena.append_of_lt (hmid.pending_lt _ List.mem_cons_self) (Arena.lt_of_kind? hk) hne
    rw [Build.run_bind_ok (Build.run_update_ok (f := (·.append script.region.root n)) happend)]
    exact Relation.ReflTransGen.tail hruns (.enroll hk attached)

theorem foldl_add_steps : ∀ (scripts : List Script) (arena : Arena), Inv ⟨arena, []⟩ →
    (∀ region : Region, arena.kind? region.root = some .root) →
    Steps ⟨arena, []⟩ ⟨scripts.foldl add arena, []⟩
  | [], _, _, _ => Relation.ReflTransGen.refl
  | script :: scripts, arena, hinv, hroot => by
    have hsteps := add_steps script hinv (hroot _)
    exact hsteps.trans (foldl_add_steps scripts _ (hinv.steps hsteps)
      fun region => Steps.kind?_root hsteps (hroot region))

theorem node?_empty (n : NodeId) :
    empty.node? n = if n < 2 then some { kind := .root, span := ⟨0, 0⟩ } else none := by
  match n with
  | 0 | 1 => rfl
  | n + 2 => simp [empty, Arena.pushRoot, Arena.node?, Arena.empty, Arena.size, Arena.push]

theorem parent?_empty (n : NodeId) : empty.parent? n = none := by
  rw [Arena.parent?, node?_empty]
  split <;> rfl

theorem children_empty (n : NodeId) : empty.children n = [] := by
  rw [Arena.children, node?_empty]
  by_cases h : n < 2 <;> simp [h]

theorem doc?_empty (n : NodeId) : empty.doc? n = none := by
  rw [Arena.doc?, node?_empty]
  split <;> rfl

theorem kind?_empty_root (region : Region) : empty.kind? region.root = some .root := by
  cases region <;> rfl

theorem empty_inv : Inv ⟨empty, []⟩ where
  tree :=
    { mem_children := by simp [children_empty, parent?_empty]
      children_nodup := by simp [children_empty]
      child_lt := by simp [children_empty]
      root_free := by simp [parent?_empty]
      pending_nodup := List.nodup_nil
      pending_lt := by simp [Bounded]
      pending_free := by simp
      pending_kind := by simp }
  types := ⟨fun _ => False,
    { typed_lt := by simp
      typed_child := by simp
      typed_form := by simp
      owner := by simp [Arena.typeRoots, doc?_empty]
      pending_typed := by simp
      pending_type := by simp
      pending_params := by simp }⟩
  docs :=
    { doc_parent := by simp [doc?_empty]
      pending_doc := by simp
      pending_stating := by simp }

/-- A measure that falls along the links: nodes of types come below all others, and roots above. -/
theorem acyclic_of_inv {arena : Arena} (h : Inv ⟨arena, []⟩) : arena.Acyclic := by
  classical
  obtain ⟨typed, ht⟩ := h.types
  refine Arena.acyclic_of_measure (fun n => if arena.kind? n = some .root then 2 * arena.size
    else if typed n then n else arena.size + n) fun (n m : Nat) hnm => ?_
  have hroot : ∀ k, typed k → arena.kind? k ≠ some .root := fun k hk => (ht.typed_form k hk).ne_root
  rcases hnm with hc | hm
  · have hm : arena.kind? m ≠ some .root := fun hr => by
      have hfree := h.tree.root_free m hr
      rw [(h.tree.mem_children n m).1 hc] at hfree
      cases hfree
    have hlt : m < arena.size := h.tree.child_lt_size hc
    -- a child is older than its parent, unless that is a root
    have hiff := ht.typed_child n m hc
    rw [if_neg hm]
    rcases h.tree.child_lt n m hc with hmn | hr
    · by_cases htn : typed n
      · rw [if_pos (hiff.2 htn), if_neg (hroot n htn), if_pos htn]
        exact hmn
      · rw [if_neg (mt hiff.1 htn), if_neg htn]
        split_ifs
        · omega
        · exact Nat.add_lt_add_left hmn _
    · rw [if_pos hr]
      split_ifs <;> omega
  · obtain ⟨hm, hn⟩ := ht.owner n m hm
    have hlt : m < arena.size := ht.typed_lt m hm
    rw [if_neg (hroot m hm), if_pos hm, if_neg hn]
    split_ifs <;> omega

theorem shape_of_inv {arena : Arena} (h : Inv ⟨arena, []⟩)
    (hroot : ∀ region : Region, arena.kind? region.root = some .root) : Shape arena := by
  obtain ⟨typed, ht⟩ := h.types
  refine ⟨⟨h.tree.mem_children, fun n t hmem => ?_⟩, acyclic_of_inv h, h.tree.children_nodup, hroot,
    fun region => h.tree.root_free _ (hroot region), h.types, h.docs.doc_parent⟩
  exact ht.typed_lt t (ht.owner n t hmem).1

theorem shape (scripts : List Script) : Shape (ofScripts scripts) := by
  have hsteps := foldl_add_steps scripts empty empty_inv kind?_empty_root
  exact shape_of_inv (empty_inv.steps hsteps) fun region =>
    Steps.kind?_root hsteps (kind?_empty_root region)

end ScriptIndex.Program
