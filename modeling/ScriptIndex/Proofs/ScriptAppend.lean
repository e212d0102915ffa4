import ScriptIndex.Proofs.Programs
import ScriptIndex.Proofs.ScriptRelocation

/-! # Reading a script appends to the arena

What is read into an arena is what is read into an empty one, after the nodes that were there before. A
script that is read is then put under its root; one that is refused leaves the old nodes as they were. -/

namespace ScriptIndex

namespace Arena

/-- The nodes of `arena`, and after them those of `fresh`, whose indexes move up by the size of `arena`. -/
def followedBy (arena fresh : Arena) : Arena :=
  ⟨arena.nodes ++ fresh.nodes.map (·.renamed (arena.size + ·))⟩

theorem size_followedBy (arena fresh : Arena) : (arena.followedBy fresh).size = arena.size + fresh.size := by
  simp [followedBy, size]

theorem node?_followedBy_old {arena : Arena} (fresh : Arena) {n : NodeId} (h : n < arena.size) :
    (arena.followedBy fresh).node? n = arena.node? n :=
  Array.getElem?_append_left h

theorem node?_followedBy_new (arena fresh : Arena) (n : NodeId) :
    (arena.followedBy fresh).node? (arena.size + n) = (fresh.node? n).map (·.renamed (arena.size + ·)) := by
  show (arena.nodes ++ _)[arena.nodes.size + n]? = _
  rw [Array.getElem?_append_right (Nat.le_add_right _ _), Nat.add_sub_cancel_left, Array.getElem?_map]
  rfl

theorem le_parent?_followedBy {arena fresh : Arena} {n p : NodeId} (hn : arena.size ≤ n)
    (h : (arena.followedBy fresh).parent? n = some p) : arena.size ≤ p := by
  obtain ⟨k, rfl⟩ := Nat.exists_eq_add_of_le hn
  obtain ⟨y, hy, hp⟩ := Option.bind_eq_some_iff.1 h
  rw [node?_followedBy_new] at hy
  obtain ⟨x, -, rfl⟩ := Option.map_eq_some_iff.1 hy
  obtain ⟨q, -, rfl⟩ := Option.map_eq_some_iff.1 hp
  exact Nat.le_add_right _ _

theorem le_children_followedBy {arena fresh : Arena} {n : NodeId} (hn : arena.size ≤ n) :
    ∀ c ∈ (arena.followedBy fresh).children n, arena.size ≤ c := by
  obtain ⟨k, rfl⟩ := Nat.exists_eq_add_of_le hn
  intro c hc
  rw [children, node?_followedBy_new] at hc
  cases hk : fresh.node? k with
  | none =>
    rw [hk] at hc
    cases hc
  | some x =>
    rw [hk] at hc
    obtain ⟨d, -, rfl⟩ := List.mem_map.1 hc
    exact Nat.le_add_right _ _

end Arena

namespace Relocation

/-- The same positions, after the nodes of the given arena. -/
def after (base : Arena) : Relocation where
  base := base
  near := Eq
  near_add n h := congrArg (· + n) h
  near_max h h' := by rw [h, h']

variable {base : Arena}

theorem Spans.eq {a b : Span} (h : (after base).Spans a b) : b = a := by
  obtain ⟨start, stop⟩ := a
  obtain ⟨start', stop'⟩ := b
  obtain ⟨rfl, rfl⟩ := h
  rfl

theorem Nodes.eq {x y : Node} (h : (after base).Nodes x y) : y = x.renamed (base.size + ·) := by
  obtain ⟨kind, span, parent, children, doc⟩ := y
  obtain ⟨rfl, hspan, rfl, rfl, rfl⟩ := h
  cases hspan.eq
  rfl

theorem Failures.eq {e e' : Failure} (h : (after base).Failures e e') : e' = e := by
  cases h with
  | exhausted => rfl
  | @rejected a b h =>
    obtain ⟨cause, span, token⟩ := b
    obtain ⟨rfl, hspan, rfl⟩ := h
    cases hspan.eq
    rfl

theorem Arenas.eq {left right : Arena} (h : (after base).Arenas left right) : right = base.followedBy left := by
  have hnode (n : NodeId) : right.node? n = (base.followedBy left).node? n := by
    rcases Nat.lt_or_ge n base.size with hn | hn
    · exact (h.old n hn).trans (Arena.node?_followedBy_old left hn).symm
    · obtain ⟨k, rfl⟩ := Nat.exists_eq_add_of_le hn
      rw [Arena.node?_followedBy_new]
      cases hk : left.node? k with
      | some x =>
        obtain ⟨y, hy, hxy⟩ := h.new k x hk
        rw [Option.map_some, ← hxy.eq]
        exact hy
      | none =>
        have hle : left.size ≤ k := Arena.le_of_node?_eq_none hk
        exact Arena.node?_eq_none (by rw [h.size]; exact Nat.add_le_add_left hle _)
  obtain ⟨nodes⟩ := right
  exact congrArg Arena.mk (Array.ext_getElem? hnode)

theorem Arenas.followedBy (base left : Arena) : (after base).Arenas left (base.followedBy left) := by
  refine ⟨base.size_followedBy left, fun n hn => Arena.node?_followedBy_old left hn, fun n x hx => ?_⟩
  refine ⟨x.renamed (base.size + ·), ?_, rfl, ⟨rfl, rfl⟩, rfl, rfl, rfl⟩
  exact (Arena.node?_followedBy_new base left n).trans (congrArg (Option.map _) hx)

theorem Arenas.empty (base : Arena) : (after base).Arenas .empty base :=
  ⟨rfl, fun _ _ => rfl, fun _ _ h => by cases h⟩

theorem Tokens.refl (t : Token) : (after base).Tokens t t :=
  ⟨rfl, ⟨rfl, rfl⟩, rfl, by
    cases t.doc with
    | none => exact .none
    | some doc => exact .some ⟨rfl, rfl⟩⟩

theorem Inputs.ofStream (stream : Stream) : (after base).Inputs (.ofStream stream) (.ofStream stream) := by
  refine ⟨⟨List.forall₂_same.2 fun t _ => .refl t, ?_⟩, rfl⟩
  show (after base).Ends stream.last stream.last
  cases stream.last with
  | ok t => exact .ok (.refl t)
  | error e => exact .error ⟨rfl, ⟨rfl, rfl⟩, rfl⟩

end Relocation

namespace Build
open Relocation

theorem script_relocates (arena : Arena) (source : List UInt8) (options : Options) :
    Relocates (after arena) 0 (script source options) (script source options) (after arena).Ids :=
  (ScriptReader.script_moves (after arena) rfl options.module 0 _ _ (.ofStream _)).map fun _ _ _ hn => hn.1

/-- What reading a script under a root of an arena comes to, by what reading it into an empty arena comes
to. A script that is read is put under the root, and nothing else changes. -/
inductive Appends (arena : Arena) (root : NodeId) :
    EStateM.Result Failure Arena NodeId → EStateM.Result Failure Arena NodeId → Prop
  | ok {n : NodeId} {fresh after : Arena} (lt : n < fresh.size)
      (attached : Attached (arena.followedBy fresh) root (arena.size + n) after) :
      Appends arena root (.ok n fresh) (.ok (arena.size + n) after)
  | error {e : Failure} {fresh : Arena}
      (old : ∀ n < arena.size, (arena.followedBy fresh).node? n = arena.node? n)
      (new_parent : ∀ n p, arena.size ≤ n → (arena.followedBy fresh).parent? n = some p → arena.size ≤ p)
      (new_child : ∀ n, arena.size ≤ n → ∀ c ∈ (arena.followedBy fresh).children n, arena.size ≤ c) :
      Appends arena root (.error e fresh) (.error e (arena.followedBy fresh))

theorem scriptUnder_appends {arena : Arena} {root : NodeId} (hroot : root < arena.size) (source : List UInt8)
    (options : Options) :
    Appends arena root (script source options .empty) (scriptUnder root source options arena) := by
  have h := script_relocates arena source options .empty arena (.empty arena) (Nat.zero_le _)
  generalize script source options .empty = r at h
  generalize hright : script source options arena = r' at h
  cases h with
  | error harenas hfail =>
    rw [harenas.eq, hfail.eq] at hright
    rw [scriptUnder, run_bind_error hright]
    exact .error (fun _ => Arena.node?_followedBy_old _) (fun _ _ => Arena.le_parent?_followedBy)
      fun _ => Arena.le_children_followedBy
  | @ok n n' fresh _ harenas _ hn =>
    have hn' : n' = arena.size + n := hn.eq
    rw [harenas.eq, hn'] at hright
    have hsize := arena.size_followedBy fresh
    have hscript : arena.size + n < (arena.followedBy fresh).size := hsize ▸ Nat.add_lt_add_left hn.lt _
    have hne : arena.size + n ≠ root := Nat.ne_of_gt (Nat.lt_add_right n hroot)
    obtain ⟨after, happend, hattached⟩ :=
      Arena.append_of_lt hscript (Nat.lt_of_lt_of_le hroot (hsize ▸ Nat.le_add_right _ _)) hne
    have hrun : scriptUnder root source options arena = .ok (arena.size + n) after := by
      rw [scriptUnder, run_bind_ok hright, run_bind_ok (run_update_ok (f := (·.append root _)) happend)]
      rfl
    rw [hrun]
    exact .ok hn.lt hattached

theorem scriptUnder_appends_second :
    let arena := Program.ofScripts [⟨.source, ascii "/** @const */ var a;", .standard⟩]
    let source := ascii "a.b = function(c) \x7b return c \x7d; /** @type \x7b!a\x7d */ d = ;"
    Region.source.root < arena.size ∧ Appends arena Region.source.root (script source .standard .empty)
      (scriptUnder Region.source.root source .standard arena) := by
  intro arena source
  have hroot : Region.source.root < arena.size := Arena.lt_of_kind? ((Program.shape _).root_kind _)
  exact ⟨hroot, scriptUnder_appends hroot source .standard⟩

end Build

end ScriptIndex
