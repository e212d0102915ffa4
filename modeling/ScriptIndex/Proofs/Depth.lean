import Mathlib.Data.List.Flatten
import ScriptIndex.Proofs.WalkOrder

/-! # Recursions that go deep enough

A recursion along links gives the same at all depths above the rank of the node. -/

namespace ScriptIndex.Arena

variable {arena : Arena} (hl : arena.Linked) (ha : arena.Acyclic)
include hl ha

theorem rank_firstChild_lt {n c : NodeId} (h : arena.firstChild? n = some c) : arena.rank c < arena.rank n :=
  ha.rank_lt hl (.inl (List.mem_of_mem_head? h))

theorem isQualifiedWithin_eq : ∀ {depth depth' : Nat} {n : NodeId}, arena.rank n < depth →
    arena.rank n < depth' → arena.isQualifiedWithin depth n = arena.isQualifiedWithin depth' n
  | depth + 1, depth' + 1, n, h, h' => by
    cases hc : arena.firstChild? n with
    | none => simp only [isQualifiedWithin, hc, Option.any_none]
    | some c =>
      have hlt := rank_firstChild_lt hl ha hc
      have hrec : arena.isQualifiedWithin depth c = arena.isQualifiedWithin depth' c :=
        isQualifiedWithin_eq (by omega) (by omega)
      simp only [isQualifiedWithin, hc, Option.any_some, hrec]

theorem qualifiedNameWithin?_eq : ∀ {depth depth' : Nat} {n : NodeId}, arena.rank n < depth →
    arena.rank n < depth' → arena.qualifiedNameWithin? depth n = arena.qualifiedNameWithin? depth' n
  | depth + 1, depth' + 1, n, h, h' => by
    cases hc : arena.firstChild? n with
    | none => simp only [qualifiedNameWithin?, hc, Option.bind_none]
    | some c =>
      have hlt := rank_firstChild_lt hl ha hc
      have hrec : arena.qualifiedNameWithin? depth c = arena.qualifiedNameWithin? depth' c :=
        qualifiedNameWithin?_eq (by omega) (by omega)
      simp only [qualifiedNameWithin?, hc, Option.bind_some, hrec]

theorem sameQualifiedWithin_eq : ∀ {depth depth' : Nat} {a b : NodeId}, arena.rank a < depth →
    arena.rank a < depth' → arena.sameQualifiedWithin depth a b = arena.sameQualifiedWithin depth' a b
  | depth + 1, depth' + 1, a, b, h, h' => by
    cases hc : arena.firstChild? a with
    | none => simp only [sameQualifiedWithin, hc]
    | some c =>
      have hlt := rank_firstChild_lt hl ha hc
      have hrec : ∀ b, arena.sameQualifiedWithin depth c b = arena.sameQualifiedWithin depth' c b :=
        fun b => sameQualifiedWithin_eq (by omega) (by omega)
      cases hb : arena.firstChild? b <;> simp only [sameQualifiedWithin, hc, hb, hrec]

theorem isImmutableWithin_eq : ∀ {depth depth' : Nat} {n : NodeId}, arena.rank n < depth →
    arena.rank n < depth' → arena.isImmutableWithin depth n = arena.isImmutableWithin depth' n
  | depth + 1, depth' + 1, n, h, h' => by
    cases hc : arena.firstChild? n with
    | none => simp only [isImmutableWithin, hc, Option.any_none]
    | some c =>
      have hlt := rank_firstChild_lt hl ha hc
      have hrec : arena.isImmutableWithin depth c = arena.isImmutableWithin depth' c :=
        isImmutableWithin_eq (by omega) (by omega)
      simp only [isImmutableWithin, hc, Option.any_some, hrec]

theorem walkWithin_eq {policy : Policy} : ∀ {depth depth' : Nat} {around : Place} {parent : Option NodeId}
    {n : NodeId}, arena.rank n < depth → arena.rank n < depth' →
    arena.walkWithin policy depth around parent n = arena.walkWithin policy depth' around parent n
  | depth + 1, depth' + 1, around, parent, n, h, h' => by
    have hrec : ∀ {m : NodeId} {place : Place} {p : Option NodeId}, arena.Link n m →
        arena.walkWithin policy depth place p m = arena.walkWithin policy depth' place p m := by
      intro m place p hm
      have hlt := ha.rank_lt hl hm
      exact walkWithin_eq (by omega) (by omega)
    have htypes : ∀ order here,
        arena.typeWalk policy order depth here n = arena.typeWalk policy order depth' here n := by
      intro order here
      unfold typeWalk
      rw [List.flatMap_congr fun t ht => hrec (.inr ht)]
    have hchildren : ∀ here,
        arena.childWalk policy depth here parent n = arena.childWalk policy depth' here parent n := by
      intro here
      exact List.flatMap_congr fun ⟨place, c⟩ hc => hrec (.inl (mem_children_of_childPlaces hc))
    cases henters : policy.enters n parent with
    | false => rw [walkWithin_of_not_enters henters, walkWithin_of_not_enters henters]
    | true =>
      rw [walkWithin_of_enters henters, walkWithin_of_enters henters, htypes, htypes, hchildren]

end ScriptIndex.Arena
