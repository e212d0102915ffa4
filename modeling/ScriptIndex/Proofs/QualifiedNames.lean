import Mathlib.Tactic.SplitIfs
import ScriptIndex.Arena.CanonicalName

/-! # Classes of qualified names

To be the same qualified name is symmetric and transitive, and nodes that are the same have one canonical
name. -/

namespace ScriptIndex.Arena

variable {arena : Arena} {a b c : NodeId}

theorem sameQualifiedWithin_succ {depth : Nat} : arena.sameQualifiedWithin (depth + 1) a b = true ↔
    (∃ x, arena.kind? a = some (.name x) ∧ arena.kind? b = some (.name x) ∧ x ≠ "") ∨
    (arena.kind? a = some .thisValue ∧ arena.kind? b = some .thisValue) ∨
    ∃ x a' b', arena.kind? a = some (.property x) ∧ arena.kind? b = some (.property x) ∧
      arena.firstChild? a = some a' ∧ arena.firstChild? b = some b' ∧
      arena.sameQualifiedWithin depth a' b' = true := by
  constructor
  · intro h
    rw [sameQualifiedWithin] at h
    split at h
    · next x y hx hy =>
      obtain ⟨hne, rfl⟩ : x ≠ "" ∧ x = y := by simpa using h
      exact .inl ⟨x, hx, hy, hne⟩
    · next hx hy => exact .inr (.inl ⟨hx, hy⟩)
    · next x y hx hy =>
      rw [Bool.and_eq_true, beq_iff_eq] at h
      obtain ⟨rfl, h⟩ := h
      cases ha : arena.firstChild? a with
      | none => simp [ha] at h
      | some a' =>
        cases hb : arena.firstChild? b with
        | none => simp [ha, hb] at h
        | some b' => exact .inr (.inr ⟨x, a', b', hx, hy, rfl, rfl, by simpa [ha, hb] using h⟩)
    · cases h
  · rintro (⟨x, ha, hb, hne⟩ | ⟨ha, hb⟩ | ⟨x, a', b', ha, hb, ha', hb', h⟩)
    · simp [sameQualifiedWithin, ha, hb, hne]
    · simp [sameQualifiedWithin, ha, hb]
    · simp [sameQualifiedWithin, ha, hb, ha', hb', h]

theorem sameQualifiedWithin_symm : ∀ {depth : Nat} {a b : NodeId},
    arena.sameQualifiedWithin depth a b = true → arena.sameQualifiedWithin depth b a = true
  | depth + 1, a, b, h => by
    rw [sameQualifiedWithin_succ] at h ⊢
    rcases h with ⟨x, ha, hb, hne⟩ | ⟨ha, hb⟩ | ⟨x, a', b', ha, hb, ha', hb', h⟩
    · exact .inl ⟨x, hb, ha, hne⟩
    · exact .inr (.inl ⟨hb, ha⟩)
    · exact .inr (.inr ⟨x, b', a', hb, ha, hb', ha', sameQualifiedWithin_symm h⟩)

theorem sameQualifiedWithin_trans : ∀ {depth : Nat} {a b c : NodeId},
    arena.sameQualifiedWithin depth a b = true → arena.sameQualifiedWithin depth b c = true →
      arena.sameQualifiedWithin depth a c = true
  | depth + 1, a, b, c, h, h' => by
    rw [sameQualifiedWithin_succ] at h h' ⊢
    rcases h with ⟨x, ha, hb, hne⟩ | ⟨ha, hb⟩ | ⟨x, a', b', ha, hb, ha', hb', hab⟩
    · rcases h' with ⟨y, hb', hc, -⟩ | ⟨hb', -⟩ | ⟨y, -, -, hb', -⟩ <;> rw [hb] at hb' <;> cases hb'
      exact .inl ⟨x, ha, hc, hne⟩
    · rcases h' with ⟨y, hb', -⟩ | ⟨hb', hc⟩ | ⟨y, -, -, hb', -⟩ <;> rw [hb] at hb' <;> cases hb'
      exact .inr (.inl ⟨ha, hc⟩)
    · rcases h' with ⟨y, hb₁, -⟩ | ⟨hb₁, -⟩ | ⟨y, b₁, c', hb₁, hc, hb₁', hc', hbc⟩ <;>
        rw [hb] at hb₁ <;> cases hb₁
      obtain rfl : b' = b₁ := Option.some.inj (hb'.symm.trans hb₁')
      exact .inr (.inr ⟨x, a', c', ha, hc, ha', hc', sameQualifiedWithin_trans hab hbc⟩)

theorem isQualifiedWithin_of_same : ∀ {depth : Nat} {a b : NodeId},
    arena.sameQualifiedWithin depth a b = true → arena.isQualifiedWithin depth a = true
  | depth + 1, a, b, h => by
    rw [sameQualifiedWithin_succ] at h
    rcases h with ⟨x, ha, -, hne⟩ | ⟨ha, -⟩ | ⟨x, a', b', ha, -, ha', -, h⟩
    · simp [isQualifiedWithin, ha, hne]
    · simp [isQualifiedWithin, ha]
    · simp [isQualifiedWithin, ha, ha', isQualifiedWithin_of_same h]

theorem canonicalName?_eq_of_sameWithin : ∀ {depth : Nat},
    arena.sameQualifiedWithin depth a b = true → arena.canonicalName? a = arena.canonicalName? b
  | depth + 1, h => by
    rw [sameQualifiedWithin_succ] at h
    rcases h with ⟨x, ha, hb, -⟩ | ⟨ha, hb⟩ | ⟨x, -, -, ha, hb, -⟩ <;>
      simp only [canonicalName?, ha, hb]

theorem sameQualified_symm (h : arena.sameQualified a b = true) : arena.sameQualified b a = true :=
  sameQualifiedWithin_symm h

theorem sameQualified_trans (h : arena.sameQualified a b = true) (h' : arena.sameQualified b c = true) :
    arena.sameQualified a c = true :=
  sameQualifiedWithin_trans h h'

/-- The same nodes are the same as a node and as any node that is the same as that. -/
theorem sameQualified_congr (h : arena.sameQualified a b = true) (c : NodeId) :
    arena.sameQualified c a = arena.sameQualified c b :=
  Bool.eq_iff_iff.2
    ⟨fun hc => sameQualified_trans hc h, fun hc => sameQualified_trans hc (sameQualified_symm h)⟩

theorem isQualified_of_same (h : arena.sameQualified a b = true) : arena.isQualified a = true :=
  isQualifiedWithin_of_same h

theorem canonicalName?_eq_of_same (h : arena.sameQualified a b = true) :
    arena.canonicalName? a = arena.canonicalName? b :=
  canonicalName?_eq_of_sameWithin h

end ScriptIndex.Arena
