import ScriptIndex.Definition.Extractor
import ScriptIndex.Proofs.GatherRuns
import ScriptIndex.Proofs.Programs

/-! # What the form of a program defines

A node that defines a name by its form has no documentation and is no expression statement's child, and
nothing in a type defines a name. -/

namespace ScriptIndex

namespace Arena

/-- Whether the node is the expression of an expression statement. -/
def isBare (arena : Arena) (n : NodeId) : Bool := (arena.parent? n).any arena.isExpressionStatement

end Arena

variable {arena : Arena} {n p : NodeId} {region : Region} {d : Definition}

/-- The kinds of nodes whose children may define names. -/
def Kind.defines : Kind → Bool
  | declaration _ | function | assign | object | params => true
  | _ => false

namespace Extractor

theorem syntactic_eq_some (h : syntactic arena n region = some d) :
    ∃ p kind rvalue, arena.parent? n = some p ∧ arena.kind? p = some kind ∧ kind.defines = true ∧
      d = .concrete n rvalue region := by
  obtain ⟨p, hp, h⟩ := Option.bind_eq_some_iff.1 h
  have hif : ∀ (holds : Bool) (rvalue : Option NodeId),
      (if holds then some (Definition.concrete n rvalue region) else none) = some d →
        d = .concrete n rvalue region := by
    intro holds rvalue h
    cases holds <;> cases h
    rfl
  unfold syntacticUnder at h
  dsimp only at h
  split at h
  case h_6 => cases h
  all_goals next hk => exact ⟨p, _, _, hp, hk, rfl, hif _ _ h⟩

end Extractor

namespace Arena

theorem IsTypeNode.isName_eq (h : arena.IsTypeNode n) : arena.isName n = false := by
  rcases h with ⟨kind, hk, htype⟩ | ⟨hk, -⟩
  · cases kind <;> simp [isName, hk, Kind.isType] at htype ⊢
  · simp [isName, hk]

/-- Below a node of a type nothing is defined, and no node is an expression statement's child. -/
theorem InType.children (h : arena.InType p) (hn : n ∈ arena.children p) :
    arena.isExpressionStatement p = false ∧ Extractor.syntacticUnder arena p n region = none := by
  unfold Extractor.syntacticUnder isExpressionStatement
  rcases h with (⟨kind, hk, htype⟩ | ⟨hk, c, hc, hck⟩) | ⟨hk, hall⟩
  · cases kind <;> simp [hk, Kind.isType] at htype ⊢
  · have hunnamed : arena.firstChild? p = some n → arena.givenName? n = none := by
      intro hfirst
      obtain rfl : c = n := Option.some.inj (hc.symm.trans hfirst)
      simp [givenName?, nameText?, hck]
    refine ⟨by simp [hk], ?_⟩
    by_cases hfirst : arena.firstChild? p = some n
    · simp [hk, hunnamed hfirst]
    · simp [hk, hfirst]
  · simp [hk, (hall n hn).isName_eq]

end Arena

namespace Program
open Assembly

variable {typed : NodeId → Prop}

theorem typed_link (ht : TypeInv typed ⟨arena, []⟩) {m : NodeId} (hn : typed n) (h : arena.Link n m) : typed m := by
  rcases h with hc | hm
  · exact (ht.typed_child n m hc).2 hn
  · exact absurd hn (ht.owner n m hm).2

/-- Nothing in a type defines a name or is an expression statement's child. -/
theorem typed_inert (h : Shape arena) (ht : TypeInv typed ⟨arena, []⟩) (hn : typed n) (region : Region) :
    arena.isBare n = false ∧ Extractor.syntactic arena n region = none := by
  unfold Arena.isBare Extractor.syntactic
  cases hp : arena.parent? n with
  | none => exact ⟨rfl, rfl⟩
  | some p =>
    have hc : n ∈ arena.children p := (h.linked.mem_children p n).2 hp
    exact (ht.typed_form p ((ht.typed_child p n hc).1 hn)).children hc

/-- What defines a name by its form is not documented. -/
theorem Shape.found (h : Shape arena) (hd : Extractor.syntactic arena n region = some d) :
    arena.isBare n = false ∧ arena.declares n = false := by
  obtain ⟨p, kind, -, hp, hk, hdefines, -⟩ := Extractor.syntactic_eq_some hd
  refine ⟨?_, ?_⟩
  · cases kind <;> simp [Arena.isBare, Arena.isExpressionStatement, hp, hk, Kind.defines] at hdefines ⊢
  · have hdoc : arena.doc? n = none := by
      by_contra hne
      obtain ⟨kind', hk', hor⟩ := h.doc_parent n p hne hp
      obtain rfl : kind = kind' := Option.some.inj (hk.symm.trans hk')
      cases kind <;> simp [Kind.holdsStatements, Kind.defines] at hor hdefines
    simp [Arena.declares, hdoc]

end Program

/-- What is recorded of a definition found by its form is no stub. -/
theorem recorded_syntactic (h : Extractor.syntactic arena n region = some d) :
    (d.recorded arena region).lvalue = n ∧ (d.recorded arena region).region = region ∧
      (d.recorded arena region).isStub = false := by
  obtain ⟨-, -, rvalue, -, -, -, rfl⟩ := Extractor.syntactic_eq_some h
  refine ⟨Definition.lvalue_recorded arena region _, ?_⟩
  unfold Definition.recorded
  cases rvalue with
  | none => exact ⟨rfl, rfl⟩
  | some value =>
    dsimp only [Definition.rvalue]
    split_ifs <;> exact ⟨rfl, rfl⟩

end ScriptIndex
