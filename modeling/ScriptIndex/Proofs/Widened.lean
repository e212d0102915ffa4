import ScriptIndex.Proofs.Depth
import ScriptIndex.Proofs.GatherRuns

/-! # One more root

An arena with one more empty root reads like the arena without it: names, values and walks of the other
nodes are the same, and a visit does the same there. -/

namespace ScriptIndex

/-- `wide` is `arena` with one more node, a root without children. -/
structure Widened (arena wide : Arena) : Prop where
  size : wide.size = arena.size + 1
  kind : ∀ n, wide.kind? n = if n = arena.size then some .root else arena.kind? n
  children : ∀ n, wide.children n = arena.children n
  parent? : ∀ n, wide.parent? n = arena.parent? n
  doc? : ∀ n, wide.doc? n = arena.doc? n

namespace Widened

theorem pushRoot (arena : Arena) : Widened arena arena.pushRoot.2 := by
  have hnode := Arena.node?_push arena .root ⟨0, 0⟩
  have hnone : arena.node? arena.size = none := Arena.node?_eq_none (Nat.le_refl _)
  refine ⟨Arena.size_push arena .root ⟨0, 0⟩, fun n => ?_, fun n => ?_, fun n => ?_, fun n => ?_⟩
  · rw [Arena.kind?, Arena.pushRoot, hnode]
    split_ifs <;> rfl
  · rw [Arena.children, Arena.pushRoot, hnode]
    split_ifs with h
    · rw [h, Arena.children, hnone]
    · rfl
  · rw [Arena.parent?, Arena.pushRoot, hnode]
    split_ifs with h
    · rw [h, Arena.parent?, hnone]
      rfl
    · rfl
  · rw [Arena.doc?, Arena.pushRoot, hnode]
    split_ifs with h
    · rw [h, Arena.doc?, hnone]
      rfl
    · rfl

variable {arena wide : Arena} (h : Widened arena wide)
include h

/-- The new node is a root, which no reading of names tells from no node at all. -/
theorem kind_cases (n : NodeId) :
    wide.kind? n = arena.kind? n ∨ wide.kind? n = some .root ∧ arena.kind? n = none := by
  rw [h.kind]
  split_ifs with hn
  · refine .inr ⟨rfl, ?_⟩
    rw [Arena.kind?, hn, Arena.node?_eq_none (Nat.le_refl _)]
    rfl
  · exact .inl rfl

theorem firstChild? (n : NodeId) : wide.firstChild? n = arena.firstChild? n := by
  rw [Arena.firstChild?, Arena.firstChild?, h.children]

theorem typeRoots (n : NodeId) : wide.typeRoots n = arena.typeRoots n := by
  rw [Arena.typeRoots, Arena.typeRoots, h.doc?]

theorem declares (n : NodeId) : wide.declares n = arena.declares n := by
  rw [Arena.declares, Arena.declares, h.doc?]

theorem isName (n : NodeId) : wide.isName n = arena.isName n := by
  rcases h.kind_cases n with heq | ⟨hw, hn⟩ <;> simp [Arena.isName, *]

theorem isFunction (n : NodeId) : wide.isFunction n = arena.isFunction n := by
  rcases h.kind_cases n with heq | ⟨hw, hn⟩ <;> simp [Arena.isFunction, *]

theorem isObject (n : NodeId) : wide.isObject n = arena.isObject n := by
  rcases h.kind_cases n with heq | ⟨hw, hn⟩ <;> simp [Arena.isObject, *]

theorem isExpressionStatement (n : NodeId) : wide.isExpressionStatement n = arena.isExpressionStatement n := by
  rcases h.kind_cases n with heq | ⟨hw, hn⟩ <;> simp [Arena.isExpressionStatement, *]

theorem givenName? (n : NodeId) : wide.givenName? n = arena.givenName? n := by
  rcases h.kind_cases n with heq | ⟨hw, hn⟩ <;> simp [Arena.givenName?, Arena.nameText?, *]

theorem canonicalName? (n : NodeId) : wide.canonicalName? n = arena.canonicalName? n := by
  have hobject : wide.isObject = arena.isObject := funext h.isObject
  rcases h.kind_cases n with heq | ⟨hw, hn⟩ <;> simp [Arena.canonicalName?, h.parent?, *]

theorem isFunctionDeclaration (n : NodeId) : wide.isFunctionDeclaration n = arena.isFunctionDeclaration n := by
  have hname : wide.givenName? = arena.givenName? := funext h.givenName?
  have hposition : wide.inStatementPosition n = arena.inStatementPosition n := by
    unfold Arena.inStatementPosition
    rw [h.parent?]
    cases arena.parent? n with
    | none => rfl
    | some p =>
      simp only [Option.bind_some]
      rcases h.kind_cases p with heq | ⟨hw, hn⟩ <;> simp [*]
  rw [Arena.isFunctionDeclaration, Arena.isFunctionDeclaration, h.isFunction, h.firstChild?, hname, hposition]

/-- The form of the program is the same. -/
theorem syntactic (n : NodeId) (region : Region) :
    Extractor.syntactic wide n region = Extractor.syntactic arena n region := by
  have hunder : ∀ p, Extractor.syntacticUnder wide p n region = Extractor.syntacticUnder arena p n region := by
    intro p
    have hfunction : wide.isFunction = arena.isFunction := funext h.isFunction
    have hkey : wide.isKey n = arena.isKey n := by
      rcases h.kind_cases n with heq | ⟨hw, hn⟩ <;> simp [Arena.isKey, *]
    have hchild : wide.child? p 1 = arena.child? p 1 := by rw [Arena.child?, Arena.child?, h.children]
    simp only [Extractor.syntacticUnder, h.firstChild?, h.givenName?, h.isName, h.parent?, hfunction, hkey, hchild]
    rcases h.kind_cases p with heq | ⟨hw, hn⟩
    · rw [heq]
    · rw [hw, hn]
  simp only [Extractor.syntactic, h.parent?, hunder]

/-! ### Walks -/

theorem placeAt (around : Place) (n : NodeId) : wide.placeAt around n = arena.placeAt around n := by
  rcases h.kind_cases n with heq | ⟨hw, hn⟩ <;> simp [Arena.placeAt, *]

theorem childPlaces (here : Place) (n : NodeId) (parent : Option NodeId) :
    wide.childPlaces here n parent = arena.childPlaces here n parent := by
  have hfunction : wide.isFunction = arena.isFunction := funext h.isFunction
  have hscope : wide.opensScope n parent = arena.opensScope n parent := by
    rcases h.kind_cases n with heq | ⟨hw, hn⟩ <;> simp [Arena.opensScope, *]
  rw [Arena.childPlaces, Arena.childPlaces, hscope, h.children, h.isFunctionDeclaration]

theorem gatherPolicy (region : Region) : wide.gatherPolicy region = arena.gatherPolicy region := by
  cases region with
  | source => rfl
  | externs =>
    have hname : wide.isName = arena.isName := funext h.isName
    have henters : wide.entersExtern = arena.entersExtern := by
      funext n parent
      simp only [Arena.entersExtern, h.isFunction, h.firstChild?, hname]
    simp only [Arena.gatherPolicy, henters]

theorem walkWithin (policy : Policy) : ∀ (depth : Nat) (around : Place) (parent : Option NodeId) (n : NodeId),
    wide.walkWithin policy depth around parent n = arena.walkWithin policy depth around parent n
  | 0, _, _, _ => rfl
  | depth + 1, around, parent, n => by
    have hrec : wide.walkWithin policy depth = arena.walkWithin policy depth := by
      funext around parent n
      exact walkWithin policy depth around parent n
    simp only [Arena.walkWithin, hrec, h.placeAt, h.typeRoots, h.childPlaces]

theorem linked (hl : arena.Linked) : wide.Linked := by
  refine ⟨fun n c => ?_, fun n t ht => ?_⟩
  · rw [h.children, h.parent?]
    exact hl.mem_children n c
  · rw [h.typeRoots] at ht
    rw [h.size]
    exact Nat.lt_succ_of_lt (hl.typeRoots_lt n t ht)

/-! ### Names and values -/

theorem isQualifiedWithin : ∀ (depth : Nat) (n : NodeId),
    wide.isQualifiedWithin depth n = arena.isQualifiedWithin depth n
  | 0, _ => rfl
  | depth + 1, n => by
    have hrec : wide.isQualifiedWithin depth = arena.isQualifiedWithin depth := funext (isQualifiedWithin depth)
    rcases h.kind_cases n with heq | ⟨hw, hn⟩ <;> simp [Arena.isQualifiedWithin, h.firstChild?, *]

theorem sameQualifiedWithin : ∀ (depth : Nat) (a b : NodeId),
    wide.sameQualifiedWithin depth a b = arena.sameQualifiedWithin depth a b
  | 0, _, _ => rfl
  | depth + 1, a, b => by
    have hrec : wide.sameQualifiedWithin depth = arena.sameQualifiedWithin depth := by
      funext a b
      exact sameQualifiedWithin depth a b
    rcases h.kind_cases a with ha | ⟨haw, ha⟩ <;> rcases h.kind_cases b with hb | ⟨hbw, hb⟩ <;>
      simp [Arena.sameQualifiedWithin, h.firstChild?, *]

theorem isImmutableWithin : ∀ (depth : Nat) (n : NodeId),
    wide.isImmutableWithin depth n = arena.isImmutableWithin depth n
  | 0, _ => rfl
  | depth + 1, n => by
    have hrec : wide.isImmutableWithin depth = arena.isImmutableWithin depth := funext (isImmutableWithin depth)
    rcases h.kind_cases n with heq | ⟨hw, hn⟩ <;> simp [Arena.isImmutableWithin, h.firstChild?, *]

variable (hl : arena.Linked) (ha : arena.Acyclic) (hpos : 0 < arena.size)
include hl ha hpos

theorem isQualified (n : NodeId) : wide.isQualified n = arena.isQualified n := by
  have hrank := ha.rank_lt_of_pos hpos n
  rw [Arena.isQualified, h.isQualifiedWithin, h.size]
  exact Arena.isQualifiedWithin_eq hl ha (Nat.lt_succ_of_lt hrank) hrank

theorem sameQualified (a b : NodeId) : wide.sameQualified a b = arena.sameQualified a b := by
  have hrank := ha.rank_lt_of_pos hpos a
  rw [Arena.sameQualified, h.sameQualifiedWithin, h.size]
  exact Arena.sameQualifiedWithin_eq hl ha (Nat.lt_succ_of_lt hrank) hrank

theorem isImmutable (n : NodeId) : wide.isImmutable n = arena.isImmutable n := by
  have hrank := ha.rank_lt_of_pos hpos n
  rw [Arena.isImmutable, h.isImmutableWithin, h.size]
  exact Arena.isImmutableWithin_eq hl ha (Nat.lt_succ_of_lt hrank) hrank

theorem visits (region : Region) (root : NodeId) : wide.visits region root = arena.visits region root := by
  have hrank := Nat.lt_succ_of_lt (ha.rank_lt_of_pos hpos root)
  rw [Arena.visits, h.gatherPolicy, h.walkWithin, h.size,
    Arena.walkWithin_eq hl ha (Nat.lt_succ_of_lt hrank) hrank]
  rfl

/-- A visit does the same if the extractor answers the same. -/
theorem visit {extractor : Extractor} {region : Region} {a : Arrival} (g : Gathering)
    (hanswer : extractor wide a.node region = extractor arena a.node region) :
    g.visitBy wide extractor region a = g.visitBy arena extractor region a := by
  have hsame : wide.sameQualified = arena.sameQualified := by
    funext a b
    exact h.sameQualified hl ha hpos a b
  have hrecorded : ∀ d : Definition, d.recorded wide region = d.recorded arena region := by
    intro d
    simp only [Definition.recorded, h.isImmutable hl ha hpos, h.isFunction]
  have hstatement : wide.isExpressionStatement = arena.isExpressionStatement := funext h.isExpressionStatement
  have hdrop : Gathering.dropStub wide = Gathering.dropStub arena := by
    funext node name g stub
    simp only [Gathering.dropStub, hsame]
  have hredundant : ∀ (g : Gathering) node name, g.isRedundant wide node name = g.isRedundant arena node name := by
    intro g node name
    simp only [Gathering.isRedundant, h.declares, h.isQualified hl ha hpos, hsame]
  have hstub : ∀ g : Gathering, g.recordStub wide a = g.recordStub arena a := by
    intro g
    simp only [Gathering.recordStub, h.canonicalName?, hredundant]
  have hfound : ∀ (g : Gathering) d, g.recordFound wide region a d = g.recordFound arena region a d := by
    intro g d
    simp only [Gathering.recordFound, Gathering.dropSuperseded, h.canonicalName?, h.declares,
      h.isQualified hl ha hpos, hdrop, hrecorded]
  simp only [Gathering.visitBy, Gathering.note, hanswer, hfound, hstub, hstatement]

theorem visitAll {extractor : Extractor} {region : Region} {root : NodeId} (hroot : root < arena.size)
    (hanswer : ∀ n < arena.size, extractor wide n region = extractor arena n region) (g : Gathering) :
    g.visitAll wide extractor region root = g.visitAll arena extractor region root := by
  have hlt : ∀ a ∈ arena.visits region root, a.node < arena.size := fun a hmem =>
    Arena.arrival_of_link (P := (· < arena.size)) (fun _ _ _ hlink => hl.lt_of_link hlink) hroot
      (List.mem_filter.1 hmem).1
  rw [Gathering.visitAll, Gathering.visitAll, h.visits hl ha hpos]
  exact List.foldl_ext _ _ g fun g a hmem => h.visit hl ha hpos g (hanswer a.node (hlt a hmem))

end Widened

end ScriptIndex
