import ScriptIndex.Proofs.StubTrace
import ScriptIndex.Proofs.Trees

/-! # Documentation and the index

Gathering the externs goes through the types in documentation, and types have functions and parameters
as programs have. Yet no visit of a type records anything or tells of a stub, so that of documentation
the index knows only where something is declared: two arenas of the same nodes have the same index if
they declare at the same nodes. -/

namespace ScriptIndex

namespace Arena

/-- The types in documentation have trees of their own, with nothing but types in them. -/
structure TypesApart (arena : Arena) : Prop where
  root_free : ∀ n t, t ∈ arena.typeRoots n → arena.parent? t = none
  in_type : ∀ n t m, t ∈ arena.typeRoots n → arena.Below t m → arena.InType m

/-- Whether a visit may record something or tell of a stub. -/
def speaks (arena : Arena) (region : Region) (a : Arrival) : Bool :=
  a.parent.any arena.isExpressionStatement || (Extractor.syntactic arena a.node region).isSome

variable {arena other : Arena} {region : Region} {a : Arrival}

/-! ### Visits of types -/

/-- A walk through types does not come to anything that a visit heeds. -/
theorem TypesApart.not_speaks (ht : arena.TypesApart) (hl : arena.Linked) {policy : Policy} {order : TypeOrder}
    {depth : Nat} {here : Place} {n : NodeId} (ha : a ∈ arena.typeWalk policy order depth here n) :
    arena.speaks region a = false := by
  -- what is reached has its parent in the arena, and that is in a type
  have hc : Carries arena policy fun _ parent m => parent = arena.parent? m ∧
      (∃ n t, t ∈ arena.typeRoots n ∧ arena.Below t m) ∧ ∀ p, parent = some p → arena.InType p := by
    refine ⟨fun _ parent m _ c hm hchild => ?_, fun _ _ _ m t _ hmem => ?_⟩
    · have hparent : arena.IsParent m c := mem_children_of_childPlaces hchild
      obtain ⟨-, ⟨n, t, hmem, hbelow⟩, -⟩ := hm
      refine ⟨((hl.mem_children m c).1 hparent).symm, ⟨n, t, hmem, hbelow.tail hparent⟩, ?_⟩
      rintro p ⟨⟩
      exact ht.in_type n t m hmem hbelow
    · exact ⟨(ht.root_free m t hmem).symm, ⟨m, t, hmem, .refl⟩, fun p hp => by cases hp⟩
  unfold typeWalk at ha
  split_ifs at ha
  · obtain ⟨t, hmem, ha⟩ := List.mem_flatMap.1 ha
    obtain ⟨-, ⟨hparent, -, hin⟩, -⟩ := hc.arrival depth here none t
      ⟨(ht.root_free n t hmem).symm, ⟨n, t, hmem, .refl⟩, fun p hp => by cases hp⟩ a ha
    unfold speaks Extractor.syntactic
    rw [← hparent]
    cases hp : a.parent with
    | none => rfl
    | some p =>
      have hchild : a.node ∈ arena.children p := (hl.mem_children p _).2 (hparent.symm.trans hp)
      obtain ⟨hstatement, hnone⟩ := @InType.children arena _ p region (hin p hp) hchild
      simp [hstatement, hnone]
  · cases ha

/-! ### Arenas of the same nodes -/

theorem kind?_bare (arena : Arena) : arena.bare.kind? = arena.kind? := by
  funext n
  unfold kind?
  rw [node?_bare]
  cases arena.node? n <;> rfl

/-- The other arena has the nodes of `arena`, but for their documentation, and declares where it does. -/
structure Redocumented (arena other : Arena) : Prop where
  bare : other.bare = arena.bare
  declares : ∀ n, other.declares n = arena.declares n

namespace Redocumented
variable (h : Redocumented arena other)
include h

theorem size : other.size = arena.size := by
  rw [← size_bare, h.bare, size_bare]

theorem kind? : other.kind? = arena.kind? := by
  rw [← kind?_bare, h.bare, kind?_bare]

theorem children : other.children = arena.children := by
  funext n
  rw [← children_bare, h.bare, children_bare]

theorem parent? : other.parent? = arena.parent? := by
  funext n
  rw [← parent?_bare, h.bare, parent?_bare]

theorem firstChild? : other.firstChild? = arena.firstChild? := by
  funext n
  rw [Arena.firstChild?, Arena.firstChild?, h.children]

theorem isName : other.isName = arena.isName := by
  funext n
  rw [Arena.isName, Arena.isName, h.kind?]

theorem isFunction : other.isFunction = arena.isFunction := by
  funext n
  rw [Arena.isFunction, Arena.isFunction, h.kind?]

theorem isExpressionStatement : other.isExpressionStatement = arena.isExpressionStatement := by
  funext n
  rw [Arena.isExpressionStatement, Arena.isExpressionStatement, h.kind?]

theorem givenName? : other.givenName? = arena.givenName? := by
  funext n
  rw [Arena.givenName?, Arena.givenName?, nameText?, nameText?, h.kind?]

theorem canonicalName? : other.canonicalName? = arena.canonicalName? := by
  have hobject : other.isObject = arena.isObject := by
    funext n
    rw [isObject, isObject, h.kind?]
  funext n
  rw [Arena.canonicalName?, Arena.canonicalName?, h.kind?, h.parent?, hobject]

theorem isFunctionDeclaration : other.isFunctionDeclaration = arena.isFunctionDeclaration := by
  funext n
  rw [Arena.isFunctionDeclaration, Arena.isFunctionDeclaration, inStatementPosition, inStatementPosition,
    h.isFunction, h.firstChild?, h.givenName?, h.parent?, h.kind?]

theorem isQualified : other.isQualified = arena.isQualified := by
  have hwithin : other.isQualifiedWithin = arena.isQualifiedWithin := by
    funext depth
    induction depth with
    | zero => rfl
    | succ depth ih =>
      funext n
      rw [isQualifiedWithin, isQualifiedWithin, h.kind?, h.firstChild?, ih]
  funext n
  rw [Arena.isQualified, Arena.isQualified, hwithin, h.size]

theorem sameQualified : other.sameQualified = arena.sameQualified := by
  have hwithin : other.sameQualifiedWithin = arena.sameQualifiedWithin := by
    funext depth
    induction depth with
    | zero => rfl
    | succ depth ih =>
      funext n m
      simp only [sameQualifiedWithin, h.kind?, h.firstChild?, ih]
  funext n m
  rw [Arena.sameQualified, Arena.sameQualified, hwithin, h.size]

theorem isImmutable : other.isImmutable = arena.isImmutable := by
  have hwithin : other.isImmutableWithin = arena.isImmutableWithin := by
    funext depth
    induction depth with
    | zero => rfl
    | succ depth ih =>
      funext n
      rw [isImmutableWithin, isImmutableWithin, h.kind?, h.firstChild?, ih]
  funext n
  rw [Arena.isImmutable, Arena.isImmutable, hwithin, h.size]

theorem recorded (region : Region) (d : Definition) : d.recorded other region = d.recorded arena region := by
  rw [Definition.recorded, Definition.recorded, h.isImmutable, h.isFunction]

theorem syntactic : Extractor.syntactic other = Extractor.syntactic arena := by
  have hkey : other.isKey = arena.isKey := by
    funext n
    rw [isKey, isKey, h.kind?]
  have hchild : other.child? = arena.child? := by
    funext n i
    rw [child?, child?, h.children]
  have hunder : Extractor.syntacticUnder other = Extractor.syntacticUnder arena := by
    funext p n region
    rw [Extractor.syntacticUnder, Extractor.syntacticUnder, h.firstChild?, h.givenName?, h.kind?, hkey, hchild,
      h.isName, h.parent?, h.isFunction]
  funext n region
  rw [Extractor.syntactic, Extractor.syntactic, h.parent?, hunder]

theorem speaks (region : Region) : other.speaks region = arena.speaks region := by
  funext a
  rw [Arena.speaks, Arena.speaks, h.isExpressionStatement, h.syntactic]

theorem gatherPolicy (region : Region) : other.gatherPolicy region = arena.gatherPolicy region := by
  have henters : other.entersExtern = arena.entersExtern := by
    funext n parent
    rw [entersExtern, entersExtern, h.isFunction, h.firstChild?, h.isName]
  cases region with
  | source => rfl
  | externs => rw [Arena.gatherPolicy, Arena.gatherPolicy, henters]

theorem childPlaces : other.childPlaces = arena.childPlaces := by
  funext here n parent
  rw [Arena.childPlaces, Arena.childPlaces, opensScope, opensScope, h.kind?, h.isFunction, h.children,
    h.isFunctionDeclaration]

/-- But for the types, walks are the same. -/
theorem walkWithin (hl : arena.Linked) (hl' : other.Linked) (ht : arena.TypesApart) (ht' : other.TypesApart)
    (region : Region) (policy : Policy) : ∀ (depth : Nat) (around : Place) (parent : Option NodeId) (n : NodeId),
    (other.walkWithin policy depth around parent n).filter (arena.speaks region) =
      (arena.walkWithin policy depth around parent n).filter (arena.speaks region)
  | 0, _, _, _ => rfl
  | depth + 1, around, parent, n => by
    have hquiet : ∀ order here, (arena.typeWalk policy order depth here n).filter (arena.speaks region) = [] :=
      fun order here => List.filter_eq_nil_iff.2 fun a ha => by
        rw [ht.not_speaks hl ha]
        exact Bool.false_ne_true
    have hquiet' : ∀ order here, (other.typeWalk policy order depth here n).filter (arena.speaks region) = [] :=
      fun order here => List.filter_eq_nil_iff.2 fun a ha => by
        rw [← h.speaks, ht'.not_speaks hl' ha]
        exact Bool.false_ne_true
    have hplace : other.placeAt around n = arena.placeAt around n := by
      rw [placeAt, placeAt, h.kind?]
    cases henters : policy.enters n parent with
    | false => rw [walkWithin_of_not_enters henters, walkWithin_of_not_enters henters]
    | true =>
      rw [walkWithin_of_enters henters, walkWithin_of_enters henters, hplace, childWalk, childWalk, h.childPlaces]
      simp only [List.filter_append, hquiet, hquiet', List.filter_flatMap]
      congr 1
      exact List.flatMap_congr fun p _ => walkWithin hl hl' ht ht' region policy depth p.1 (some n) p.2

theorem visits (hl : arena.Linked) (hl' : other.Linked) (ht : arena.TypesApart) (ht' : other.TypesApart)
    (region : Region) (root : NodeId) : (other.visits region root).filter (arena.speaks region) =
      (arena.visits region root).filter (arena.speaks region) := by
  rw [Arena.visits, Arena.visits, h.gatherPolicy, h.size, List.filter_comm, h.walkWithin hl hl' ht ht',
    List.filter_comm]

/-- A visit does the same in both. -/
theorem visitBy (region : Region) :
    Gathering.visitBy other .syntactic region = Gathering.visitBy arena .syntactic region := by
  have hdrop : Gathering.dropStub other = Gathering.dropStub arena := by
    funext node name g stub
    rw [Gathering.dropStub, Gathering.dropStub, h.sameQualified]
  have hdrops : Gathering.dropSuperseded other = Gathering.dropSuperseded arena := by
    funext g node name
    rw [Gathering.dropSuperseded, Gathering.dropSuperseded, h.isQualified, h.declares, hdrop]
  have hredundant : Gathering.isRedundant other = Gathering.isRedundant arena := by
    funext g node name
    rw [Gathering.isRedundant, Gathering.isRedundant, h.declares, h.isQualified, h.sameQualified]
  have hfound : Gathering.recordFound other = Gathering.recordFound arena := by
    funext g region a d
    simp only [Gathering.recordFound, h.canonicalName?, h.recorded, hdrops]
  have hstub : Gathering.recordStub other = Gathering.recordStub arena := by
    funext g a
    rw [Gathering.recordStub, Gathering.recordStub, h.canonicalName?, hredundant]
  funext g a
  unfold Gathering.visitBy Gathering.note
  rw [h.syntactic, hfound, hstub, h.isExpressionStatement]

end Redocumented

end Arena

/-! ### Visits that do nothing -/

namespace Gathering

variable {arena other : Arena} {region : Region} {g : Gathering} {a : Arrival}

/-- A visit that is not heeded does nothing. -/
theorem visitBy_of_not_speaks (h : arena.speaks region a = false) : g.visitBy arena .syntactic region a = g := by
  obtain ⟨hstatement, hnone⟩ := Bool.or_eq_false_iff.1 h
  rw [Option.isSome_eq_false_iff, Option.isNone_iff_eq_none] at hnone
  simp [visitBy, note, hnone, hstatement]

/-- Visits that are not heeded may be left out. -/
theorem foldl_visitBy_filter : ∀ (arrivals : List Arrival) (g : Gathering),
    arrivals.foldl (visitBy arena .syntactic region) g =
      (arrivals.filter (arena.speaks region)).foldl (visitBy arena .syntactic region) g
  | [], _ => rfl
  | a :: arrivals, g => by
    cases ha : arena.speaks region a with
    | true =>
      rw [List.filter_cons_of_pos ha]
      exact foldl_visitBy_filter arrivals _
    | false =>
      rw [List.filter_cons_of_neg (by simp [ha]), List.foldl_cons, visitBy_of_not_speaks ha]
      exact foldl_visitBy_filter arrivals g

/-- Visits of a region do the same in both arenas. -/
theorem visitAll_redocumented (h : arena.Redocumented other) (hl : arena.Linked) (hl' : other.Linked)
    (ht : arena.TypesApart) (ht' : other.TypesApart) (region : Region) (root : NodeId) (g : Gathering) :
    g.visitAll other .syntactic region root = g.visitAll arena .syntactic region root := by
  rw [visitAll, visitAll, h.visitBy, foldl_visitBy_filter (other.visits region root), h.visits hl hl' ht ht',
    ← foldl_visitBy_filter]

end Gathering

/-! ### Programs -/

namespace Program

/-- In a program, types have trees of their own. -/
theorem Shape.typesApart {arena : Arena} (hs : Shape arena) (hroots : Assembly.RootInv ⟨arena, []⟩) :
    arena.TypesApart := by
  obtain ⟨typed, ht⟩ := hs.types
  refine ⟨hroots.root_free, fun n t m hmem hbelow => ht.typed_form m ?_⟩
  induction hbelow with
  | refl => exact (ht.owner n t hmem).1
  | tail _ hparent ih => exact (ht.typed_child _ _ hparent).2 ih

end Program

namespace Arena

/-- The arena without the types in documentation. -/
def withoutTypes (arena : Arena) : Arena :=
  ⟨arena.nodes.map fun x => { x with doc := x.doc.map fun d => ⟨d.tags.map ({ · with type := none })⟩ }⟩

theorem node?_withoutTypes (arena : Arena) (n : NodeId) : arena.withoutTypes.node? n = (arena.node? n).map
    fun x => { x with doc := x.doc.map fun d => ⟨d.tags.map ({ · with type := none })⟩ } := by
  simp [withoutTypes, node?]

theorem typeRoots_withoutTypes (arena : Arena) (n : NodeId) : arena.withoutTypes.typeRoots n = [] := by
  unfold typeRoots doc?
  rw [node?_withoutTypes]
  cases arena.node? n with
  | none => rfl
  | some x =>
    simp only [Option.map_some, Option.bind_some]
    cases x.doc with
    | none => rfl
    | some d => simp [Doc.typeRoots]

theorem redocumented_withoutTypes (arena : Arena) : arena.Redocumented arena.withoutTypes := by
  refine ⟨by simp [bare, withoutTypes], fun n => ?_⟩
  unfold declares doc?
  rw [node?_withoutTypes]
  cases arena.node? n with
  | none => rfl
  | some x =>
    simp only [Option.map_some, Option.bind_some]
    cases x.doc with
    | none => rfl
    | some d => simp [Doc.declares, Function.comp_def]

theorem linked_withoutTypes {arena : Arena} (hl : arena.Linked) : arena.withoutTypes.Linked := by
  have h := arena.redocumented_withoutTypes
  refine ⟨fun n c => ?_, fun n t hmem => ?_⟩
  · rw [h.children, h.parent?]
    exact hl.mem_children n c
  · rw [typeRoots_withoutTypes] at hmem
    cases hmem

theorem typesApart_withoutTypes (arena : Arena) : arena.withoutTypes.TypesApart := by
  refine ⟨fun n t hmem => ?_, fun n t m hmem => ?_⟩
  all_goals
    rw [typeRoots_withoutTypes] at hmem
    cases hmem

end Arena

namespace Resolver

/-- Two arenas of the same nodes, that declare at the same nodes and whose types are apart, have the same
index over the same roots, and the same is told of the gathering, whatever the types and the tags are. -/
theorem gather_redocumented {arena other : Arena} (h : arena.Redocumented other) (hl : arena.Linked)
    (hl' : other.Linked) (ht : arena.TypesApart) (ht' : other.TypesApart) {externs source : NodeId}
    (he : externs < arena.size) (hsource : source < arena.size) :
    ∃ r r' index, (ofArena arena .syntactic).gather externs source = .ok r ∧
      (ofArena other .syntactic).gather externs source = .ok r' ∧
      r.index = .ok index ∧ r'.index = .ok index ∧ r'.gathering.events = r.gathering.events := by
  have hrun := Gathering.run_stateless hl .syntactic he hsource
  have hrun' := Gathering.run_stateless hl' .syntactic (h.size ▸ he : externs < other.size)
    (h.size ▸ hsource : source < other.size)
  simp only [Gathering.visitAll_redocumented h hl hl' ht ht'] at hrun'
  exact ⟨_, _, _, gather_of_run hrun, gather_of_run hrun', rfl, rfl, rfl⟩

/-- The type of a function and a union of types are taken out of the documentation of a stub. -/
theorem gather_redocumented_function_type :
    let arena := Program.ofScripts
      [⟨.externs, ascii "/** @type {function(a, *): b} @param {a|b} c */ a.b; a.b;", .standard⟩]
    let other := arena.withoutTypes
    arena.typeRoots 3 = [9, 12] ∧
    arena.Redocumented other ∧ arena.Linked ∧ other.Linked ∧ arena.TypesApart ∧ other.TypesApart ∧
      Region.externs.root < arena.size ∧ Region.source.root < arena.size ∧
      ∃ r r' index, (ofArena arena .syntactic).gather Region.externs.root Region.source.root = .ok r ∧
        (ofArena other .syntactic).gather Region.externs.root Region.source.root = .ok r' ∧
        r.index = .ok index ∧ r'.index = .ok index ∧ r'.gathering.events = r.gathering.events := by
  intro arena other
  have hs : Program.Shape arena := Program.shape _
  have h := arena.redocumented_withoutTypes
  have hl' := Arena.linked_withoutTypes hs.linked
  have ht := hs.typesApart (Program.forestInv _).roots
  have ht' := arena.typesApart_withoutTypes
  have he := hs.root_lt .externs
  have hsource := hs.root_lt .source
  exact ⟨by decide +kernel, h, hs.linked, hl', ht, ht', he, hsource,
    gather_redocumented h hs.linked hl' ht ht' he hsource⟩

end Resolver

end ScriptIndex
