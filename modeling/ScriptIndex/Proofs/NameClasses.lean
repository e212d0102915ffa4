import ScriptIndex.Proofs.DottedPaths
import ScriptIndex.Proofs.Superseding

/-! # Classes of canonical names

Variables and properties are filed in one map. A property is told apart by the prefix of its name, which has a dot
as no identifier does, so that two nodes have one canonical name only if both are variables or both are properties,
of the same text. Nodes that are the same qualified name have one canonical name, so all that a rule about stubs
may have to do with a node is in the bucket of that node (`Program.canonical_names_classed`). -/

namespace ScriptIndex

/-- The node is a property of the text, or the key of one in an object. -/
def Arena.NamesProperty (arena : Arena) (n : NodeId) (text : String) : Prop :=
  arena.kind? n = some (.property text) ∨
    arena.kind? n = some (.key text) ∧ ∃ p, arena.parent? n = some p ∧ arena.kind? p = some .object

theorem propertyName_inj {text text' : String} (h : propertyName text = propertyName text') : text = text' := by
  have hchars := congrArg String.toList h
  simp only [propertyName, String.toList_append] at hchars
  exact String.toList_inj.1 (List.append_cancel_left hchars)

/-- The prefix of a property has a dot, and no identifier does, whatever the text of the property. -/
theorem IsIdentifier.ne_propertyName {name : String} (h : IsIdentifier name) (text : String) :
    name ≠ propertyName text := by
  rintro rfl
  exact h.word.dot_not_mem (by simp [propertyName])

namespace Arena
variable {arena : Arena} {a b n : NodeId} {name name' text : String}

theorem canonicalName?_eq_some : arena.canonicalName? n = some name ↔
    (arena.kind? n = some (.name name) ∧ name ≠ "") ∨
      ∃ text, arena.NamesProperty n text ∧ name = propertyName text := by
  unfold canonicalName?
  constructor
  · intro h
    split at h
    · next text hk =>
      split_ifs at h with hne
      cases h
      exact .inl ⟨hk, by simpa using hne⟩
    · next text hk =>
      cases h
      exact .inr ⟨text, .inl hk, rfl⟩
    · next text hk =>
      split_ifs at h with hobject
      cases h
      obtain ⟨p, hp, hkind⟩ := (Option.any_eq_true ..).1 hobject
      exact .inr ⟨text, .inr ⟨hk, p, hp, by simpa [isObject] using hkind⟩, rfl⟩
    · cases h
  · rintro (⟨hk, hne⟩ | ⟨text, hk | ⟨hk, p, hp, hkind⟩, rfl⟩)
    · simp [hk, hne]
    · simp [hk]
    · simp [hk, hp, isObject, hkind]

theorem NamesProperty.canonicalName? (h : arena.NamesProperty n text) :
    arena.canonicalName? n = some (propertyName text) :=
  canonicalName?_eq_some.2 (.inr ⟨text, h, rfl⟩)

/-- The names of a variable and of a property differ. -/
theorem Spelled.ne_propertyName (hs : arena.Spelled) (hk : arena.kind? a = some (.name name)) (hne : name ≠ "")
    (text : String) : name ≠ propertyName text :=
  ((hs.name a name hk).resolve_left hne).ne_propertyName text

theorem Spelled.canonicalName_eq_iff (hs : arena.Spelled) (ha : arena.canonicalName? a = some name)
    (hb : arena.canonicalName? b = some name') : name = name' ↔
      (∃ text, arena.kind? a = some (.name text) ∧ arena.kind? b = some (.name text)) ∨
        ∃ text, arena.NamesProperty a text ∧ arena.NamesProperty b text := by
  constructor
  · rintro rfl
    rcases canonicalName?_eq_some.1 ha with ⟨hka, hne⟩ | ⟨text, hpa, rfl⟩
    · rcases canonicalName?_eq_some.1 hb with ⟨hkb, -⟩ | ⟨text, -, heq⟩
      · exact .inl ⟨name, hka, hkb⟩
      · exact absurd heq (hs.ne_propertyName hka hne text)
    · rcases canonicalName?_eq_some.1 hb with ⟨hkb, hne⟩ | ⟨text', hpb, heq⟩
      · exact absurd rfl (hs.ne_propertyName hkb hne text)
      · obtain rfl := propertyName_inj heq
        exact .inr ⟨text, hpa, hpb⟩
  · rintro (⟨text, hka, hkb⟩ | ⟨text, hpa, hpb⟩)
    · have hsame : arena.canonicalName? a = arena.canonicalName? b := by simp only [Arena.canonicalName?, hka, hkb]
      exact Option.some.inj (ha.symm.trans (hsame.trans hb))
    · exact Option.some.inj (ha.symm.trans (hpa.canonicalName?.trans (hpb.canonicalName?.symm.trans hb)))

theorem exists_canonicalName_of_sameWithin : ∀ {depth : Nat}, arena.sameQualifiedWithin depth a b = true →
    ¬ (arena.kind? a = some .thisValue ∧ arena.kind? b = some .thisValue) →
      ∃ name, arena.canonicalName? a = some name ∧ arena.canonicalName? b = some name
  | depth + 1, h, hthis => by
    rcases sameQualifiedWithin_succ.1 h with ⟨x, ha, hb, hne⟩ | hboth | ⟨x, -, -, ha, hb, -⟩
    · exact ⟨x, canonicalName?_eq_some.2 (.inl ⟨ha, hne⟩), canonicalName?_eq_some.2 (.inl ⟨hb, hne⟩)⟩
    · exact absurd hboth hthis
    · exact ⟨_, NamesProperty.canonicalName? (.inl ha), NamesProperty.canonicalName? (.inl hb)⟩

end Arena

/-! ### What the rules about stubs look at -/

section
variable {arena : Arena} {g : Gathering} {node : NodeId} {name other : String} {d : Definition}

/-- What matches a node is in the bucket of the node. -/
theorem Index.Filed.canonicalName?_of_same {index : Index} (h : Filed arena index) (hd : d ∈ index.definitions name)
    (hsame : arena.sameQualified d.lvalue node = true) : arena.canonicalName? node = some name :=
  (Arena.canonicalName?_eq_of_same hsame).symm.trans (h.filed name d hd)

namespace Gathering

/-- Whether a stub is redundant can be told from its own bucket. -/
theorem isRedundant_iff (h : Index.Filed arena g.index) (hname : arena.canonicalName? node = some name) :
    g.isRedundant arena node name = true ↔ arena.declares node = false ∧ arena.isQualified node = true ∧
      ∃ other, ∃ d ∈ g.index.definitions other, arena.sameQualified d.lvalue node = true := by
  rw [isRedundant, Bool.and_eq_true, Bool.and_eq_true, Bool.not_eq_true', List.any_eq_true, and_assoc]
  refine and_congr_right' (and_congr_right' ⟨fun ⟨d, hd, hsame⟩ => ⟨name, d, hd, hsame⟩, ?_⟩)
  rintro ⟨other, d, hd, hsame⟩
  obtain rfl : other = name := Option.some.inj ((h.canonicalName?_of_same hd hsame).symm.trans hname)
  exact ⟨d, hd, hsame⟩

/-- A definition leaves no stub of its qualified name, in any bucket. -/
theorem not_same_of_dropSuperseded (h : Index.Filed arena g.index) (hname : arena.canonicalName? node = some name)
    (hq : arena.isQualified node = true) (hdoc : arena.declares node = false)
    (hd : d ∈ (g.dropSuperseded arena node name).index.definitions other) (hstub : d.isStub = true) :
    arena.sameQualified d.lvalue node = false := by
  have hafter : Index.Filed arena (g.dropSuperseded arena node name).index :=
    (Resolver.filed_kept arena).dropSuperseded h
  rw [← Bool.not_eq_true]
  intro hsame
  obtain rfl : other = name := Option.some.inj ((hafter.canonicalName?_of_same hd hsame).symm.trans hname)
  rw [(dropSuperseded_superseded h hq hdoc).bucket, List.mem_filter] at hd
  simp [Arena.supersedes, hstub, hsame] at hd

end Gathering

end

namespace Program

/-- In a program two canonical names are equal if and only if both nodes are variables, or both are properties, of the
same text; so no variable shares a bucket with a property, whatever the keys of objects are. Nodes that are the
same qualified name have one canonical name, unless they are `this`. Hence all definitions that match a node are
in its bucket, and in every state of a run, with any extractor, a rule about stubs that looks there only sees what
it would see in all buckets. -/
theorem canonical_names_classed (scripts : List Script) :
    let arena := ofScripts scripts
    (∀ a b name name', arena.canonicalName? a = some name → arena.canonicalName? b = some name' →
      (name = name' ↔ (∃ text, arena.kind? a = some (.name text) ∧ arena.kind? b = some (.name text)) ∨
        ∃ text, arena.NamesProperty a text ∧ arena.NamesProperty b text)) ∧
    (∀ a b text text', arena.kind? a = some (.name text) → arena.NamesProperty b text' →
      arena.canonicalName? a ≠ arena.canonicalName? b) ∧
    (∀ a b, arena.sameQualified a b = true →
      ¬ (arena.kind? a = some .thisValue ∧ arena.kind? b = some .thisValue) →
        ∃ name, arena.canonicalName? a = some name ∧ arena.canonicalName? b = some name) ∧
    ∀ extractor externs source g, Gathering.Reachable arena extractor externs source g →
      (∀ node name, ∀ d ∈ g.index.definitions name, arena.sameQualified d.lvalue node = true →
        arena.canonicalName? node = some name) ∧
      ∀ node name, arena.canonicalName? node = some name →
        (g.isRedundant arena node name = true ↔ arena.declares node = false ∧ arena.isQualified node = true ∧
          ∃ other, ∃ d ∈ g.index.definitions other, arena.sameQualified d.lvalue node = true) ∧
        (arena.isQualified node = true → arena.declares node = false →
          ∀ other, ∀ d ∈ (g.dropSuperseded arena node name).index.definitions other, d.isStub = true →
            arena.sameQualified d.lvalue node = false) := by
  intro arena
  have hs : arena.Spelled := spelled scripts
  refine ⟨fun a b name name' => hs.canonicalName_eq_iff, fun a b text text' hk hp heq => ?_,
    fun a b => Arena.exists_canonicalName_of_sameWithin, fun extractor externs source g hg =>
      ⟨fun node name d => hg.filed.canonicalName?_of_same, fun node name hname =>
        ⟨Gathering.isRedundant_iff hg.filed hname, fun hq hdoc other d =>
          Gathering.not_same_of_dropSuperseded hg.filed hname hq hdoc⟩⟩⟩
  rw [hp.canonicalName?] at heq
  rcases Arena.canonicalName?_eq_some.1 heq with ⟨hk', hne⟩ | ⟨_, hp' | ⟨hp', -⟩, -⟩
  · exact hs.ne_propertyName hk' hne text' rfl
  · cases hk.symm.trans hp'
  · cases hk.symm.trans hp'

end Program

end ScriptIndex
