import ScriptIndex.Proofs.Depth
import ScriptIndex.Proofs.FormInv
import ScriptIndex.Proofs.QualifiedNames

/-! # Dotted paths tell qualified names apart

The names in a program are identifiers and its properties are words (`Program.spelled`). So no dot stands within a
part of a dotted path, and no name is spelled like `this`: two nodes are the same qualified name if and only if they
have the same dotted path (`Program.qualified_names_agree`). -/

namespace ScriptIndex

/-! ### How names and properties are spelled -/

namespace Forms
variable {text : String} {cs : Pending} {role : Role}

theorem name_spelled (h : Forms (.name text) cs role) : text = "" ∨ IsIdentifier text := by
  cases h with
  | declared h | initialized h | param h => exact .inr h
  | label h => exact h
  | atom _ hname => exact .inr (hname text rfl)
  | type hk => cases hk

theorem property_spelled (h : Forms (.property text) cs role) : IsWordText text := by
  cases h with
  | property h => exact h
  | atom hk | type hk => cases hk

end Forms

/-- Every name of the arena is an identifier or empty, and every property is a word. -/
structure Arena.Spelled (arena : Arena) : Prop where
  name : ∀ n text, arena.kind? n = some (.name text) → text = "" ∨ IsIdentifier text
  property : ∀ n text, arena.kind? n = some (.property text) → IsWordText text

theorem Program.spelled (scripts : List Script) : (ofScripts scripts).Spelled := by
  obtain ⟨formed, h⟩ := exists_formInv scripts
  refine ⟨fun n text hk => ?_, fun n text hk => ?_⟩
  · obtain ⟨cs, hforms, -⟩ := h.form n _ hk Kind.noConfusion
    exact hforms.name_spelled
  · obtain ⟨cs, hforms, -⟩ := h.form n _ hk Kind.noConfusion
    exact hforms.property_spelled

/-! ### Dots in paths -/

theorem IsWordText.dot_not_mem {text : String} (h : IsWordText text) : '.' ∉ text.toList :=
  h.not_mem ⟨0x2E, rfl, rfl⟩

theorem IsIdentifier.ne_this {text : String} (h : IsIdentifier text) : text ≠ "this" :=
  h.ne_keyword ("this", .thisWord) (by decide)

/-- A list with a dot at its head and none after it splits at a dot in one way only. -/
theorem eq_nil_of_dot_append {more back back' : List Char} (h : '.' ∉ back)
    (heq : '.' :: back = more ++ '.' :: back') : more = [] := by
  cases more with
  | nil => rfl
  | cons c more =>
    rw [List.cons_append] at heq
    exact absurd (by rw [(List.cons.inj heq).2]; simp) h

/-- A path splits at its last dot in one way only. -/
theorem append_dot_inj {path path' text text' : String} (h : '.' ∉ text.toList) (h' : '.' ∉ text'.toList)
    (heq : path ++ "." ++ text = path' ++ "." ++ text') : path = path' ∧ text = text' := by
  have hchars : path.toList ++ '.' :: text.toList = path'.toList ++ '.' :: text'.toList := by
    simpa using congrArg String.toList heq
  have hparts : path.toList = path'.toList ∧ text.toList = text'.toList := by
    rcases List.append_eq_append_iff.1 hchars with ⟨more, hpath, htext⟩ | ⟨more, hpath, htext⟩
    · obtain rfl := eq_nil_of_dot_append h htext
      exact ⟨by simpa using hpath.symm, (List.cons.inj htext).2⟩
    · obtain rfl := eq_nil_of_dot_append h' htext
      exact ⟨by simpa using hpath, (List.cons.inj htext).2.symm⟩
  exact ⟨String.toList_inj.1 hparts.1, String.toList_inj.1 hparts.2⟩

namespace Arena
variable {arena : Arena} {a b : NodeId} {depth : Nat} {path : String}

/-! ### Paths and the comparison of nodes -/

theorem qualifiedNameWithin?_succ : arena.qualifiedNameWithin? (depth + 1) a = some path ↔
    (arena.kind? a = some (.name path) ∧ path ≠ "") ∨ (arena.kind? a = some .thisValue ∧ path = "this") ∨
    ∃ text a' front, arena.kind? a = some (.property text) ∧ arena.firstChild? a = some a' ∧
      arena.qualifiedNameWithin? depth a' = some front ∧ path = front ++ "." ++ text := by
  rw [qualifiedNameWithin?]
  constructor
  · intro h
    split at h
    · next text hk =>
      split_ifs at h with hne
      cases h
      exact .inl ⟨hk, by simpa using hne⟩
    · next hk =>
      cases h
      exact .inr (.inl ⟨hk, rfl⟩)
    · next text hk =>
      obtain ⟨front, hfront, rfl⟩ := Option.map_eq_some_iff.1 h
      obtain ⟨a', ha', hfront⟩ := Option.bind_eq_some_iff.1 hfront
      exact .inr (.inr ⟨text, a', front, hk, ha', hfront, rfl⟩)
    · cases h
  · rintro (⟨hk, hne⟩ | ⟨hk, rfl⟩ | ⟨text, a', front, hk, ha', hfront, rfl⟩)
    · simp [hk, hne]
    · simp [hk]
    · simp [hk, ha', hfront]

theorem isQualifiedWithin_iff : ∀ {depth : Nat} {a : NodeId},
    arena.isQualifiedWithin depth a = true ↔ (arena.qualifiedNameWithin? depth a).isSome = true
  | 0, _ => by simp [isQualifiedWithin, qualifiedNameWithin?]
  | depth + 1, a => by
    rw [isQualifiedWithin, qualifiedNameWithin?]
    split
    · next text hk => by_cases hne : text = "" <;> simp [hne]
    · rfl
    · next text hk =>
      cases hc : arena.firstChild? a with
      | none => simp
      | some c =>
        have hrec : arena.isQualifiedWithin depth c = true ↔ (arena.qualifiedNameWithin? depth c).isSome = true :=
          isQualifiedWithin_iff
        simpa using hrec
    · simp

/-- The parts of a path are compared one by one, which is to compare the paths, since no part has a dot. -/
theorem sameQualifiedWithin_iff (hs : arena.Spelled) : ∀ {depth : Nat} {a b : NodeId},
    arena.sameQualifiedWithin depth a b = true ↔
      ∃ path, arena.qualifiedNameWithin? depth a = some path ∧ arena.qualifiedNameWithin? depth b = some path
  | 0, _, _ => by simp [sameQualifiedWithin, qualifiedNameWithin?]
  | depth + 1, a, b => by
    rw [sameQualifiedWithin_succ]
    constructor
    · rintro (⟨x, ha, hb, hne⟩ | ⟨ha, hb⟩ | ⟨x, a', b', ha, hb, ha', hb', h⟩)
      · exact ⟨x, qualifiedNameWithin?_succ.2 (.inl ⟨ha, hne⟩), qualifiedNameWithin?_succ.2 (.inl ⟨hb, hne⟩)⟩
      · exact ⟨"this", qualifiedNameWithin?_succ.2 (.inr (.inl ⟨ha, rfl⟩)),
          qualifiedNameWithin?_succ.2 (.inr (.inl ⟨hb, rfl⟩))⟩
      · obtain ⟨front, hfront, hfront'⟩ := (sameQualifiedWithin_iff hs).1 h
        exact ⟨front ++ "." ++ x, qualifiedNameWithin?_succ.2 (.inr (.inr ⟨x, a', front, ha, ha', hfront, rfl⟩)),
          qualifiedNameWithin?_succ.2 (.inr (.inr ⟨x, b', front, hb, hb', hfront', rfl⟩))⟩
    · have hname {n : NodeId} {x : String} (hk : arena.kind? n = some (.name x)) (hne : x ≠ "") : IsIdentifier x :=
        (hs.name n x hk).resolve_left hne
      have hdot (front x : String) : '.' ∈ (front ++ "." ++ x).toList := by simp
      have hthis (front x : String) : "this" ≠ front ++ "." ++ x := fun heq =>
        absurd (heq ▸ hdot front x) (by decide)
      -- the same path comes from nodes of one kind only
      rintro ⟨path, hpath, hpath'⟩
      rcases qualifiedNameWithin?_succ.1 hpath with ⟨ha, hne⟩ | ⟨ha, rfl⟩ | ⟨x, a', front, ha, ha', hfront, rfl⟩
      · rcases qualifiedNameWithin?_succ.1 hpath' with ⟨hb, -⟩ | ⟨-, rfl⟩ | ⟨y, -, front', -, -, -, rfl⟩
        · exact .inl ⟨path, ha, hb, hne⟩
        · exact absurd rfl (hname ha hne).ne_this
        · exact absurd (hdot front' y) (hname ha hne).word.dot_not_mem
      · rcases qualifiedNameWithin?_succ.1 hpath' with ⟨hb, hne⟩ | ⟨hb, -⟩ | ⟨y, -, front', -, -, -, heq⟩
        · exact absurd rfl (hname hb hne).ne_this
        · exact .inr (.inl ⟨ha, hb⟩)
        · exact absurd heq (hthis front' y)
      · rcases qualifiedNameWithin?_succ.1 hpath' with ⟨hb, hne⟩ | ⟨-, heq⟩ | ⟨y, b', front', hb, hb', hfront', heq⟩
        · exact absurd (hdot front x) (hname hb hne).word.dot_not_mem
        · exact absurd heq.symm (hthis front x)
        · obtain ⟨rfl, rfl⟩ := append_dot_inj (hs.property a x ha).dot_not_mem (hs.property b y hb).dot_not_mem heq
          have hrec := (sameQualifiedWithin_iff hs).2 ⟨front, hfront, hfront'⟩
          exact .inr (.inr ⟨x, a', b', ha, hb, ha', hb', hrec⟩)

end Arena

namespace Program

/-- No path is longer than the program: to go deeper along the receivers finds nothing more. -/
theorem qualified_names_deep (scripts : List Script) {depth : Nat} (h : (ofScripts scripts).size ≤ depth)
    (a b : NodeId) :
    let arena := ofScripts scripts
    arena.isQualifiedWithin depth a = arena.isQualified a ∧
      arena.qualifiedNameWithin? depth a = arena.qualifiedName? a ∧
      arena.sameQualifiedWithin depth a b = arena.sameQualified a b := by
  intro arena
  have hs : Shape arena := shape scripts
  by_cases ha : a < arena.size
  · have hrank := hs.acyclic.rank_lt_size ha
    have hdepth := Nat.lt_of_lt_of_le hrank h
    exact ⟨Arena.isQualifiedWithin_eq hs.linked hs.acyclic hdepth hrank,
      Arena.qualifiedNameWithin?_eq hs.linked hs.acyclic hdepth hrank,
      Arena.sameQualifiedWithin_eq hs.linked hs.acyclic hdepth hrank⟩
  · have hk : arena.kind? a = none := Option.eq_none_iff_forall_not_mem.2 fun _ hk => ha (Arena.lt_of_kind? hk)
    have hnone (depth : Nat) : arena.isQualifiedWithin depth a = false ∧ arena.qualifiedNameWithin? depth a = none ∧
        arena.sameQualifiedWithin depth a b = false := by
      cases depth <;> simp [Arena.isQualifiedWithin, Arena.qualifiedNameWithin?, Arena.sameQualifiedWithin, hk]
    obtain ⟨h₁, h₂, h₃⟩ := hnone depth
    obtain ⟨h₁', h₂', h₃'⟩ := hnone arena.size
    exact ⟨h₁.trans h₁'.symm, h₂.trans h₂'.symm, h₃.trans h₃'.symm⟩

/-- In a program two nodes are the same qualified name if and only if they have the same dotted path, and a node is a
qualified name if and only if it has one. So to be the same is symmetric and transitive, and a node is the same as
itself if it is a qualified name. -/
theorem qualified_names_agree (scripts : List Script) :
    let arena := ofScripts scripts
    (∀ a b, arena.sameQualified a b = true ↔
      ∃ path, arena.qualifiedName? a = some path ∧ arena.qualifiedName? b = some path) ∧
    (∀ a, arena.isQualified a = true ↔ (arena.qualifiedName? a).isSome = true) ∧
    (∀ a b, arena.sameQualified a b = true → arena.sameQualified b a = true) ∧
    (∀ a b c, arena.sameQualified a b = true → arena.sameQualified b c = true → arena.sameQualified a c = true) ∧
    ∀ a, arena.sameQualified a a = true ↔ arena.isQualified a = true := by
  intro arena
  have hsame : ∀ a b, arena.sameQualified a b = true ↔
      ∃ path, arena.qualifiedName? a = some path ∧ arena.qualifiedName? b = some path :=
    fun a b => Arena.sameQualifiedWithin_iff (spelled scripts)
  have hqualified : ∀ a, arena.isQualified a = true ↔ (arena.qualifiedName? a).isSome = true :=
    fun a => Arena.isQualifiedWithin_iff
  refine ⟨hsame, hqualified, fun a b => Arena.sameQualified_symm, fun a b c => Arena.sameQualified_trans, fun a => ?_⟩
  rw [hsame, hqualified, Option.isSome_iff_exists]
  exact ⟨fun ⟨path, h, _⟩ => ⟨path, h⟩, fun ⟨path, h⟩ => ⟨path, h, h⟩⟩

end Program

end ScriptIndex
