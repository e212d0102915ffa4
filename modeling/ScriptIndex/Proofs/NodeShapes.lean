import Mathlib.Data.List.Forall2
import ScriptIndex.Proofs.FunctionSites

/-! # The shapes of nodes

`Arena.Shaped`: a node has the children that nodes of its kind have. Nodes are made over children in fixed roles,
and `Arena.Fits` says what a node in a role is like, so that every node of a program is shaped, also where a script
was refused. Only a variable that was read before its declaration was refused is an exception: it has its initial
value, but no declaration above it (`Program.shaped`). -/

namespace ScriptIndex

namespace Kind

/-- The kinds of expressions other than functions. -/
def isExpression : Kind → Bool
  | name _ | property _ | element | call | assign | binary _ | unary _ | object | array => true
  | number _ | string _ | trueValue | falseValue | nullValue | thisValue => true
  | _ => false

/-- The kinds of statements other than functions. -/
def isStatement : Kind → Bool
  | block | declaration _ | expressionStatement | returnStatement | ifStatement | emptyStatement => true
  | _ => false

theorem isExpression_of_isAtom {kind : Kind} (h : kind.isAtom = true) : kind.isExpression = true := by
  cases kind with
  | name | number | string | trueValue | falseValue | nullValue | thisValue => rfl
  | _ => cases h

end Kind

namespace Arena
variable (arena : Arena)

/-- The children satisfy the conditions, one each. -/
def Over (conditions : List (NodeId → Prop)) (n : NodeId) : Prop :=
  List.Forall₂ (fun condition c => condition c) conditions (arena.children n)

/-- All children satisfy the condition. -/
def OverAll (condition : NodeId → Prop) (n : NodeId) : Prop := ∀ c ∈ arena.children n, condition c

/-! ### Nodes by what they are for -/

def IsScript (n : NodeId) : Prop := ∃ module, arena.kind? n = some (.script module)

def IsBlock (n : NodeId) : Prop := arena.kind? n = some .block

/-- A function of a script: its name comes first, as it does not in a type. -/
def IsScriptFunction (n : NodeId) : Prop :=
  arena.kind? n = some .function ∧ ∃ l, arena.firstChild? n = some l ∧ arena.isName l = true

def IsExpression (n : NodeId) : Prop :=
  (∃ kind, arena.kind? n = some kind ∧ kind.isExpression = true) ∨ arena.IsScriptFunction n

def IsStatement (n : NodeId) : Prop :=
  (∃ kind, arena.kind? n = some kind ∧ kind.isStatement = true) ∨ arena.IsScriptFunction n

def IsTarget (n : NodeId) : Prop := ∃ kind, arena.kind? n = some kind ∧ kind.isTarget = true

/-- A variable, perhaps with its initial value. -/
def IsVariable (n : NodeId) : Prop :=
  (arena.givenName? n).isSome = true ∧ (arena.Over [] n ∨ arena.Over [arena.IsExpression] n)

/-- The name of a function, which may be empty. -/
def IsLabel (n : NodeId) : Prop := arena.isName n = true ∧ arena.Over [] n

def IsParam (n : NodeId) : Prop := (arena.givenName? n).isSome = true ∧ arena.Over [] n

def IsParams (n : NodeId) : Prop := arena.kind? n = some .params ∧ arena.OverAll arena.IsParam n

def IsTypeParams (n : NodeId) : Prop := arena.kind? n = some .params ∧ arena.OverAll arena.IsTypeNode n

def IsMember (n : NodeId) : Prop := arena.isKey n = true ∧ arena.Over [arena.IsExpression] n

/-- What a node is like that stands in a role. -/
def Fits : Role → NodeId → Prop
  | .script => arena.IsScript
  | .block => arena.IsBlock
  | .function => arena.IsScriptFunction
  | .statement | .stating _ => arena.IsStatement
  | .expression => arena.IsExpression
  | .target => arena.IsTarget
  | .variable => arena.IsVariable
  | .label => arena.IsLabel
  | .param => arena.IsParam
  | .params => arena.IsParams
  | .key => arena.IsMember
  | .type => arena.IsTypeNode
  | .typeParams => arena.IsTypeParams

/-! ### Shapes -/

/-- What nodes of each kind are made over. -/
def Shape : Kind → NodeId → Prop
  | .root, n => arena.parent? n = none ∧ arena.OverAll arena.IsScript n
  | .script _, n | .block, n => arena.OverAll arena.IsStatement n
  | .declaration _, n => arena.children n ≠ [] ∧ arena.OverAll arena.IsVariable n
  | .expressionStatement, n => arena.Over [arena.IsExpression] n
  | .returnStatement, n => arena.Over [] n ∨ arena.Over [arena.IsExpression] n
  | .ifStatement, n => arena.Over [arena.IsExpression, arena.IsStatement] n ∨
      arena.Over [arena.IsExpression, arena.IsStatement, arena.IsStatement] n
  | .emptyStatement, n => arena.Over [] n
  | .function, n => arena.Over [arena.IsLabel, arena.IsParams, arena.IsBlock] n ∨
      arena.Over [arena.IsTypeParams] n ∨ arena.Over [arena.IsTypeParams, arena.IsTypeNode] n
  | .params, n => arena.OverAll arena.IsParam n ∨ arena.OverAll arena.IsTypeNode n
  | .name _, n => arena.Over [] n ∨ ∃ p word, arena.parent? n = some p ∧ arena.kind? p = some (.declaration word)
  | .property _, n | .unary _, n | .key _, n => arena.Over [arena.IsExpression] n
  | .element, n | .binary _, n => arena.Over [arena.IsExpression, arena.IsExpression] n
  | .call, n => arena.children n ≠ [] ∧ arena.OverAll arena.IsExpression n
  | .assign, n => arena.Over [arena.IsTarget, arena.IsExpression] n
  | .object, n => arena.OverAll arena.IsMember n
  | .array, n => arena.OverAll arena.IsExpression n
  | .number _, n | .string _, n | .trueValue, n | .falseValue, n | .nullValue, n | .thisValue, n => arena.Over [] n
  | .typeName _, n => arena.OverAll arena.IsTypeNode n
  | .typeUnion, n => 2 ≤ (arena.children n).length ∧ arena.OverAll arena.IsTypeNode n
  | .typeNullable, n | .typeNonNull, n => arena.Over [arena.IsTypeNode] n
  | .typeAll, n | .typeUnknown, n => arena.Over [] n

def Shaped (n : NodeId) : Prop := ∀ kind, arena.kind? n = some kind → arena.Shape kind n

end Arena

/-! ### Forms make shapes -/

namespace Arena
variable {arena : Arena} {n : NodeId}

theorem Fits.pass {role other : Role} (h : arena.Fits role n) (hp : arena.Passes n role other) :
    arena.Fits other n := by
  cases hp with
  | aim hk target => exact ⟨_, hk, target⟩
  | serve serves =>
    cases serves with
    | block => exact .inl ⟨_, h, rfl⟩
    | declared | expressed => exact .inr h
    | itself | stating => exact h

/-- The node is made over children that fit their roles. -/
structure FitsOver (arena : Arena) (n : NodeId) (kind : Kind) (cs : Pending) : Prop where
  kind : arena.kind? n = some kind
  children : arena.children n = cs.map Prod.snd
  fits : ∀ c ∈ cs, arena.Fits c.1 c.2

namespace FitsOver
variable {kind : Kind} {cs : Pending} {role : Role}

theorem each (h : arena.FitsOver n kind cs) : arena.Over (cs.map fun c => arena.Fits c.1) n := by
  unfold Over
  rw [h.children, List.forall₂_map_left_iff, List.forall₂_map_right_iff]
  exact List.forall₂_same.2 h.fits

theorem all (h : arena.FitsOver n kind cs) (hrole : ∀ c ∈ cs, c.1 = role) :
    arena.OverAll (arena.Fits role) n := by
  intro c hc
  rw [h.children] at hc
  obtain ⟨e, he, rfl⟩ := List.mem_map.1 hc
  exact hrole e he ▸ h.fits e he

theorem isName {text : String} (h : arena.FitsOver n (.name text) cs) : arena.isName n = true := by
  simp [Arena.isName, h.kind]

theorem isGiven {text : String} (h : arena.FitsOver n (.name text) cs) (hne : text ≠ "") :
    (arena.givenName? n).isSome = true := by
  simp [givenName?, nameText?, h.kind, hne]

theorem firstChild? {c : Role × NodeId} (h : arena.FitsOver n kind (c :: cs)) : arena.firstChild? n = some c.2 := by
  simp [Arena.firstChild?, h.children]

/-- A node over fitting children fits the role that it is made for. -/
theorem fits_role (h : arena.FitsOver n kind cs) (forms : Forms kind cs role) : arena.Fits role n := by
  cases forms with
  | script module => exact ⟨module, h.kind⟩
  | block => exact h.kind
  | declaration | expressionStatement | returnNothing | returnValue | ifThen | ifElse | emptyStatement =>
    exact .inl ⟨_, h.kind, rfl⟩
  | declared htext => exact ⟨h.isGiven htext.word.ne_empty, .inl h.each⟩
  | initialized htext => exact ⟨h.isGiven htext.word.ne_empty, .inr h.each⟩
  | function l => exact ⟨h.kind, l, h.firstChild?, (h.fits (.label, l) List.mem_cons_self).1⟩
  | params hparam => exact ⟨h.kind, h.all hparam⟩
  | param htext => exact ⟨h.isGiven htext.word.ne_empty, h.each⟩
  | label => exact ⟨h.isName, h.each⟩
  | atom hatom => exact .inl ⟨_, h.kind, Kind.isExpression_of_isAtom hatom⟩
  | property | element | call | assign | binary | unary | object | array => exact .inl ⟨_, h.kind, rfl⟩
  | key => exact ⟨by simp [isKey, h.kind], h.each⟩
  | type htypes => exact .inl ⟨_, h.kind, Kind.isType_of_takesTypes htypes⟩
  | typeParams htype => exact ⟨h.kind, h.all htype⟩
  | typeFunction p | typeFunctionTo p =>
    exact .inr ⟨h.kind, p, h.firstChild?, (h.fits (.typeParams, p) List.mem_cons_self).1⟩

/-- A type over as many types as its kind takes. -/
theorem shape_type (h : arena.FitsOver n kind cs) (htypes : kind.takesTypes cs.length = true)
    (hrole : ∀ c ∈ cs, c.1 = .type) : arena.Shape kind n := by
  have hall := h.all hrole
  have none (hlength : cs.length = 0) : arena.Over [] n := by
    obtain rfl := List.length_eq_zero_iff.1 hlength
    exact h.each
  have one (hlength : cs.length = 1) : arena.Over [arena.IsTypeNode] n := by
    obtain ⟨c, rfl⟩ := List.length_eq_one_iff.1 hlength
    have hc : c.1 = .type := hrole c List.mem_cons_self
    have hover := h.each
    rwa [List.map_singleton, hc] at hover
  cases kind with
  | typeName => exact hall
  | typeUnion =>
    refine ⟨?_, hall⟩
    rw [h.children, List.length_map]
    exact of_decide_eq_true htypes
  | typeNullable | typeNonNull => exact one (eq_of_beq htypes)
  | typeAll | typeUnknown => exact none (eq_of_beq htypes)
  | _ => cases htypes

/-- A node over fitting children has the shape of its kind. What a name is under, its children do not tell. -/
theorem shape (h : arena.FitsOver n kind cs) (forms : Forms kind cs role)
    (hname : ∀ text, kind = .name text → cs = []) : arena.Shape kind n := by
  have hover := h.each
  cases forms with
  | script _ hall | block hall | object hall | array hall => exact h.all hall
  | declaration _ hne hall => exact ⟨by simpa [h.children] using hne, h.all hall⟩
  | call _ hall => exact ⟨by simp [h.children], h.all (List.forall_mem_cons.2 ⟨rfl, hall⟩)⟩
  | returnNothing | ifThen | function => exact .inl hover
  | returnValue | ifElse => exact .inr hover
  | typeFunction => exact .inr (.inl hover)
  | typeFunctionTo => exact .inr (.inr hover)
  | params hall => exact .inl (h.all hall)
  | typeParams hall => exact .inr (h.all hall)
  | declared | param | label => exact .inl hover
  | initialized => cases hname _ rfl
  | atom hatom =>
    cases kind with
    | name => exact .inl hover
    | number | string | trueValue | falseValue | nullValue | thisValue => exact hover
    | _ => cases hatom
  | type htypes hall => exact h.shape_type htypes hall
  | expressionStatement | emptyStatement | property | element | assign | binary | unary | key => exact hover

end FitsOver

end Arena

namespace Assembly
variable {arena : Arena} {pending : Pending} {formed : NodeId → Role}

theorem Stands.fits {role : Role} {n : NodeId} (h : Stands arena formed (role, n))
    (hfits : arena.Fits (formed n) n) : arena.Fits role n := by
  have hpasses : Relation.ReflTransGen (arena.Passes n) (formed n) role := h
  induction hpasses with
  | refl => exact hfits
  | tail hpasses hp ih => exact (ih hpasses).pass hp

theorem TreeInv.kind_of_child (h : TreeInv ⟨arena, pending⟩) {n c : NodeId} (hc : c ∈ arena.children n) :
    ∃ kind, arena.kind? c = some kind ∧ kind ≠ .root := by
  obtain ⟨x, hx⟩ := Arena.exists_node? (h.child_lt_size hc)
  have hk : arena.kind? c = some x.kind := by rw [Arena.kind?, hx]; rfl
  have hparent : arena.parent? c = some n := (h.mem_children n c).1 hc
  refine ⟨x.kind, hk, fun hroot => ?_⟩
  rw [h.root_free c (hroot ▸ hk)] at hparent
  cases hparent

/-- A node other than a root is made over children that fit their roles: by induction on the node, as children come
before their parents. -/
theorem FormInv.fitsOver (h : FormInv formed ⟨arena, pending⟩) (ht : TreeInv ⟨arena, pending⟩) (n : NodeId) :
    ∀ kind, arena.kind? n = some kind → kind ≠ .root →
      ∃ cs, Forms kind cs (formed n) ∧ arena.FitsOver n kind cs := by
  induction n using Nat.strong_induction_on with
  | _ n ih =>
    intro kind hk hne
    obtain ⟨cs, forms, hcs, hstand⟩ := h.form n kind hk hne
    have hcs : arena.children n = cs.map Prod.snd := hcs
    refine ⟨cs, forms, hk, hcs, fun c hc => (hstand c hc).fits ?_⟩
    have hmem : c.2 ∈ arena.children n := hcs ▸ List.mem_map_of_mem hc
    have hlt : c.2 < n :=
      (ht.child_lt n c.2 hmem).resolve_right fun hroot => hne (Option.some.inj (hk.symm.trans hroot))
    obtain ⟨kind', hk', hne'⟩ := ht.kind_of_child hmem
    obtain ⟨cs', forms', hover⟩ := ih c.2 hlt kind' hk' hne'
    exact hover.fits_role forms'

end Assembly

namespace Program
open Assembly

/-- Every node of a program has the shape of its kind, whatever scripts were read into it and whichever of them were
refused. Only a variable that a refused script left behind may have its initial value without a declaration. -/
theorem shaped (scripts : List Script) (n : NodeId) :
    let arena := ofScripts scripts
    arena.Shaped n ∨ arena.IsVariable n ∧ arena.parent? n = none := by
  intro arena
  have hinv := forestInv scripts
  obtain ⟨formed, hforms⟩ := exists_formInv scripts
  by_cases hleft : arena.IsVariable n ∧ arena.parent? n = none
  · exact .inr hleft
  refine .inl fun kind hk => ?_
  by_cases hroot : kind = .root
  · subst hroot
    exact ⟨hinv.tree.root_free n hk, fun c hc => hinv.regions.enrolled n c hk hc⟩
  obtain ⟨cs, forms, hover⟩ := hforms.fitsOver hinv.tree n kind hk hroot
  by_cases hname : ∀ text, kind = .name text → cs = []
  · exact hover.shape forms hname
  -- a name over its initial value: what it is under is known from above
  push Not at hname
  obtain ⟨text, rfl, hne⟩ := hname
  obtain ⟨hrole, e, rfl⟩ := forms.of_name hne
  have hvariable : arena.IsVariable n := by
    have hfits := hover.fits_role forms
    rwa [hrole] at hfits
  obtain ⟨-, hunder⟩ := (binding scripts).names n text e hk (by simp [hover.children])
  cases hp : arena.parent? n with
  | none => exact absurd ⟨hvariable, hp⟩ hleft
  | some p =>
    obtain ⟨word, hword⟩ := hunder p hp
    exact .inr ⟨p, word, hp, hword⟩

/-- What is left of `var a = 1, 2;`, where no name comes after the comma: the first one has its value, but no
parent. -/
theorem not_shaped_leftover :
    let arena := ofScripts [⟨.source, ascii "var a = 1, 2;", .standard⟩]
    arena.kind? 3 = some (.name "a") ∧ ¬ arena.Shaped 3 := by
  intro arena
  have hk : arena.kind? 3 = some (.name "a") := by decide +kernel
  have hchildren : arena.children 3 = [2] := by decide +kernel
  have hparent : arena.parent? 3 = none := by decide +kernel
  refine ⟨hk, fun h => ?_⟩
  rcases h _ hk with hnil | ⟨p, word, hp, -⟩
  · rw [Arena.Over, hchildren] at hnil
    cases hnil
  · rw [hparent] at hp
    cases hp

end Program

end ScriptIndex
