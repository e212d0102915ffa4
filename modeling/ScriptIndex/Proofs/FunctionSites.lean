import ScriptIndex.Index.Resolver
import ScriptIndex.Proofs.Forest
import ScriptIndex.Proofs.FormInv
import ScriptIndex.Proofs.SiteOrder
import ScriptIndex.Proofs.SourceEntries
import ScriptIndex.Proofs.Trees

/-! # The sites of functions

The forms of a program leave few places for a function that a name is given to: the initial value of a variable,
the value of an object key, the right side of an assignment, or its own name. Where it is found by name
(`Arena.functionName?`) the extractor finds the same name and the same value, so a resolver finds each named
function at the site of its name, and no two functions at one site (`Program.functions_found`). -/

namespace ScriptIndex

namespace Forms
variable {kind : Kind} {cs : Pending} {role : Role} {n : NodeId} {text : String}

/-- A name with something below it is a variable with its initial value. -/
theorem of_name (h : Forms (.name text) cs role) (hne : cs ≠ []) :
    role = .variable ∧ ∃ e, cs = [(.expression, e)] := by
  cases h with
  | initialized _ e => exact ⟨rfl, e, rfl⟩
  | declared | param | label | atom => exact absurd rfl hne
  | type hk => cases hk

theorem of_key (h : Forms (.key text) cs role) : role = .key ∧ ∃ e, cs = [(.expression, e)] := by
  cases h with
  | key _ e => exact ⟨rfl, e, rfl⟩
  | atom hk => cases hk
  | type hk => cases hk

theorem of_assign (h : Forms .assign cs role) : ∃ e e', cs = [(.target, e), (.expression, e')] := by
  cases h with
  | assign e e' => exact ⟨e, e', rfl⟩
  | atom hk => cases hk
  | type hk => cases hk

theorem of_mem_variable (h : Forms kind cs role) (hn : (.variable, n) ∈ cs) : ∃ word, kind = .declaration word := by
  cases h with
  | declaration word => exact ⟨word, rfl⟩
  | _ => grind

theorem of_mem_key (h : Forms kind cs role) (hn : (.key, n) ∈ cs) : kind = .object := by
  cases h with
  | object => rfl
  | _ => grind

theorem ne_target (h : Forms kind cs role) : role ≠ .target := by
  cases h <;> exact Role.noConfusion

end Forms

namespace Assembly
variable {arena : Arena} {formed : NodeId → Role} {role : Role} {n : NodeId}

/-- Variables and keys stand in no other role. -/
theorem Stands.eq_of_holder (h : Stands arena formed (role, n)) (hn : formed n = .variable ∨ formed n = .key) :
    role = formed n := by
  rcases Relation.ReflTransGen.cases_head h with heq | ⟨other, hp, -⟩
  · exact heq.symm
  · exfalso
    rcases hn with hn | hn <;> rw [hn] at hp <;> cases hp with
    | serve serves => cases serves

/-- What stands as a target was made for one, or is of a kind that targets have. -/
theorem Stands.of_target (h : Stands arena formed (.target, n)) (hne : formed n ≠ .target) :
    ∃ kind, arena.kind? n = some kind ∧ kind.isTarget = true := by
  rcases Relation.ReflTransGen.cases_tail h with heq | ⟨other, -, hp⟩
  · exact absurd heq.symm hne
  · cases hp with
    | serve serves => cases serves
    | aim hk target => exact ⟨_, hk, target⟩

end Assembly

/-! ### Names of functions -/

namespace Kind

/-- The kinds of nodes that give a name to what is below them. -/
def binds : Kind → Bool
  | name _ | key _ | assign => true
  | _ => false

end Kind

namespace Arena

/-- `n` gives the function `f` its name. -/
inductive Binds (arena : Arena) (f : NodeId) : NodeId → Prop
  /-- A variable that the function is the initial value of. -/
  | initial {n p : NodeId} {text : String} {word : VarWord} (hn : arena.kind? n = some (.name text))
      (hc : arena.children n = [f]) (hp : arena.parent? n = some p) (hk : arena.kind? p = some (.declaration word)) :
      Binds arena f n
  /-- A key that the function is the value of. -/
  | key {n p : NodeId} {text : String} (hn : arena.kind? n = some (.key text)) (hc : arena.children n = [f])
      (hp : arena.parent? n = some p) (hk : arena.kind? p = some .object) : Binds arena f n
  /-- What the function is assigned to. -/
  | target {n p : NodeId} (hk : arena.kind? p = some .assign) (hc : arena.children p = [n, f]) : Binds arena f n
  /-- The function's own name, if there is no other. -/
  | own {n : NodeId} (hn : arena.firstChild? f = some n) (given : (arena.givenName? n).isSome = true)
      (alone : ∀ p kind, arena.parent? f = some p → arena.kind? p = some kind → kind.binds = false) : Binds arena f n

/-- Where the forms of a program put what is named. -/
structure Binding (arena : Arena) : Prop where
  names : ∀ n text c, arena.kind? n = some (.name text) → c ∈ arena.children n → arena.children n = [c] ∧
    ∀ p, arena.parent? n = some p → ∃ word, arena.kind? p = some (.declaration word)
  keys : ∀ n text c, arena.kind? n = some (.key text) → c ∈ arena.children n → arena.children n = [c] ∧
    ∀ p, arena.parent? n = some p → arena.kind? p = some .object
  assigned : ∀ p f, arena.kind? p = some .assign → f ∈ arena.children p → arena.isFunction f = true →
    ∃ n, arena.children p = [n, f]

variable {arena : Arena} {f n p : NodeId} {region : Region} {name : String}

theorem isFunction_iff : arena.isFunction f = true ↔ arena.kind? f = some .function := by
  rw [isFunction, beq_iff_eq]

theorem ne_root_of_isFunction (hf : arena.isFunction f = true) : arena.kind? f ≠ some .root := by
  rw [isFunction_iff.1 hf]
  exact fun h => Kind.noConfusion (Option.some.inj h)

theorem ne_root_of_canonicalName? (h : arena.canonicalName? n = some name) : arena.kind? n ≠ some .root := by
  intro hroot
  rw [canonicalName?, hroot] at h
  cases h

theorem functionName?_assigned (hp : arena.parent? f = some p) (hk : arena.kind? p = some .assign)
    (hc : arena.children p = [n, f]) : arena.functionName? f = some n := by
  simp [functionName?, hp, hk, child?, firstChild?, hc]

theorem functionName?_own (h : ∀ p kind, arena.parent? f = some p → arena.kind? p = some kind → kind.binds = false) :
    arena.functionName? f = some n ↔ arena.firstChild? f = some n ∧ (arena.givenName? n).isSome = true := by
  have hown : (arena.firstChild? f).filter (fun name => (arena.givenName? name).isSome) = some n ↔
      arena.firstChild? f = some n ∧ (arena.givenName? n).isSome = true := Option.filter_eq_some_iff
  rw [← hown]
  unfold functionName?
  cases hp : arena.parent? f with
  | none => rfl
  | some p =>
    dsimp only
    split
    · next hk => cases h p _ hp hk
    · next hk => cases h p _ hp hk
    · next hk => cases h p _ hp hk
    · rfl

namespace Binding
variable (hb : arena.Binding) (hl : arena.Linked)
include hb hl

/-- The node that names a function is the one that gives it its name; a variable or key has to have a parent. -/
theorem functionName?_eq_some_iff (hf : arena.isFunction f = true)
    (hparent : arena.parent? f = some n → arena.kind? n ≠ some .root → ∃ q, arena.parent? n = some q) :
    arena.functionName? f = some n ↔ arena.Binds f n := by
  constructor
  · intro hn
    by_cases halone : ∀ p kind, arena.parent? f = some p → arena.kind? p = some kind → kind.binds = false
    · obtain ⟨hfirst, hgiven⟩ := (functionName?_own halone).1 hn
      exact .own hfirst hgiven halone
    · simp only [not_forall] at halone
      obtain ⟨p, kind, hp, hk, hbinds⟩ := halone
      have hc : f ∈ arena.children p := (hl.mem_children p f).2 hp
      have hroot : arena.kind? p ≠ some .root := by
        rintro heq
        rw [hk] at heq
        cases heq
        exact hbinds rfl
      cases kind with
      | name text =>
        obtain rfl : p = n := by simpa [functionName?, hp, hk] using hn
        obtain ⟨q, hq⟩ := hparent hp hroot
        obtain ⟨honly, hdeclared⟩ := hb.names p text f hk hc
        obtain ⟨word, hword⟩ := hdeclared q hq
        exact .initial hk honly hq hword
      | key text =>
        obtain rfl : p = n := by simpa [functionName?, hp, hk] using hn
        obtain ⟨q, hq⟩ := hparent hp hroot
        obtain ⟨honly, hobject⟩ := hb.keys p text f hk hc
        exact .key hk honly hq (hobject q hq)
      | assign =>
        obtain ⟨t, ht⟩ := hb.assigned p f hk hc hf
        obtain rfl : t = n := Option.some.inj ((functionName?_assigned hp hk ht).symm.trans hn)
        exact .target hk ht
      | _ => exact absurd rfl hbinds
  · intro h
    cases h with
    | initial hk hc | key hk hc =>
      have hp : arena.parent? f = some n := (hl.mem_children n f).1 (by simp [hc])
      simp [functionName?, hp, hk]
    | @target p hk hc =>
      have hp : arena.parent? f = some p := (hl.mem_children p f).1 (by simp [hc])
      exact functionName?_assigned hp hk hc
    | own hn given alone => exact (functionName?_own alone).2 ⟨hn, given⟩

end Binding

/-- What gives a function its name and has a canonical name defines that function. -/
theorem syntactic_of_binds (region : Region) (hl : arena.Linked) (hf : arena.isFunction f = true) (h : arena.Binds f n)
    (hname : arena.canonicalName? n = some name) :
    Extractor.syntactic arena n region = some (.concrete n (some f) region) := by
  have hunder : ∀ p, arena.parent? n = some p →
      Extractor.syntactic arena n region = Extractor.syntacticUnder arena p n region := by
    intro p hp
    rw [Extractor.syntactic, hp]
    rfl
  cases h with
  | initial hk hc hp hkp =>
    have hgiven : (arena.givenName? n).isSome = true := by
      unfold canonicalName? at hname
      rw [hk] at hname
      dsimp only at hname
      split_ifs at hname with hne
      simp [givenName?, nameText?, hk, hne]
    rw [hunder _ hp, Extractor.syntacticUnder, hkp]
    simp [hgiven, firstChild?, hc]
  | key hk hc hp hkp =>
    rw [hunder _ hp, Extractor.syntacticUnder, hkp]
    simp [isKey, hk, firstChild?, hc]
  | @target p hk hc =>
    have hp : arena.parent? n = some p := (hl.mem_children p n).1 (by simp [hc])
    rw [hunder _ hp, Extractor.syntacticUnder, hk]
    simp [firstChild?, child?, hc]
  | own hn given =>
    have hp : arena.parent? n = some f := (hl.mem_children f n).1 (List.mem_of_head? hn)
    rw [hunder _ hp, Extractor.syntacticUnder, isFunction_iff.1 hf]
    simp [hn, given]

end Arena

/-! ### Sites -/

theorem Index.Agrees.site?_eq_some_iff {arena : Arena} {index : Index} (h : index.Agrees arena) {n : NodeId}
    {s : Site} : index.site? n = some s ↔ s ∈ index.sites ∧ s.node = n :=
  Index.site?_eq_some_iff h.nodes_nodup

/-- What the form of the source says of a node with a canonical name is recorded. -/
theorem Arena.mem_foldl_sitesAfter_source {arena : Arena} {a : Arrival} {d : Definition} {name : String}
    (hname : arena.canonicalName? a.node = some name) (hd : Extractor.syntactic arena a.node .source = some d) :
    ∀ {arrivals : List Arrival}, a ∈ arrivals →
      ⟨a.node, d.recorded arena .source, a.place, .source⟩ ∈ arrivals.foldl (arena.sitesAfter .source) []
  | [], ha => absurd ha List.not_mem_nil
  | b :: arrivals, ha => by
    rw [List.foldl_cons, foldl_sitesAfter_source]
    rcases List.mem_cons.1 ha with rfl | ha
    · refine List.mem_append_left _ ?_
      simp [sitesAfter, hname, hd]
    · exact List.mem_append_right _ (mem_foldl_sitesAfter_source hname hd ha)

theorem Definition.recorded_function {arena : Arena} {f n : NodeId} {region : Region}
    (hf : arena.isFunction f = true) :
    (Definition.concrete n (some f) region).recorded arena region = .concrete n (some f) region := by
  simp [recorded, rvalue, hf]

theorem Resolver.siteOfFunction_eq {σ : Type} {r : Resolver σ} {index : Index} {f : NodeId}
    (hindex : r.index = .ok index) (hf : r.arena.isFunction f = true) : r.siteOfFunction f = .ok ((r.arena.functionName? f).bind index.site?) := by
  have hcheck : r.check f = .ok () := if_pos (Arena.contains_iff.2 (Arena.lt_of_kind? (Arena.isFunction_iff.1 hf)))
  unfold siteOfFunction
  rw [hindex, hcheck]
  show (if _ then _ else _) = _
  rw [if_pos hf]
  rfl

/-- Only functions are looked up. -/
theorem Resolver.isFunction_of_siteOfFunction {σ : Type} {r : Resolver σ} {f : NodeId} {found : Option Site}
    (h : r.siteOfFunction f = .ok found) : r.arena.isFunction f = true := by
  unfold siteOfFunction at h
  cases hindex : r.index with
  | error e => rw [hindex] at h; cases h
  | ok index =>
    cases hcheck : r.check f with
    | error e => rw [hindex, hcheck] at h; cases h
    | ok =>
      rw [hindex, hcheck] at h
      by_contra hf
      have h : (if r.arena.isFunction f = true then _ else _) = Except.ok found := h
      rw [if_neg hf] at h
      cases h

namespace Program
open Assembly

theorem binding (scripts : List Script) : (ofScripts scripts).Binding := by
  obtain ⟨formed, h⟩ := exists_formInv scripts
  have hregions := (forestInv scripts).regions
  have hl := (shape scripts).linked
  -- what is under a root is a script, and so neither a name nor a key
  have hnonroot : ∀ n p kind, (ofScripts scripts).kind? n = some kind → (∀ module, kind ≠ .script module) →
      (ofScripts scripts).parent? n = some p → ∃ pkind, (ofScripts scripts).kind? p = some pkind ∧ pkind ≠ .root := by
    intro n p kind hk hne hp
    have hc : n ∈ (ofScripts scripts).children p := (hl.mem_children p n).2 hp
    obtain ⟨x, hx⟩ := Arena.exists_node? (Arena.lt_of_mem_children hc)
    refine ⟨x.kind, by rw [Arena.kind?, hx]; rfl, fun hroot => ?_⟩
    have hkp : (ofScripts scripts).kind? p = some .root := by rw [Arena.kind?, hx, ← hroot]; rfl
    obtain ⟨module, hscript⟩ := hregions.enrolled p n hkp hc
    exact hne module (Option.some.inj (hk.symm.trans hscript))
  -- a node whose role is fixed is formed into its parent in that role
  have hunder : ∀ n p kind, (ofScripts scripts).kind? n = some kind → (∀ module, kind ≠ .script module) →
      formed n = .variable ∨ formed n = .key → (ofScripts scripts).parent? n = some p →
      ∃ pkind cs, (ofScripts scripts).kind? p = some pkind ∧ Forms pkind cs (formed p) ∧ (formed n, n) ∈ cs := by
    intro n p kind hk hne hrole hp
    obtain ⟨pkind, hkp, hnr⟩ := hnonroot n p kind hk hne hp
    obtain ⟨cs, role, hforms, hmem, hstand⟩ := h.child ((hl.mem_children p n).2 hp) hkp hnr
    exact ⟨pkind, cs, hkp, hforms, hstand.eq_of_holder hrole ▸ hmem⟩
  constructor
  case names =>
    intro n text c hk hc
    obtain ⟨cs, hforms, hcs, -⟩ := h.form n _ hk Kind.noConfusion
    have hne : cs ≠ [] := by
      rintro rfl
      exact absurd (hcs ▸ hc :) List.not_mem_nil
    obtain ⟨hrole, e, rfl⟩ := hforms.of_name hne
    have hcs : (ofScripts scripts).children n = [e] := hcs
    rw [hcs] at hc ⊢
    refine ⟨by rw [List.mem_singleton.1 hc], fun p hp => ?_⟩
    obtain ⟨pkind, cs, hkp, hforms, hmem⟩ := hunder n p _ hk (fun _ => Kind.noConfusion) (.inl hrole) hp
    obtain ⟨word, rfl⟩ := hforms.of_mem_variable (hrole ▸ hmem)
    exact ⟨word, hkp⟩
  case keys =>
    intro n text c hk hc
    obtain ⟨cs, hforms, hcs, -⟩ := h.form n _ hk Kind.noConfusion
    obtain ⟨hrole, e, rfl⟩ := hforms.of_key
    have hcs : (ofScripts scripts).children n = [e] := hcs
    rw [hcs] at hc ⊢
    refine ⟨by rw [List.mem_singleton.1 hc], fun p hp => ?_⟩
    obtain ⟨pkind, cs, hkp, hforms, hmem⟩ := hunder n p _ hk (fun _ => Kind.noConfusion) (.inr hrole) hp
    rwa [hforms.of_mem_key (hrole ▸ hmem)] at hkp
  case assigned =>
    intro p f hk hc hf
    obtain ⟨cs, hforms, hcs, hstand⟩ := h.form p _ hk Kind.noConfusion
    obtain ⟨t, e, rfl⟩ := hforms.of_assign
    have hcs : (ofScripts scripts).children p = [t, e] := hcs
    have hkf := Arena.isFunction_iff.1 hf
    rw [hcs] at hc ⊢
    simp only [List.mem_cons, List.not_mem_nil, or_false] at hc
    rcases hc with rfl | rfl
    · -- no function is a target
      obtain ⟨fcs, hfforms, -⟩ := h.form f _ hkf Kind.noConfusion
      obtain ⟨kind, hkind, htarget⟩ := (hstand (.target, f) List.mem_cons_self).of_target hfforms.ne_target
      cases hkind.symm.trans hkf
      cases htarget
    · exact ⟨t, rfl⟩

namespace Shape
open Index
variable {arena : Arena} (hs : Shape arena) {index : Index} {f n : NodeId} {region : Region}
include hs

theorem trees : arena.Trees := hs.linked.trees hs.acyclic hs.children_nodup

/-- Below a root, a node other than the root has a parent that is below it too. -/
theorem exists_parent (hn : arena.Below region.root n) (hne : arena.kind? n ≠ some .root) :
    ∃ p, arena.parent? n = some p ∧ arena.Below region.root p := by
  rcases hn.eq_or_below_parent with rfl | ⟨p, hp, hb⟩
  · exact absurd (hs.root_kind region) hne
  · exact ⟨p, (hs.linked.mem_children p n).1 hp, hb⟩

theorem functionName?_iff (region : Region) (hb : arena.Binding) (hf : arena.isFunction f = true)
    (hbelow : arena.Below region.root f) : arena.functionName? f = some n ↔ arena.Binds f n := by
  refine hb.functionName?_eq_some_iff hs.linked hf fun hp hne => ?_
  obtain ⟨p, hp', hbp⟩ := hs.exists_parent hbelow (Arena.ne_root_of_isFunction hf)
  obtain rfl : p = n := Option.some.inj (hp'.symm.trans hp)
  obtain ⟨q, hq, -⟩ := hs.exists_parent hbp hne
  exact ⟨q, hq⟩

/-- What gives a function below a root its name is below the root as well. -/
theorem below_of_binds (region : Region) (hf : arena.isFunction f = true) (hbelow : arena.Below region.root f)
    (h : arena.Binds f n) : arena.Below region.root n := by
  obtain ⟨p, hp, hbp⟩ := hs.exists_parent hbelow (Arena.ne_root_of_isFunction hf)
  have hparent : ∀ {q}, f ∈ arena.children q → q = p := fun hq =>
    Option.some.inj (((hs.linked.mem_children _ f).1 hq).symm.trans hp)
  cases h with
  | initial hk hc | key hk hc => exact hparent (show f ∈ arena.children n by simp [hc]) ▸ hbp
  | @target q hk hc =>
    obtain rfl := hparent (show f ∈ arena.children q by simp [hc])
    exact hbp.tail (show n ∈ arena.children q by simp [hc])
  | own hn => exact hbelow.tail (List.mem_of_head? hn)

/-- The site of a node that names a function records that function. -/
theorem definition_of_functionName? (hb : arena.Binding) (hagrees : index.Agrees arena)
    (hsites : index.sites = arena.regionSites .externs ++ arena.regionSites .source) {site : Site}
    (hsite : site ∈ index.sites) (hf : arena.isFunction f = true) (hname : arena.functionName? f = some site.node) :
    ∃ region : Region, arena.Below region.root site.node ∧ site.definition = .concrete site.node (some f) region := by
  obtain ⟨region, hmem⟩ : ∃ region, site ∈ arena.regionSites region := by
    rw [hsites] at hsite
    rcases List.mem_append.1 hsite with h | h
    · exact ⟨.externs, h⟩
    · exact ⟨.source, h⟩
  obtain ⟨name, hcanonical⟩ := hagrees.named site hsite
  have hbelow : arena.Below region.root site.node :=
    Arena.below_of_mem_preorder ((hs.nodes_regionSites region).subset (List.mem_map_of_mem hmem))
  obtain ⟨q, hq, -⟩ := hs.exists_parent hbelow (Arena.ne_root_of_canonicalName? hcanonical)
  have hbinds := (hb.functionName?_eq_some_iff hs.linked hf fun _ _ => ⟨q, hq⟩).1 hname
  have hd := Arena.syntactic_of_binds region hs.linked hf hbinds hcanonical
  refine ⟨region, hbelow, ?_⟩
  rcases Arena.records_of_mem_regionSites hmem with ⟨d, hd', hdefinition⟩ | ⟨-, hbare, -⟩
  · obtain rfl := Option.some.inj (hd'.symm.trans hd)
    rw [hdefinition, Definition.recorded_function hf]
  · rw [(hs.found hd).1] at hbare
    cases hbare

/-- A named function of the source has a site. -/
theorem exists_site_of_binds (hsites : index.sites = arena.regionSites .externs ++ arena.regionSites .source)
    (hf : arena.isFunction f = true) (hbelow : arena.Below Region.source.root f) (h : arena.Binds f n) {name : String}
    (hname : arena.canonicalName? n = some name) : ∃ site ∈ index.sites, site.node = n := by
  have hroot := hs.root_lt .source
  have hmem : n ∈ arena.preorder Region.source.root :=
    (hs.trees.mem_preorder_iff hroot).2 (hs.below_of_binds .source hf hbelow h)
  rw [← Arena.nodes_visits_source hs.linked hs.acyclic hroot] at hmem
  obtain ⟨a, ha, rfl⟩ := List.mem_map.1 hmem
  have hd := Arena.syntactic_of_binds .source hs.linked hf h hname
  rw [hsites]
  exact ⟨_, List.mem_append_right _ (Arena.mem_foldl_sitesAfter_source hname hd ha), rfl⟩

end Shape

/-- In a gathered program each function of the source is found at the site of the node that names it, if that has
a canonical name, and is the value recorded there. So no two functions are found at one site. -/
theorem functions_found (scripts : List Script) :
    let arena := ofScripts scripts
    ∃ r, (Resolver.ofArena arena .syntactic).gather Region.externs.root Region.source.root = .ok r ∧
      (∀ f ∈ arena.preorder Region.source.root, arena.isFunction f = true →
        (∀ n, arena.functionName? f = some n ↔ arena.Binds f n) ∧
        ∃ found, r.siteOfFunction f = .ok found ∧
          (found.isSome = true ↔ ∃ n name, arena.functionName? f = some n ∧ arena.canonicalName? n = some name) ∧
          ∀ site ∈ found, arena.functionName? f = some site.node ∧
            site.definition = .concrete site.node (some f) .source) ∧
      ∀ f g site, r.siteOfFunction f = .ok (some site) → r.siteOfFunction g = .ok (some site) → f = g := by
  intro arena
  have hs : Shape arena := shape scripts
  have hb : arena.Binding := binding scripts
  obtain ⟨r, hr, harena, hindex⟩ :=
    Resolver.gather_eq_ok hs.linked .syntactic (hs.root_lt .externs) (hs.root_lt .source)
  obtain ⟨hagrees, hsites⟩ := hs.ofRegions_agrees
  generalize (Gathering.ofRegions arena .syntactic Region.externs.root Region.source.root).index = index
    at hindex hagrees hsites
  have hfound : ∀ f, arena.isFunction f = true →
      r.siteOfFunction f = .ok ((arena.functionName? f).bind index.site?) := fun f hf =>
    harena ▸ Resolver.siteOfFunction_eq hindex (harena ▸ hf)
  have hfind : ∀ f site, (arena.functionName? f).bind index.site? = some site ↔
      arena.functionName? f = some site.node ∧ site ∈ index.sites := by
    intro f site
    simp only [Option.bind_eq_some_iff, hagrees.site?_eq_some_iff]
    constructor
    · rintro ⟨n, hn, hsite, rfl⟩
      exact ⟨hn, hsite⟩
    · rintro ⟨hn, hsite⟩
      exact ⟨_, hn, hsite, rfl⟩
  refine ⟨r, hr, fun f hmem hf => ?_, fun f g site hfsite hgsite => ?_⟩
  · have hbelow : arena.Below Region.source.root f := Arena.below_of_mem_preorder hmem
    have hiff := fun n => hs.functionName?_iff .source (n := n) hb hf hbelow
    refine ⟨hiff, _, hfound f hf, ?_, fun site hsite => ?_⟩
    · rw [Option.isSome_iff_exists]
      constructor
      · rintro ⟨site, hsite⟩
        obtain ⟨hn, hmem⟩ := (hfind f site).1 hsite
        obtain ⟨name, hname⟩ := hagrees.named site hmem
        exact ⟨site.node, name, hn, hname⟩
      · rintro ⟨n, name, hn, hname⟩
        obtain ⟨site, hmem, rfl⟩ := hs.exists_site_of_binds hsites hf hbelow ((hiff n).1 hn) hname
        exact ⟨site, (hfind f site).2 ⟨hn, hmem⟩⟩
    · obtain ⟨hn, hmem⟩ := (hfind f site).1 hsite
      obtain ⟨region, hregion, hdefinition⟩ := hs.definition_of_functionName? hb hagrees hsites hmem hf hn
      refine ⟨hn, ?_⟩
      have hsource := hs.below_of_binds .source hf hbelow ((hiff _).1 hn)
      cases region with
      | source => exact hdefinition
      | externs =>
        exact absurd hsource
          (hs.linked.disjoint_below (by decide) (hs.root_free .externs) (hs.root_free .source) hregion)
  · have hf : arena.isFunction f = true := harena ▸ Resolver.isFunction_of_siteOfFunction hfsite
    have hg : arena.isFunction g = true := harena ▸ Resolver.isFunction_of_siteOfFunction hgsite
    rw [hfound f hf, Except.ok.injEq, hfind] at hfsite
    rw [hfound g hg, Except.ok.injEq, hfind] at hgsite
    obtain ⟨_, -, hdefinition⟩ := hs.definition_of_functionName? hb hagrees hsites hfsite.2 hf hfsite.1
    obtain ⟨_, -, hdefinition'⟩ := hs.definition_of_functionName? hb hagrees hsites hgsite.2 hg hgsite.1
    have hvalue : some f = some g := (Definition.concrete.inj (hdefinition.symm.trans hdefinition')).2.1
    exact Option.some.inj hvalue

/-- A function that is assigned to an element is not found by its own name either. -/
example :
    let arena := ofScripts [⟨.source, ascii "a[0] = function f() \x7b\x7d;", .standard⟩]
    arena.isFunction 8 = true ∧ arena.functionName? 8 = some 4 ∧ arena.canonicalName? 4 = none := by
  decide +kernel

end Program

end ScriptIndex
