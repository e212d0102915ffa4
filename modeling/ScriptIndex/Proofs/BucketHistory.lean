import Mathlib.Data.List.Induction
import ScriptIndex.Proofs.IndexCalls

/-! # The buckets of an index by their histories

What a name holds is a matter of the calls on that name alone: its `history`. The names stand in the order of
the calls that filled them: a name that is emptied and filled again counts from then on. -/

namespace ScriptIndex.Index

/-- The name whose bucket the call concerns. -/
def Call.name : Call → String
  | .insert name _ => name
  | .remove name _ => name

/-- What the call does to the definitions of its name. -/
def Call.revise (ds : List Definition) : Call → List Definition
  | .insert _ site => ds ++ [site.definition]
  | .remove _ d => ds.erase d

/-- The definitions that the calls on a name leave it. -/
def history (name : String) (calls : List Call) : List Definition :=
  (calls.filter (·.name = name)).foldl Call.revise []

/-- The call at `i` records something under a name that has no definition at that time. -/
structure Fills (calls : List Call) (name : String) (i : Nat) : Prop where
  inserts : ∃ site, calls[i]? = some (.insert name site)
  before : history name (calls.take i) = []

/-- The call at `i` is the last one that fills the name. -/
structure FilledAt (calls : List Call) (name : String) (i : Nat) : Prop where
  fills : Fills calls name i
  last : ∀ j, Fills calls name j → j ≤ i

variable {index : Index} {calls : List Call} {name : String} {d : Definition} {c : Call} {i : Nat}

/-! ### Histories -/

theorem history_append : history name (calls ++ [c]) =
    if c.name = name then c.revise (history name calls) else history name calls := by
  unfold history
  rw [List.filter_append, List.foldl_append]
  split_ifs with h <;> simp [h]

theorem ofCalls_append : ofCalls (calls ++ [c]) = (ofCalls calls).call c :=
  List.foldl_append

theorem Sound.ofCalls (calls : List Call) : Sound (ofCalls calls) :=
  Sound.empty.foldl_call calls

theorem Sound.definitions_call (h : Sound index) :
    (index.call c).definitions name =
      if c.name = name then c.revise (index.definitions name) else index.definitions name := by
  cases c with
  | insert other site => exact definitions_insert index other name site
  | remove other d =>
    rw [Index.call, Call.name, Call.revise]
    cases hr : index.remove? other d with
    | some after =>
      obtain ⟨-, rfl⟩ := remove?_eq_some hr
      exact definitions_takeFrom h.tidy.names_nodup _
    | none =>
      -- nothing is taken: the definition is not under the name, and erasing it changes nothing
      split_ifs with hname
      · subst hname
        have hd : d ∉ index.definitions other := by simpa [Index.remove?] using hr
        exact (List.erase_of_not_mem hd).symm
      · rfl

theorem definitions_ofCalls : (ofCalls calls).definitions name = history name calls := by
  induction calls using List.reverseRecOn with
  | nil => rfl
  | append_singleton calls c ih => rw [ofCalls_append, (Sound.ofCalls calls).definitions_call, ih, history_append]

theorem mem_names_ofCalls : name ∈ (ofCalls calls).names ↔ history name calls ≠ [] := by
  rw [← definitions_ofCalls]
  exact mem_names_iff (Sound.ofCalls calls).tidy

/-! ### The call that filled a name -/

theorem Fills.lt (h : Fills calls name i) : i < calls.length := by
  obtain ⟨site, hi⟩ := h.inserts
  exact (List.getElem?_eq_some_iff.1 hi).1

theorem fills_append : Fills (calls ++ [c]) name i ↔
    Fills calls name i ∨ i = calls.length ∧ (∃ site, c = .insert name site) ∧ history name calls = [] := by
  constructor
  · intro h
    obtain ⟨⟨site, hi⟩, hbefore⟩ := h
    rcases Nat.lt_or_ge i calls.length with hlt | hge
    · rw [List.getElem?_append_left hlt] at hi
      rw [List.take_append_of_le_length (Nat.le_of_lt hlt)] at hbefore
      exact .inl ⟨⟨site, hi⟩, hbefore⟩
    · obtain rfl : i = calls.length := by
        have := (List.getElem?_eq_some_iff.1 hi).1
        simp only [List.length_append, List.length_singleton] at this
        omega
      rw [List.take_left] at hbefore
      exact .inr ⟨rfl, ⟨site, by simpa using hi⟩, hbefore⟩
  · rintro (h | ⟨rfl, ⟨site, rfl⟩, hbefore⟩)
    · obtain ⟨site, hi⟩ := h.inserts
      refine ⟨⟨site, ?_⟩, ?_⟩
      · rw [List.getElem?_append_left h.lt, hi]
      · rw [List.take_append_of_le_length (Nat.le_of_lt h.lt)]
        exact h.before
    · exact ⟨⟨site, by simp⟩, by rwa [List.take_left]⟩

namespace FilledAt

/-- A call that does not fill the name leaves it filled where it was. -/
theorem append (h : FilledAt calls name i) (hc : ¬ ((∃ site, c = .insert name site) ∧ history name calls = [])) :
    FilledAt (calls ++ [c]) name i := by
  refine ⟨fills_append.2 (.inl h.fills), fun j hj => ?_⟩
  rcases fills_append.1 hj with hj | ⟨-, hfill⟩
  · exact h.last j hj
  · exact absurd hfill hc

theorem append_insert {site : Site} (h : history name calls = []) :
    FilledAt (calls ++ [.insert name site]) name calls.length := by
  refine ⟨fills_append.2 (.inr ⟨rfl, ⟨site, rfl⟩, h⟩), fun j hj => ?_⟩
  rcases fills_append.1 hj with hj | ⟨rfl, -⟩
  · exact Nat.le_of_lt hj.lt
  · exact Nat.le_refl _

end FilledAt

theorem exists_filledAt (h : history name calls ≠ []) : ∃ i, FilledAt calls name i := by
  induction calls using List.reverseRecOn with
  | nil => exact absurd rfl h
  | append_singleton calls c ih =>
    by_cases hempty : history name calls = []
    · rw [history_append, hempty] at h
      split_ifs at h with hname
      · cases c with
        | insert other site =>
          obtain rfl : other = name := hname
          exact ⟨_, FilledAt.append_insert hempty⟩
        | remove other d => exact absurd rfl h
      · exact absurd rfl h
    · obtain ⟨i, hi⟩ := ih hempty
      exact ⟨i, hi.append fun hfill => hempty hfill.2⟩

/-! ### The order of names -/

/-- The one name was filled before the other. -/
def FilledBefore (calls : List Call) (name other : String) : Prop :=
  ∃ i j, FilledAt calls name i ∧ FilledAt calls other j ∧ i < j

theorem pairwise_names (calls : List Call) : (ofCalls calls).names.Pairwise (FilledBefore calls) := by
  induction calls using List.reverseRecOn with
  | nil => exact .nil
  | append_singleton calls c ih =>
    rw [ofCalls_append]
    -- a name that holds something is not filled by the call, so the order there is stays
    have hold : ∀ name ∈ (ofCalls calls).names, ¬ ((∃ site, c = .insert name site) ∧ history name calls = []) :=
      fun name hname hfill => mem_names_ofCalls.1 hname hfill.2
    have hkept : (ofCalls calls).names.Pairwise (FilledBefore (calls ++ [c])) :=
      ih.imp_of_mem fun ha hb ⟨i, j, hi, hj, hij⟩ => ⟨i, j, hi.append (hold _ ha), hj.append (hold _ hb), hij⟩
    cases c with
    | remove name d =>
      rw [Index.call]
      cases hr : (ofCalls calls).remove? name d with
      | none => exact hkept
      | some after =>
        obtain ⟨-, rfl⟩ := remove?_eq_some hr
        exact hkept.sublist names_takeFrom
    | insert name site =>
      have hnames : ((ofCalls calls).insert name site).names = if name ∈ (ofCalls calls).names
          then (ofCalls calls).names else (ofCalls calls).names ++ [name] := names_addTo
      rw [Index.call, hnames]
      split_ifs with hmem
      · exact hkept
      · have hempty : history name calls = [] := by_contra fun hne => hmem (mem_names_ofCalls.2 hne)
        refine List.pairwise_append.2 ⟨hkept, List.pairwise_singleton _ _, fun other hother b hb => ?_⟩
        obtain rfl := List.mem_singleton.1 hb
        obtain ⟨i, hi⟩ := exists_filledAt (mem_names_ofCalls.1 hother)
        exact ⟨i, _, hi.append (hold other hother), FilledAt.append_insert hempty, hi.fills.lt⟩

/-! ### What is taken away -/

theorem isSome_remove? : (index.remove? name d).isSome = true ↔ d ∈ index.definitions name := by
  rw [Index.remove?]
  split_ifs with h <;> simpa using h

/-- One of the sites that record the definition is dropped, if there is one. -/
theorem dropSite_cases (d : Definition) (sites : List Site) :
    (dropSite d sites = sites ∧ ∀ s ∈ sites, s.definition ≠ d) ∨
      ∃ before s behind, sites = before ++ s :: behind ∧ s.definition = d ∧ dropSite d sites = before ++ behind := by
  have herase (p : Site → Bool) (hp : ∀ s, p s = true → s.definition = d) (h : ∃ s ∈ sites, p s = true) :
      ∃ before s behind, sites = before ++ s :: behind ∧ s.definition = d ∧ sites.eraseP p = before ++ behind := by
    obtain ⟨s, hs, hps⟩ := h
    obtain ⟨b, before, behind, -, hb, heq, hdrop⟩ := List.exists_of_eraseP hs hps
    exact ⟨before, b, behind, heq, hp b hb, hdrop⟩
  unfold dropSite
  dsimp only
  split_ifs with hown
  · exact .inr (herase _ (by simp) (by simpa using hown))
  · by_cases hany : ∃ s ∈ sites, s.definition = d
    · exact .inr (herase _ (by simp) (by simpa using hany))
    · have hnone : ∀ s ∈ sites, s.definition ≠ d := fun s hs hd => hany ⟨s, hs, hd⟩
      exact .inl ⟨List.eraseP_of_forall_not (by simpa using hnone), hnone⟩

/-- After any calls, a name holds what its history says, and the names that hold something stand in the order in
which they were last filled. What is asked for is taken if the history of the name has it; otherwise nothing
changes. With it goes at most one site, of the same definition, and the other sites stay in order. -/
theorem ofCalls_refines_histories (calls : List Call) :
    let index := ofCalls calls
    (∀ name, index.definitions name = history name calls) ∧
      index.names.Nodup ∧ (∀ name, name ∈ index.names ↔ history name calls ≠ []) ∧
      index.names.Pairwise (FilledBefore calls) ∧
      ∀ name d, ((index.remove? name d).isSome = true ↔ d ∈ history name calls) ∧
        (index.remove? name d = none → ofCalls (calls ++ [.remove name d]) = index) ∧
        ∀ after, index.remove? name d = some after → ofCalls (calls ++ [.remove name d]) = after ∧
          ((after.sites = index.sites ∧ ∀ s ∈ index.sites, s.definition ≠ d) ∨
            ∃ before s behind, index.sites = before ++ s :: behind ∧ s.definition = d ∧
              after.sites = before ++ behind) := by
  intro index
  refine ⟨fun name => definitions_ofCalls, (Sound.ofCalls calls).tidy.names_nodup, fun name => mem_names_ofCalls,
    pairwise_names calls, fun name d => ⟨?_, fun hr => ?_, fun after hr => ⟨?_, ?_⟩⟩⟩
  · rw [← definitions_ofCalls]
    exact isSome_remove?
  · rw [ofCalls_append, Index.call, hr, Option.getD_none]
  · rw [ofCalls_append, Index.call, hr, Option.getD_some]
  · obtain ⟨-, rfl⟩ := remove?_eq_some hr
    exact dropSite_cases d index.sites

/- A name that is emptied and filled again stands last. -/
example :
    let d := Definition.stub 4
    let site : Site := ⟨4, d, .outermost, .externs⟩
    (ofCalls [.insert "a" site, .insert "b" site, .remove "a" d, .insert "a" site]).names = ["b", "a"] := by decide

end ScriptIndex.Index
