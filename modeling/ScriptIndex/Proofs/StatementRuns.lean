import ScriptIndex.Proofs.PhraseRuns

/-! # Reading statements

The rules of statements read them as they are written. So every level of the grammar reads all that is
short enough for it (`Grammar.within_reads`), and a script is read as a whole (`script_plants`). -/

namespace ScriptIndex.ScriptReader
open Reader Reader.Yields Phrase Lexeme

variable {s : Input} {arena mid : Arena} {ws rest : List Lexeme}

namespace Grammar
variable {g : Grammar} {depth : Nat} {t : Tree}

namespace Reads

theorem variableRule (hg : g.Reads depth) (v : Variable) (h : v.words.length ≤ depth) :
    Plants g.variableRule EndsAssignment v.words v.tree := by
  intro s arena rest hends hs
  cases v with
  | declared x =>
    rw [Variable.words] at hs
    refine (require_yields hs rfl).seq ?_
    rintro t s' _ ⟨ht, hs', rfl⟩
    refine (accept_none hs' hends.sign).seqSame ?_
    rw [text_of_shows ht]
    exact node_plants hs' .nil
  | initialized x value =>
    rw [Variable.words] at hs h
    simp only [List.length_cons, length_parens] at h
    refine (require_yields hs rfl).seq ?_
    rintro t s' _ ⟨ht, hs', rfl⟩
    refine (accept_yields hs' rfl).seq ?_
    rintro _ s' _ ⟨⟨sign, rfl, -⟩, hs', rfl⟩
    rw [text_of_shows ht]
    refine (hg.assignmentRule_parens (by omega) _ _ _ hends hs').seq ?_
    rintro n s' mid ⟨hs', hn⟩
    rw [Variable.tree]
    exact node_plants hs' (.cons hn .nil)

/-- The declared variables, up to the end of the declaration. -/
theorem variableLoops (hg : g.Reads depth) (hrest : nextKind rest = .semicolon) :
    ∀ (v : Variable) (vs : List Variable), (∀ part ∈ v.words :: variableParts vs, part.length ≤ depth) →
      Loops (do
        let name ← g.variableRule
        return if (← accept .comma).isSome then .more name else .last name)
        (commas (v.words :: variableParts vs) ++ rest) (v.tree :: variableTrees vs) rest
  | v, [], h => by
    rw [variableParts, variableTrees]
    have hends : EndsAssignment (nextKind rest) := hrest ▸ .of_mem (by decide)
    refine .last fun s arena hs => ?_
    refine (hg.variableRule v (h _ (List.mem_cons_self ..)) _ _ _ hends hs).seq ?_
    rintro n s' after ⟨hs', hn⟩
    refine (accept_none hs' (hrest ▸ by decide)).seqSame ?_
    exact done ⟨n, rfl, hs', hn⟩
  | v, v' :: vs, h => by
    rw [variableParts] at h
    rw [variableParts, variableTrees, commas_cons_cons, List.append_assoc]
    have hends : EndsAssignment .comma := .of_mem (by decide)
    refine .more (fun s arena hs => ?_) ?_ (hg.variableLoops hrest v' vs (List.forall_mem_cons.1 h).2)
    · refine (hg.variableRule v (h _ (List.mem_cons_self ..)) _ _ (fixed .comma :: _) hends hs).seq ?_
      rintro n s' after ⟨hs', hn⟩
      refine (accept_yields hs' rfl).seq ?_
      rintro _ s' _ ⟨⟨t, rfl, -⟩, hs', rfl⟩
      exact done ⟨n, rfl, hs', hn⟩
    · simp only [List.length_append, List.length_cons]
      omega

theorem declaration (hg : g.Reads depth) (word : VarWord) (first : Variable) (more : List Variable)
    (h : (commas (first.words :: variableParts more)).length ≤ depth) :
    Plants (g.declaration word) (fun _ => True) (Closed.declaration word first more).words
      (Closed.declaration word first more).tree := by
  intro s arena rest _ hs
  rw [Closed.words, List.cons_append, List.append_assoc] at hs
  have hrest : nextKind (fixed .semicolon :: rest) = .semicolon := rfl
  have hloops := hg.variableLoops hrest first more fun part hpart =>
    Nat.le_trans (length_le_commas hpart) h
  refine (consume_yields hs).seq ?_
  rintro start s' _ ⟨-, hs', rfl⟩
  refine (turns_yields hs').seqSame ?_
  refine (collect_yields hloops _ _ _ (Nat.lt_succ_self _) hs').seq ?_
  rintro ns s' mid ⟨hs', hns⟩
  refine (accept_yields hs' rfl).seq ?_
  rintro _ s' _ ⟨-, hs', rfl⟩
  rw [Closed.tree]
  exact node_plants hs' hns

/-- An `if` up to the statement for when the test holds. -/
theorem ifRule_test (hg : g.Reads depth) {test : Expression} (h : (parens test.words).length ≤ depth)
    {α : Type} {Q : α → Input → Arena → Prop} {f : Token → NodeId → ScriptReader α}
    (hs : s.stream.Shows (fixed .ifWord :: (parens (parens test.words) ++ rest)))
    (hf : ∀ start n s' mid, s'.stream.Shows rest → Planted arena test.tree n mid →
      Yields (f start n) s' mid Q) :
    Yields (do
      let start ← require .ifWord
      let _ ← require .parenOpen
      let test ← g.assignmentRule
      let _ ← require .parenClose
      f start test) s arena Q := by
  rw [parens_append] at hs
  refine (require_yields hs rfl).seq ?_
  rintro start s' _ ⟨-, hs', rfl⟩
  refine (require_yields hs' rfl).seq ?_
  rintro _ s' _ ⟨-, hs', rfl⟩
  have hends : EndsAssignment .parenClose := .of_mem (by decide)
  rw [length_parens] at h
  refine (hg.assignmentRule_parens (by omega) _ _ (fixed .parenClose :: rest) hends hs').seq ?_
  rintro n s' mid ⟨hs', hn⟩
  refine (require_yields hs' rfl).seq ?_
  rintro _ s' _ ⟨-, hs', rfl⟩
  exact hf start n s' _ hs' hn

theorem ifThen (hg : g.Reads depth) {test : Expression} {holds : Statement}
    (ht : (parens test.words).length ≤ depth) (hh : holds.words.length ≤ depth) :
    Plants g.ifRule (· ≠ .elseWord) (fixed .ifWord :: (parens (parens test.words) ++ holds.words))
      (.node .ifStatement [test.tree, holds.tree]) := by
  intro s arena rest hends hs
  rw [List.cons_append, List.append_assoc] at hs
  refine hg.ifRule_test ht hs ?_
  rintro start n s mid hs hn
  refine (hg.statement holds hh _ _ _ hends hs).seq ?_
  rintro k s' mid' ⟨hs', hk⟩
  refine (accept_none hs' hends).seqSame ?_
  exact node_plants hs' (.cons hn (.cons hk .nil))

theorem ifElse (hg : g.Reads depth) {test : Expression} {holds : Closed} {ends : TokenKind → Prop}
    (ht : (parens test.words).length ≤ depth) (hh : holds.words.length ≤ depth)
    (hfails : Plants g.statement ends ws t) :
    Plants g.ifRule ends (fixed .ifWord :: (parens (parens test.words) ++ (holds.words ++ fixed .elseWord :: ws)))
      (.node .ifStatement [test.tree, holds.tree, t]) := by
  intro s arena rest hends hs
  rw [List.cons_append, List.append_assoc, List.append_assoc] at hs
  refine hg.ifRule_test ht hs ?_
  rintro start n s mid hs hn
  refine (hg.closed holds hh _ _ _ trivial hs).seq ?_
  rintro k s' mid' ⟨hs', hk⟩
  refine (accept_yields hs' rfl).seq ?_
  rintro _ s' _ ⟨⟨_, rfl, -⟩, hs', rfl⟩
  refine (hfails _ _ _ hends hs').seq ?_
  rintro l s' mid'' ⟨hs', hl⟩
  exact node_plants hs' (.cons hn (.cons hk (.cons hl .nil)))

theorem returnNothing :
    Plants g.returnRule (fun _ => True) [fixed .returnWord, fixed .semicolon] (.node .returnStatement []) := by
  intro s arena rest _ hs
  refine (consume_yields hs).seq ?_
  rintro start s' _ ⟨-, hs', rfl⟩
  refine peek_seq hs' fun t hkind => ?_
  have hkind : t.kind = .semicolon := hkind
  rw [if_pos (by simp [endsReturn, hkind])]
  refine (accept_yields hs' rfl).seq ?_
  rintro _ s' _ ⟨-, hs', rfl⟩
  exact node_plants hs' .nil

theorem returnValue (hg : g.Reads depth) {e : Expression} (h : e.words.length ≤ depth) :
    Plants g.returnRule (fun _ => True) (fixed .returnWord :: (parens e.words ++ [fixed .semicolon]))
      (.node .returnStatement [e.tree]) := by
  intro s arena rest _ hs
  rw [List.cons_append, List.append_assoc] at hs
  refine (consume_yields hs).seq ?_
  rintro start s' _ ⟨-, hs', rfl⟩
  refine peek_seq hs' fun t hkind => ?_
  have hkind : t.kind = .parenOpen := hkind
  rw [if_neg (by simp [endsReturn, hkind])]
  have hends : EndsAssignment .semicolon := .of_mem (by decide)
  refine (hg.assignmentRule_parens h _ _ (fixed .semicolon :: rest) hends hs').seq ?_
  rintro n s' mid ⟨hs', hn⟩
  refine (accept_yields hs' rfl).seq ?_
  rintro _ s' _ ⟨-, hs', rfl⟩
  exact node_plants hs' (.cons hn .nil)

end Reads

/-- Without documentation before it, a statement is all that is read. -/
theorem statementRule_of {ends : TokenKind → Prop}
    (h : ∀ (s : Input) (arena : Arena) (rest : List Lexeme), ends (nextKind rest) → s.stream.Shows (ws ++ rest) →
      Yields g.undocumented s arena fun r s' after => s'.stream.Shows rest ∧ Planted arena t r.1 after) :
    Plants g.statementRule ends ws t := by
  intro s arena rest hends hs
  refine (peek_yields hs).seq ?_
  rintro start _ _ ⟨⟨-, hdoc, -⟩, rfl, rfl⟩
  rw [hdoc]
  refine (h _ _ _ hends hs).seq ?_
  rintro ⟨n, described⟩ s' after hn
  exact done hn

namespace Reads

theorem closedStatement (hg : g.Reads depth) (st : Closed) (h : st.words.length ≤ depth + 1) :
    Plants g.statementRule (fun _ => True) st.words st.tree := by
  refine statementRule_of fun s arena rest _ hs => ?_
  cases st with
  | block body =>
    rw [Closed.words] at hs h
    rw [Closed.tree]
    simp only [List.length_cons, List.length_append] at h
    refine peek_seq hs fun t hkind => ?_
    rw [hkind]
    exact (hg.block (by omega) _ _ _ trivial hs).map
  | declaration word first more =>
    have hs' := hs
    rw [Closed.words] at hs' h
    simp only [List.length_cons, List.length_append] at h
    have hdeclaration := hg.declaration word first more (by omega) _ arena _ trivial hs
    refine peek_seq hs' fun t hkind => ?_
    rw [hkind]
    cases word <;> exact hdeclaration.map
  | function f =>
    rw [Closed.words] at hs h
    rw [Closed.tree]
    obtain ⟨ws, hws⟩ := function_begins f
    have hs' := hs
    rw [hws] at hs'
    refine peek_seq hs' fun t hkind => ?_
    rw [hkind]
    exact (hg.function f h _ _ _ trivial hs).map
  | ifElse test holds fails =>
    rw [Closed.words] at hs h
    rw [Closed.tree]
    simp only [List.length_cons, List.length_append, length_parens] at h
    have hfails := hg.closed fails (by omega)
    refine peek_seq hs fun t hkind => ?_
    rw [hkind]
    exact (hg.ifElse (by rw [length_parens]; omega) (by omega) hfails _ _ _ trivial hs).map
  | returnNothing =>
    rw [Closed.words] at hs
    rw [Closed.tree]
    refine peek_seq hs fun t hkind => ?_
    rw [hkind]
    exact (returnNothing _ _ _ trivial hs).map
  | returnValue value =>
    rw [Closed.words] at hs h
    rw [Closed.tree]
    simp only [List.length_cons, List.length_append, length_parens] at h
    refine peek_seq hs fun t hkind => ?_
    rw [hkind]
    exact (hg.returnValue (by omega) _ _ _ trivial hs).map
  | empty =>
    rw [Closed.words] at hs
    rw [Closed.tree]
    refine peek_seq hs fun t hkind => ?_
    rw [hkind]
    refine (consume_yields hs).seq ?_
    rintro t s' _ ⟨-, hs', rfl⟩
    exact (leaf_plants hs').seq fun _ _ _ hn => done hn
  | expression e =>
    rw [Closed.words] at hs h
    rw [Closed.tree]
    rw [List.append_assoc] at hs
    simp only [List.length_append, length_parens] at h
    have hends : EndsAssignment .semicolon := .of_mem (by decide)
    refine peek_seq hs fun t hkind => ?_
    rw [hkind]
    refine (hg.assignmentRule_parens (by omega) _ _ (fixed .semicolon :: rest) hends hs).seq ?_
    rintro n s' mid ⟨hs', hn⟩
    refine (accept_yields hs' rfl).seq ?_
    rintro _ s' _ ⟨-, hs', rfl⟩
    exact (node_plants hs' (.cons hn .nil)).seq fun _ _ _ hm => done hm

theorem statementRule (hg : g.Reads depth) (st : Statement) (h : st.words.length ≤ depth + 1) :
    Plants g.statementRule (· ≠ .elseWord) st.words st.tree := by
  cases st with
  | closed st =>
    rw [Statement.words] at h ⊢
    rw [Statement.tree]
    exact fun s arena rest _ hs => hg.closedStatement st h s arena rest trivial hs
  | ifThen test holds =>
    rw [Statement.words] at h ⊢
    rw [Statement.tree]
    simp only [List.length_cons, List.length_append, length_parens] at h
    refine statementRule_of fun s arena rest hends hs => peek_seq hs fun t hkind => ?_
    rw [hkind]
    exact (hg.ifThen (by rw [length_parens]; omega) (by omega) _ _ _ hends hs).map
  | ifElse test holds fails =>
    rw [Statement.words] at h ⊢
    rw [Statement.tree]
    simp only [List.length_cons, List.length_append, length_parens] at h
    have hfails := hg.statement fails (by omega)
    refine statementRule_of fun s arena rest hends hs => peek_seq hs fun t hkind => ?_
    rw [hkind]
    exact (hg.ifElse (by rw [length_parens]; omega) (by omega) hfails _ _ _ hends hs).map

theorem next (hg : g.Reads depth) : g.next.Reads (depth + 1) := by
  have hparens {e : Expression} (h : (parens e.words).length ≤ depth + 1) : e.words.length ≤ depth := by
    rw [length_parens] at h
    omega
  exact ⟨hg.statementRule, hg.closedStatement, hg.assignmentRule, fun _ h => hg.assignmentRule_parens (hparens h),
    fun least _ h => hg.binaryRule_parens (hparens h) least, fun _ h => hg.unaryRule_parens (hparens h)⟩

end Reads

theorem expression_begins (e : Expression) : ∃ w ws, e.words = w :: ws := by
  refine List.exists_cons_of_ne_nil ?_
  cases e with
  | target t => cases t <;> simp [Expression.words, Target.words, parens]
  | function f =>
    obtain ⟨ws, hws⟩ := function_begins f
    simp [Expression.words, hws]
  | _ => simp [Expression.words, parens]

theorem within_reads : ∀ depth : Nat, (within depth).Reads depth
  | 0 => by
    have hparens {e : Expression} (h : (parens e.words).length ≤ 0) : False := by
      rw [length_parens] at h
      omega
    refine ⟨fun st h => ?_, fun st h => ?_, fun e h => ?_, fun e h => (hparens h).elim,
      fun _ e h => (hparens h).elim, fun e h => (hparens h).elim⟩
    · obtain ⟨w, ws, hws, -⟩ := statement_begins st
      rw [hws] at h
      exact absurd h (Nat.not_succ_le_zero _)
    · obtain ⟨w, ws, hws, -⟩ := closed_begins st
      rw [hws] at h
      exact absurd h (Nat.not_succ_le_zero _)
    · obtain ⟨w, ws, hws⟩ := expression_begins e
      rw [hws] at h
      exact absurd h (Nat.not_succ_le_zero _)
  | depth + 1 => (within_reads depth).next

end Grammar

/-- Statements up to the end of the text. -/
theorem script_loops {item : ScriptReader NodeId} {parts : List (List Lexeme)} {ts : List Tree}
    (items : List.Forall₂ (Item item Grammar.BeginsStatement (· ≠ .elseWord)) parts ts) :
    Loops (do if (← peek).kind = .eof then return .stop else return .more (← item)) parts.flatten ts [] := by
  induction items with
  | nil =>
    refine .stop fun s arena hs => peek_seq hs fun t hkind => ?_
    have hkind : t.kind = .eof := hkind
    rw [if_pos hkind]
    exact done ⟨rfl, hs, rfl⟩
  | @cons part t parts ts hitem items ih =>
    obtain ⟨⟨v, vs, rfl, hv⟩, hplants⟩ := hitem
    have hends : nextKind parts.flatten ≠ .elseWord := by
      cases items with
      | nil => exact (by decide : TokenKind.eof ≠ .elseWord)
      | cons hitem _ =>
        obtain ⟨v', vs', rfl, hv'⟩ := hitem.first
        exact hv'.ne.1
    refine .more (fun s arena hs => (peek_yields hs).seq ?_) ?_ ih
    · rintro t _ _ ⟨⟨hkind, -⟩, rfl, rfl⟩
      have hne : t.kind ≠ .eof := fun h => hv.ne.2.2 (hkind.symm.trans h)
      rw [if_neg hne]
      refine (hplants _ _ _ hends hs).seq ?_
      rintro n s' after ⟨hs', hn⟩
      exact done ⟨n, rfl, hs', hn⟩
    · simp only [List.flatten_cons, List.length_append, List.length_cons]
      omega

theorem script_plants (module : Option ModuleId) {body : List Statement} (hs : s.stream.Shows (statementWords body)) :
    Yields (script module) s arena fun n _ after => Planted arena (tree module body) n after := by
  have hg := Grammar.within_reads ((statementWords body).length + 1)
  obtain ⟨parts, hparts, hitems⟩ := hg.statements (Nat.le_succ _)
  have hloops := script_loops hitems
  rw [← hparts] at hloops
  refine (turns_yields hs).seqSame ?_
  refine (turns_yields hs).seqSame ?_
  refine (collect_yields hloops _ _ _ (Nat.lt_succ_self _) hs).seq ?_
  rintro ns s' mid ⟨hs', hns⟩
  refine peek_seq hs' fun last _ => ?_
  exact (made_plants hs' hns _).weaken fun _ _ _ h => h.2

end ScriptIndex.ScriptReader
