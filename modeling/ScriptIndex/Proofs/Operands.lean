import ScriptIndex.Proofs.Respacing
import ScriptIndex.Proofs.RoundTrip
import ScriptIndex.Proofs.SameTokens
import ScriptIndex.Proofs.ScriptContinued

/-! # Expressions as operands

An operand is a list of lexemes that alone in a text is an expression as a whole: every expression as it is
written (`Expression.operand`), and every text that is accepted as one (`exists_operand`). What it is read as there
it is read as in parentheses, wherever they stand (`Operand.plants`). -/

namespace ScriptIndex

namespace Relocation

/-- After the nodes of the given arena, and at any positions. -/
def into (base : Arena) : Relocation where
  base := base
  near _ _ := True
  near_add _ _ := trivial
  near_max _ _ := trivial

variable {m : Relocation} {base left right : Arena}

theorem into_empty (base : Arena) : (into base).Arenas .empty base :=
  ⟨rfl, fun _ _ => rfl, fun _ _ h => by cases h⟩

/-- Tokens that show one lexeme differ in their positions only. -/
theorem into_tokens {t t' : Token} {w : Lexeme} (h : t.Shows w) (h' : t'.Shows w) : (into base).Tokens t t' := by
  refine ⟨h'.kind.trans h.kind.symm, ⟨trivial, trivial⟩, h'.bytes.trans h.bytes.symm, ?_⟩
  rw [h.doc, h'.doc]
  exact .none

theorem into_forall₂ {l l' : List Token} {ws : List Lexeme} (h : List.Forall₂ Token.Shows l ws)
    (h' : List.Forall₂ Token.Shows l' ws) : List.Forall₂ (into base).Tokens l l' := by
  induction h generalizing l' with
  | nil =>
    cases h'
    exact .nil
  | cons ht _ ih =>
    cases h' with
    | cons ht' h' => exact .cons (into_tokens ht ht') (ih h')

mutual

/-- Related arenas hold the same tree at related nodes. -/
theorem Arenas.tree_eq (h : m.Arenas left right) : ∀ {t t' : Tree} {parent parent' : Option NodeId} {n : NodeId},
    left.Holds t parent n → right.Holds t' parent' (m.node n) → t' = t
  | .node kind ts, .node kind' ts', _, _, n, ⟨span, children, hn, _, hall⟩, ⟨span', children', hn', _, hall'⟩ => by
    obtain ⟨y, hy, hxy⟩ := h.new n _ hn
    cases hn'.symm.trans hy
    have hchildren : children' = children.map m.node := hxy.children
    have hkind : kind' = kind := hxy.kind
    rw [hchildren] at hall'
    rw [hkind, h.trees_eq hall hall']

theorem Arenas.trees_eq (h : m.Arenas left right) : ∀ {ts ts' : List Tree} {parent parent' : NodeId}
    {ns : List NodeId}, left.HoldsAll ts parent ns → right.HoldsAll ts' parent' (ns.map m.node) → ts' = ts
  | [], [], _, _, _, _, _ => rfl
  | [], _ :: _, _, _, [], _, h' => h'.elim
  | _ :: _, [], _, _, _ :: _, _, h' => h'.elim
  | _ :: _, _ :: _, _, _, _ :: _, ⟨ht, hts⟩, ⟨ht', hts'⟩ => by
    rw [h.tree_eq ht ht', h.trees_eq hts hts']

end

end Relocation

theorem Stream.Shows.bare {s : Input} {ws : List Lexeme} (h : s.stream.Shows ws) : s.Bare := by
  obtain ⟨htokens, hlast⟩ := h
  refine ⟨?_, hlast⟩
  generalize s.stream.tokens = tokens at htokens
  induction htokens with
  | nil => exact List.forall_mem_nil _
  | cons ht _ ih => exact List.forall_mem_cons.2 ⟨ht.doc, ih⟩

theorem Stream.Shows.reads {stream : Stream} {ws : List Lexeme} (h : stream.Shows ws)
    (hreads : ∀ t ∈ stream.tokens, t.lexeme.Reads) : Phrase.AllRead ws := by
  obtain ⟨htokens, -⟩ := h
  generalize stream.tokens = tokens at htokens hreads
  induction htokens with
  | nil => exact Phrase.allRead_nil
  | @cons t w _ _ ht _ ih =>
    obtain ⟨hfirst, hrest⟩ := List.forall_mem_cons.1 hreads
    have hlexeme : t.lexeme = w := by
      rw [Token.lexeme, ht.kind, ht.bytes]
    exact Phrase.allRead_cons.2 ⟨hlexeme ▸ hfirst, ih hrest⟩

namespace ScriptReader
open Reader Phrase

/-- An expression up to the end of the text. -/
theorem expression_plants {s : Input} {ws : List Lexeme} {t : Tree} (hs : s.stream.Shows ws) (arena : Arena)
    (h : Plants (Grammar.within (ws.length + 1)).assignment EndsAssignment ws t) :
    Yields expression s arena fun n s' after => s'.stream.tokens = [] ∧ Planted arena t n after := by
  have hends : EndsAssignment .eof := ⟨⟨by decide, fun _ _ h => by cases h⟩, by decide⟩
  rw [← List.append_nil ws] at hs
  refine (turns_yields hs).seqSame ?_
  rw [List.append_nil]
  refine (h s arena [] hends hs).weaken ?_
  rintro n s' after ⟨hs', hn⟩
  exact ⟨List.forall₂_nil_right_iff.1 hs'.tokens, hn⟩

/-- What an expression is read as does not depend on what would come after the text. -/
theorem expression_sprouts {s s' : Input} {ws : List Lexeme} {arena after : Arena} {n : NodeId} (hs : s.stream.Shows ws)
    (hrun : expression s arena = .ok (n, s') after) : Sprouts arena n after := by
  obtain ⟨t, -⟩ := hs.last
  let close : Token := { t with kind := .parenClose }
  have hcloses : (Stream.mk [close] s.stream.last).Closes := ⟨close, [], rfl, rfl⟩
  have hlevels := Nat.le_refl (s.stream.tokens.length + 1)
  exact ((Grammar.within_continues hcloses hlevels).assignment arena s n s' after hs.bare hrun).2

/-- An expression that was read up to the end of its tokens is read from them elsewhere. -/
theorem expression_moved {s s' s₁ : Input} {arena left : Arena} {n : NodeId}
    (h : (Relocation.into arena).Inputs s s') (hrun : expression s .empty = .ok (n, s₁) left)
    (hall : s₁.stream.tokens = []) : ∃ s₁' right, expression s' arena = .ok (arena.size + n, s₁') right ∧
      s₁'.stream.tokens = [] ∧ (Relocation.into arena).Arenas left right := by
  have hmoved := expression_moves (Relocation.into arena) 0 s s' h .empty arena (Relocation.into_empty arena)
    (Nat.zero_le _)
  rw [hrun] at hmoved
  generalize expression s' arena = r at hmoved
  cases hmoved with
  | @ok _ r _ right harenas _ hresults =>
    obtain ⟨n', s₁'⟩ := r
    obtain ⟨⟨-, hn⟩, hinputs⟩ := hresults
    have hn' : n' = arena.size + n := hn
    rw [hn']
    exact ⟨s₁', right, rfl, List.forall₂_nil_left_iff.1 (hall ▸ hinputs.stream.tokens), harenas⟩

end ScriptReader

namespace Phrase
open ScriptReader

/-- The lexemes with spaces between them. -/
def spaced (ws : List Lexeme) : List UInt8 := (ascii " ").intercalate (ws.map Lexeme.bytes)

theorem spaced_shows {ws : List Lexeme} (h : AllRead ws) : (Stream.ofBytes (spaced ws)).Shows ws := by
  have hwritten : Written ws ([] ++ spaced ws) := written_spaced [] (by simp) h
  exact hwritten.stream _ rfl

/-- Lexemes that alone in a text are accepted as an expression, all of them, and the tree that it is read as. -/
structure Operand where
  words : List Lexeme
  tree : Tree
  reads : AllRead words
  accepted : ∃ n s after, expression (.ofStream (.ofBytes (spaced words))) .empty = .ok (n, s) after ∧
    s.stream.tokens = [] ∧ after.Holds tree none n

/-- An expression as it is written. -/
def Expression.operand (e : Expression) : Operand where
  words := e.words
  tree := e.tree
  reads := expression_reads e
  accepted := by
    have hplants := (Grammar.within_reads (e.words.length + 1)).expression e (Nat.le_succ _)
    have hshows := spaced_shows (expression_reads e)
    obtain ⟨n, s, after, hrun, hall, hn⟩ := expression_plants (s := .ofStream _) hshows .empty hplants
    exact ⟨n, s, after, hrun, hall, hn.holds_none⟩

/-- Whatever its blanks, a text of which all tokens are accepted as an expression is an operand. -/
theorem exists_operand {source : List UInt8} {ws : List Lexeme} (hshows : (Stream.ofBytes source).Shows ws)
    {n : NodeId} {s : Input} {after : Arena}
    (hrun : expression (.ofStream (.ofBytes source)) .empty = .ok (n, s) after) (hall : s.stream.tokens = []) :
    ∃ u : Operand, u.words = ws ∧ after.Holds u.tree none n := by
  have hreads : AllRead ws := hshows.reads (Cursor.ofBytes source).stream_reads
  have hspaced := spaced_shows hreads
  have hends : (Relocation.into .empty).Ends (Stream.ofBytes source).last (Stream.ofBytes (spaced ws)).last := by
    obtain ⟨t, ht, hkind, hdoc⟩ := hshows.last
    obtain ⟨t', ht', hkind', hdoc'⟩ := hspaced.last
    have hbytes := (Cursor.ofBytes source).stream_last
    have hbytes' := (Cursor.ofBytes (spaced ws)).stream_last
    rw [show (Cursor.ofBytes source).stream.last = .ok t from ht] at hbytes
    rw [show (Cursor.ofBytes (spaced ws)).stream.last = .ok t' from ht'] at hbytes'
    rw [ht, ht']
    exact .ok (Relocation.into_tokens (w := ⟨.eof, []⟩) ⟨hkind, hbytes, hdoc⟩ ⟨hkind', hbytes', hdoc'⟩)
  have hinputs : (Relocation.into .empty).Inputs (.ofStream (.ofBytes source)) (.ofStream (.ofBytes (spaced ws))) :=
    ⟨⟨Relocation.into_forall₂ hshows.tokens hspaced.tokens, hends⟩, trivial⟩
  obtain ⟨tree, htree⟩ := expression_sprouts (s := .ofStream _) hshows hrun
  obtain ⟨s', right, hright, hall', harenas⟩ := expression_moved hinputs hrun hall
  obtain ⟨tree', htree'⟩ := expression_sprouts (s := .ofStream _) hspaced hright
  have hsame : tree' = tree := harenas.tree_eq htree.holds_none htree'.holds_none
  exact ⟨⟨ws, tree, hreads, _, s', right, hright, hall', hsame ▸ htree'.holds_none⟩, rfl, htree.holds_none⟩

/-- Before a parenthesis that closes it, an operand is read as alone, at a level for each of its lexemes. -/
theorem Operand.plants (u : Operand) {depth : Nat} (h : u.words.length < depth) :
    Plants (Grammar.within depth).assignment (· = .parenClose) u.words u.tree := by
  intro s arena rest hrest hs
  obtain ⟨n, s₀, left, hrun, hall, hholds⟩ := u.accepted
  obtain ⟨halone, t, hlast, hkind, hdoc⟩ := spaced_shows u.reads
  obtain ⟨⟨tokens, last⟩, lastEnd⟩ := s
  obtain ⟨htokens, hend⟩ := hs
  have htake := List.forall₂_take_append _ _ _ htokens
  have hdrop := List.forall₂_drop_append _ _ _ htokens
  have hsplit := List.take_append_drop u.words.length tokens
  generalize tokens.take u.words.length = own at htake hsplit
  generalize tokens.drop u.words.length = others at hdrop hsplit
  subst hsplit
  -- the tokens of the operand, as if the text ended after them
  have hinputs : (Relocation.into arena).Inputs (.ofStream (.ofBytes (spaced u.words))) ⟨⟨own, .ok t⟩, lastEnd⟩ := by
    refine ⟨⟨Relocation.into_forall₂ halone htake, ?_⟩, trivial⟩
    show (Relocation.into arena).Ends (Stream.ofBytes (spaced u.words)).last (.ok t)
    rw [hlast]
    exact .ok (Relocation.into_tokens (w := ⟨t.kind, t.bytes⟩) ⟨rfl, rfl, hdoc⟩ ⟨rfl, rfl, hdoc⟩)
  obtain ⟨s₁, right, hright, hnil, harenas⟩ := expression_moved hinputs hrun hall
  have hbare : (⟨⟨own, .ok t⟩, lastEnd⟩ : Input).Bare := Stream.Shows.bare ⟨htake, t, rfl, hkind, hdoc⟩
  have hcloses : (Stream.mk others last).Closes := by
    cases hdrop with
    | nil => cases hrest
    | cons hw _ => exact ⟨_, _, rfl, hw.kind.trans hrest⟩
  have hlevels : own.length + 1 ≤ depth := by
    rw [htake.length_eq]
    exact h
  obtain ⟨⟨-, -, hmore⟩, tree, hplanted⟩ :=
    (Grammar.within_continues hcloses hlevels).assignment arena _ _ _ _ hbare hright
  obtain rfl : tree = u.tree := harenas.tree_eq hholds hplanted.holds_none
  refine ⟨_, _, right, hmore (Nat.zero_le _), ⟨?_, hend⟩, hplanted⟩
  show List.Forall₂ Token.Shows (s₁.stream.tokens ++ others) rest
  rw [hnil]
  exact hdrop

end Phrase

end ScriptIndex
