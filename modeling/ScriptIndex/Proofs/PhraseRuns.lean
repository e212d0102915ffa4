import ScriptIndex.Proofs.Yields

/-! # Reading phrases

Each rule of the grammar reads its construct as it is written and plants the tree that the construct stands
for. A rule of a deeper level is called on a part of what its caller reads, so it is enough that the levels
are as many as the lexemes. -/

namespace ScriptIndex

namespace Phrase

variable {t : Token}

theorem text_of_shows {kind : TokenKind} {text : String} (h : t.Shows ⟨kind, Utf8.encode text⟩) : t.text = text := by
  rw [Token.text, h.bytes, Utf8.decode_encode]

theorem Word.isPropertyName {x : Word} (h : t.Shows x.lexeme) : ScriptReader.isPropertyName t = true := by
  have hkind : t.kind = wordKind (Utf8.encode x.text) := h.kind
  have hkeyword : ∀ entry ∈ TokenKind.keywords, entry.2.isKeyword = true := by decide
  rw [ScriptReader.isPropertyName, hkind]
  rcases wordKind_cases (Utf8.encode x.text) with hw | ⟨entry, hmem, hw⟩ <;> rw [hw]
  · rfl
  · rw [hkeyword entry hmem, Bool.or_true]

theorem Literal.stringText {x : Literal} (h : t.Shows x.lexeme) : ScriptReader.stringText t = x.text := by
  have hbytes : t.bytes = Byte.doubleQuote :: (Utf8.encode x.text ++ [Byte.doubleQuote]) := h.bytes
  have hplain : '\\' ∉ x.text.toList := fun hmem => (x.plain _ hmem).2.1 rfl
  rw [ScriptReader.stringText, hbytes, List.drop_one, List.tail_cons, List.dropLast_concat, Utf8.decode_encode,
    Escape.decode_plain hplain, String.ofList_toList]

theorem digit_isDigit : ∀ d : Fin 10, Byte.isDigit (digit d) = true := by decide

theorem digit_toNat : ∀ d : Fin 10, (digit d).toNat - '0'.toNat = d := by decide

theorem valueOf_digits (ds : List (Fin 10)) :
    Numeral.valueOf (ds.map digit) = ds.foldl (fun n d => n * 10 + d.val) 0 := by
  rw [Numeral.valueOf, List.foldl_map]
  simp only [digit_toNat]

theorem all_isDigit (ds : List (Fin 10)) : ∀ b ∈ ds.map digit, Byte.isDigit b = true := by
  intro b hb
  obtain ⟨d, -, rfl⟩ := List.mem_map.1 hb
  exact digit_isDigit d

/-- The digits denote the number that they are read as. -/
theorem Digits.ofBytes? (x : Digits) : Numeral.ofBytes? x.lexeme.bytes = some x.numeral := by
  obtain ⟨whole, hne, fraction⟩ := x
  have hwhole : whole.map digit ≠ [] := by simpa using hne
  obtain ⟨b, bs, hbs⟩ := List.exists_cons_of_ne_nil hwhole
  cases fraction with
  | none =>
    have htake : (whole.map digit).takeWhile Byte.isDigit = b :: bs := by
      rw [← List.append_nil (whole.map digit), List.takeWhile_append_of_pos (all_isDigit whole), hbs]
      exact List.append_nil _
    have hdrop : (whole.map digit).dropWhile Byte.isDigit = [] := by
      rw [← List.append_nil (whole.map digit), List.dropWhile_append_of_pos (all_isDigit whole)]
      rfl
    simp only [Digits.lexeme, Option.map_none, numberBytes, Numeral.ofBytes?, htake, hdrop]
    rw [← hbs, valueOf_digits]
    simp [Digits.numeral]
  | some ds =>
    have htake : (whole.map digit ++ 0x2E :: ds.map digit).takeWhile Byte.isDigit = b :: bs := by
      rw [List.takeWhile_append_of_pos (all_isDigit whole), hbs]
      exact List.append_nil _
    have hdrop : (whole.map digit ++ 0x2E :: ds.map digit).dropWhile Byte.isDigit = 0x2E :: ds.map digit := by
      rw [List.dropWhile_append_of_pos (all_isDigit whole)]
      rfl
    have hall : (ds.map digit).all Byte.isDigit = true := List.all_eq_true.2 (all_isDigit ds)
    have hmark : (0x2E == '.'.toUInt8) = true := rfl
    simp only [Digits.lexeme, Option.map_some, numberBytes, Numeral.ofBytes?, htake, hdrop, hall, hmark]
    rw [← hbs, ← List.map_append, valueOf_digits]
    simp [Digits.numeral]

end Phrase

namespace ScriptReader
open Reader Reader.Yields Phrase Lexeme

variable {s : Input} {arena mid : Arena} {ws rest : List Lexeme}

/-! ## Atoms -/

/-- A token that is read as an expression on its own. -/
structure IsAtom (w : Lexeme) (kind : Kind) : Prop where
  first : w.kind ∉ [.functionWord, .parenOpen, .braceOpen, .bracketOpen]
  atomKind {t : Token} (h : t.Shows w) : atomKind t = pure kind

theorem isAtom_name (x : Identifier) : IsAtom x.lexeme (.name x.text) := by
  refine ⟨(by decide : TokenKind.identifier ∉ _), fun h => ?_⟩
  have hkind : _ = TokenKind.identifier := h.kind
  simp only [ScriptReader.atomKind, hkind, text_of_shows h]

theorem isAtom_number (x : Digits) : IsAtom x.lexeme (.number x.numeral.toBinary64) := by
  refine ⟨(by decide : TokenKind.numberLiteral ∉ _), fun h => ?_⟩
  have hkind : _ = TokenKind.numberLiteral := h.kind
  simp only [ScriptReader.atomKind, hkind, h.bytes, x.ofBytes?]

theorem isAtom_quoted {w : Lexeme} {text : String} (hkind : w.kind = .stringLiteral)
    (h : ∀ t : Token, t.Shows w → stringText t = text) : IsAtom w (.string text) := by
  refine ⟨by rw [hkind]; decide, fun {t} ht => ?_⟩
  have hkind : t.kind = TokenKind.stringLiteral := ht.kind.trans hkind
  simp only [ScriptReader.atomKind, hkind, h t ht]

theorem isAtom_string (x : Literal) : IsAtom x.lexeme (.string x.text) :=
  isAtom_quoted rfl fun _ => x.stringText

theorem isAtom_fixed : IsAtom (fixed .trueLiteral) .trueValue ∧ IsAtom (fixed .falseLiteral) .falseValue ∧
    IsAtom (fixed .nullLiteral) .nullValue ∧ IsAtom (fixed .thisWord) .thisValue := by
  refine ⟨?_, ?_, ?_, ?_⟩ <;> refine ⟨by decide, fun h => ?_⟩ <;>
  · have hkind := h.kind
    simp only [ScriptReader.atomKind, hkind, fixed]

theorem name_plants (x : Identifier) : Plants name (fun _ => True) [x.lexeme] x.tree := by
  intro s arena rest _ hs
  refine (require_yields hs rfl).seq ?_
  rintro t s' _ ⟨ht, hs', rfl⟩
  rw [text_of_shows ht]
  exact leaf_plants hs'

/-! ## Expressions -/

/-- The kinds before which an expression with all its suffixes is complete. -/
def EndsChain (kind : TokenKind) : Prop := kind ∉ [.dot, .bracketOpen, .parenOpen]

instance (kind : TokenKind) : Decidable (EndsChain kind) :=
  inferInstanceAs (Decidable (kind ∉ _))

/-- Those before which also its operators of at least some precedence are complete. -/
structure EndsOperation (least : Nat) (kind : TokenKind) : Prop where
  chain : EndsChain kind
  operator : ∀ op precedence, kind.binaryOp? = some (op, precedence) → precedence < least

structure EndsAssignment (kind : TokenKind) : Prop where
  operation : EndsOperation 1 kind
  sign : kind ≠ .equals

theorem EndsOperation.mono {least more : Nat} {kind : TokenKind} (h : EndsOperation least kind)
    (hle : least ≤ more) : EndsOperation more kind :=
  ⟨h.chain, fun op precedence hop => Nat.lt_of_lt_of_le (h.operator op precedence hop) hle⟩

theorem EndsAssignment.of_mem {kind : TokenKind}
    (h : kind ∈ [.comma, .semicolon, .parenClose, .bracketClose, .braceClose]) : EndsAssignment kind := by
  have hchain : ∀ kind ∈ [TokenKind.comma, .semicolon, .parenClose, .bracketClose, .braceClose],
      kind ∉ [.dot, .bracketOpen, .parenOpen] ∧ kind.binaryOp? = none ∧ kind ≠ .equals := by decide
  obtain ⟨hends, hop, hne⟩ := hchain kind h
  exact ⟨⟨hends, fun _ _ h => by cases hop.symm.trans h⟩, hne⟩

namespace Grammar

/-- The rules read what has at most `depth` lexemes. -/
structure Reads (g : Grammar) (depth : Nat) : Prop where
  statement (st : Statement) (h : st.words.length ≤ depth) :
    Plants g.statement (· ≠ .elseWord) st.words st.tree
  closed (st : Closed) (h : st.words.length ≤ depth) : Plants g.statement (fun _ => True) st.words st.tree
  expression (e : Expression) (h : e.words.length ≤ depth) : Plants g.assignment EndsAssignment e.words e.tree
  operand (e : Expression) (h : (parens e.words).length ≤ depth) :
    Plants g.assignment EndsAssignment (parens e.words) e.tree
  binary (least : Nat) (e : Expression) (h : (parens e.words).length ≤ depth) :
    Plants (g.binary least) (EndsOperation least) (parens e.words) e.tree
  unary (e : Expression) (h : (parens e.words).length ≤ depth) :
    Plants g.unary EndsChain (parens e.words) e.tree

variable {g : Grammar} {depth : Nat} {t t' : Tree}

theorem primary_of_atom {w : Lexeme} {kind : Kind} (h : IsAtom w kind) :
    Plants g.primary (fun _ => True) [w] (.node kind []) := by
  intro s arena rest _ hs
  have hatom : Yields atom s arena fun n s' after =>
      s'.stream.Shows rest ∧ Planted arena (.node kind []) n after := by
    refine (peek_yields hs).seq ?_
    rintro t _ _ ⟨⟨-, -, ht⟩, rfl, rfl⟩
    rw [h.atomKind (ht w rfl), pure_bind]
    refine (consume_yields hs).seq ?_
    rintro t s' _ ⟨-, hs', rfl⟩
    exact leaf_plants hs'
  refine peek_seq hs fun t hkind => ?_
  have hfirst : t.kind ∉ [.functionWord, .parenOpen, .braceOpen, .bracketOpen] := hkind ▸ h.first
  split
  case h_5 => exact hatom
  all_goals
    rename_i hk
    exact absurd hk fun hk => hfirst (by simp [hk])

theorem suffix_none {start : Token} {n : NodeId} (hs : s.stream.Shows rest) (h : EndsChain (nextKind rest)) :
    Yields (g.suffix start n) s arena fun r s' after => r = none ∧ s' = s ∧ after = arena := by
  refine peek_seq hs fun t hkind => ?_
  have h : t.kind ∉ [.dot, .bracketOpen, .parenOpen] := hkind ▸ h
  split
  case h_4 => exact done ⟨rfl, rfl, rfl⟩
  all_goals
    rename_i hk
    exact absurd hk fun hk => h (by simp [hk])

/-- An expression without suffixes. -/
theorem chain_of_primary (h : Plants g.primary (fun _ => True) ws t) : Plants g.chain EndsChain ws t := by
  intro s arena rest hends hs
  refine peek_seq hs fun start _ => ?_
  refine (h _ _ _ trivial hs).seq ?_
  rintro n s' mid ⟨hs', hn⟩
  refine (turns_yields hs').seqSame ?_
  refine (extend_stop (Nat.succ_pos _) (suffix_none hs' hends)).weaken ?_
  rintro _ _ _ ⟨rfl, rfl, rfl⟩
  exact ⟨hs', hn⟩

/-- The suffix `more` makes of a receiver that was planted the tree `t'`. -/
def Suffixes (g : Grammar) (t : Tree) (more : List Lexeme) (t' : Tree) : Prop :=
  ∀ (start : Token) (s : Input) (arena mid : Arena) (n : NodeId) (rest : List Lexeme), Planted arena t n mid →
    s.stream.Shows (more ++ rest) → Yields (g.suffix start n) s mid fun r s' after =>
      ∃ m, r = some m ∧ s'.stream.Shows rest ∧ Planted arena t' m after

/-- An expression with one suffix. -/
theorem chain_of_suffix {w : Lexeme} {more : List Lexeme} (h : Plants g.primary (fun _ => True) ws t)
    (hsuffix : g.Suffixes t (w :: more) t') : Plants g.chain EndsChain (ws ++ w :: more) t' := by
  intro s arena rest hends hs
  rw [List.append_assoc] at hs
  refine peek_seq hs fun start _ => ?_
  refine (h _ _ _ trivial hs).seq ?_
  rintro n s' mid ⟨hs', hn⟩
  refine (turns_yields hs').seqSame ?_
  refine extend_once (by simp) (hsuffix start _ _ _ _ _ hn hs') ?_
  rintro m s'' after ⟨hs'', -⟩
  exact suffix_none hs'' hends

theorem unaryRule_of_chain (h : Plants g.chain EndsChain ws t)
    (hfirst : ∃ w ws', ws = w :: ws' ∧ w.kind.unaryOp? = none) : Plants g.unaryRule EndsChain ws t := by
  intro s arena rest hends hs
  obtain ⟨w, ws', rfl, hw⟩ := hfirst
  refine peek_seq hs fun t hkind => ?_
  have hop : t.kind.unaryOp? = none := hkind ▸ hw
  rw [hop]
  exact h _ _ _ hends hs

theorem operation_none {least : Nat} {start : Token} {n : NodeId} (hs : s.stream.Shows rest)
    (h : EndsOperation least (nextKind rest)) :
    Yields (g.operation least start n) s arena fun r s' after => r = none ∧ s' = s ∧ after = arena := by
  refine peek_seq hs fun t hkind => ?_
  rw [hkind]
  split
  · exact done ⟨rfl, rfl, rfl⟩
  · next op precedence hop =>
    rw [if_pos (h.operator op precedence hop)]
    exact done ⟨rfl, rfl, rfl⟩

theorem endsChain_binarySign (op : BinaryOp) : EndsChain (binarySign op) := by
  cases op <;> decide

/-- An operator and its right operand, after the left one was planted. -/
theorem operation_plants {least precedence : Nat} {op : BinaryOp} {start : Token} {n : NodeId}
    (hop : (binarySign op).binaryOp? = some (op, precedence)) (hle : least ≤ precedence)
    (hright : Plants (g.binary (precedence + 1)) (EndsOperation (precedence + 1)) ws t')
    (hends : EndsOperation (precedence + 1) (nextKind rest)) (hn : Planted arena t n mid)
    (hs : s.stream.Shows (fixed (binarySign op) :: (ws ++ rest))) :
    Yields (g.operation least start n) s mid fun r s' after =>
      ∃ m, r = some m ∧ s'.stream.Shows rest ∧ Planted arena (.node (.binary op) [t, t']) m after := by
  refine peek_seq hs fun u hkind => ?_
  have hop' : u.kind.binaryOp? = some (op, precedence) := by
    rw [hkind]
    exact hop
  rw [hop']
  dsimp only
  rw [if_neg (Nat.not_lt.2 hle)]
  refine (consume_yields hs).seq ?_
  rintro _ s' _ ⟨-, hs', rfl⟩
  refine (hright _ _ _ hends hs').seq ?_
  rintro k s' mid' ⟨hs', hk⟩
  exact (node_plants hs' (.cons hn (.cons hk .nil))).seq fun m _ _ hm => done ⟨m, rfl, hm⟩

theorem binaryRule_of_unaryRule (h : Plants g.unaryRule EndsChain ws t) (least : Nat) :
    Plants (g.binaryRule least) (EndsOperation least) ws t := by
  intro s arena rest hends hs
  refine peek_seq hs fun start _ => ?_
  refine (h _ _ _ hends.chain hs).seq ?_
  rintro n s' mid ⟨hs', hn⟩
  refine (turns_yields hs').seqSame ?_
  refine (extend_stop (Nat.succ_pos _) (operation_none hs' hends)).weaken ?_
  rintro _ _ _ ⟨rfl, rfl, rfl⟩
  exact ⟨hs', hn⟩

theorem assignmentRule_of_binaryRule (h : Plants (g.binaryRule 1) (EndsOperation 1) ws t) :
    Plants g.assignmentRule EndsAssignment ws t := by
  intro s arena rest hends hs
  refine peek_seq hs fun start _ => ?_
  refine (h _ _ _ hends.operation hs).seq ?_
  rintro n s' mid ⟨hs', hn⟩
  refine (accept_none hs' hends.sign).seqSame ?_
  exact done ⟨hs', hn⟩

/-- What the rules of binary operators and above do not change. -/
theorem assignmentRule_of_chain (h : Plants g.chain EndsChain ws t)
    (hfirst : ∃ w ws', ws = w :: ws' ∧ w.kind.unaryOp? = none) : Plants g.assignmentRule EndsAssignment ws t :=
  assignmentRule_of_binaryRule (binaryRule_of_unaryRule (unaryRule_of_chain h hfirst) 1)

/-- An expression in parentheses. -/
theorem parenthesized_of_assignment {ends : TokenKind → Prop} (h : Plants g.assignment ends ws t)
    (hclose : ends .parenClose) : Plants g.parenthesized (fun _ => True) (parens ws) t := by
  intro s arena rest _ hs
  rw [parens_append] at hs
  refine (require_yields hs rfl).seq ?_
  rintro _ s' _ ⟨-, hs', rfl⟩
  refine (h _ _ (fixed .parenClose :: rest) hclose hs').seq ?_
  rintro n s' mid ⟨hs', hn⟩
  refine (require_yields hs' rfl).seq ?_
  rintro _ s' _ ⟨-, hs', rfl⟩
  exact done ⟨hs', hn⟩

theorem primary_of_parenthesized (h : Plants g.parenthesized (fun _ => True) (parens ws) t) :
    Plants g.primary (fun _ => True) (parens ws) t := by
  intro s arena rest _ hs
  refine peek_seq hs fun t hkind => ?_
  rw [hkind]
  exact h _ _ _ trivial hs

theorem unaryRule_of_primary_parens (h : Plants g.primary (fun _ => True) (parens ws) t) :
    Plants g.unaryRule EndsChain (parens ws) t :=
  unaryRule_of_chain (chain_of_primary h) ⟨_, _, rfl, rfl⟩

/-- A key in quotes with its value. -/
theorem member_of_quoted {ends : TokenKind → Prop} {w : Lexeme} {key : String} (hkind : w.kind = .stringLiteral)
    (hkey : ∀ t : Token, t.Shows w → stringText t = key) (h : Plants g.assignment ends ws t) :
    Plants g.member ends (w :: fixed .colon :: ws) (.node (.key key) [t]) := by
  intro s arena rest hends hs
  refine (consume_yields hs).seq ?_
  rintro start s' _ ⟨hstart, hs', rfl⟩
  rw [keyText, if_pos (hstart.kind.trans hkind), hkey start hstart, pure_bind]
  refine (require_yields hs' rfl).seq ?_
  rintro _ s' _ ⟨-, hs', rfl⟩
  refine (h _ _ _ hends hs').seq ?_
  rintro n s' mid ⟨hs', hn⟩
  exact node_plants hs' (.cons hn .nil)

theorem primary_of_members {parts : List (List Lexeme)} {ts : List Tree}
    (h : List.Forall₂ (Item g.member (· = .stringLiteral) EndsAssignment) parts ts) :
    Plants g.primary (fun _ => True) (fixed .braceOpen :: (commas parts ++ [fixed .braceClose]))
      (.node .object ts) := by
  intro s arena rest _ hs
  rw [List.cons_append, List.append_assoc] at hs
  refine peek_seq hs fun t hkind => ?_
  rw [hkind]
  refine (require_yields hs rfl).seq ?_
  rintro start s' _ ⟨-, hs', rfl⟩
  have hbegins (kind : TokenKind) (h : kind = .stringLiteral) : kind ≠ .braceClose := by
    rw [h]
    decide
  refine (separatedUntil_yields hbegins (.of_mem (by decide)) (.of_mem (by decide)) (by decide) rfl h hs').seq ?_
  rintro ns s' mid ⟨hs', hns⟩
  exact node_plants hs' hns

namespace Reads

theorem primary_parens (hg : g.Reads depth) {e : Expression} (h : e.words.length ≤ depth) :
    Plants g.primary (fun _ => True) (parens e.words) e.tree :=
  primary_of_parenthesized (parenthesized_of_assignment (hg.expression e h) (.of_mem (by decide)))

theorem unaryRule_parens (hg : g.Reads depth) {e : Expression} (h : e.words.length ≤ depth) :
    Plants g.unaryRule EndsChain (parens e.words) e.tree :=
  unaryRule_of_primary_parens (hg.primary_parens h)

theorem binaryRule_parens (hg : g.Reads depth) {e : Expression} (h : e.words.length ≤ depth) (least : Nat) :
    Plants (g.binaryRule least) (EndsOperation least) (parens e.words) e.tree :=
  binaryRule_of_unaryRule (hg.unaryRule_parens h) least

theorem assignmentRule_parens (hg : g.Reads depth) {e : Expression} (h : e.words.length ≤ depth) :
    Plants g.assignmentRule EndsAssignment (parens e.words) e.tree :=
  assignmentRule_of_binaryRule (hg.binaryRule_parens h 1)

/-! ### Suffixes -/

theorem suffix_property (t : Tree) (x : Word) :
    g.Suffixes t [fixed .dot, x.lexeme] (.node (.property x.text) [t]) := by
  intro start s arena mid n rest hn hs
  refine peek_seq hs fun t hkind => ?_
  rw [hkind]
  refine (consume_yields hs).seq ?_
  rintro _ s' _ ⟨-, hs', rfl⟩
  refine (consume_yields hs').seq ?_
  rintro t s' _ ⟨ht, hs', rfl⟩
  rw [if_pos (Word.isPropertyName ht), text_of_shows ht]
  exact (node_plants hs' (.cons hn .nil)).seq fun m _ _ hm => done ⟨m, rfl, hm⟩

theorem suffix_element (hg : g.Reads depth) (t : Tree) {e : Expression} (h : (parens e.words).length ≤ depth) :
    g.Suffixes t (fixed .bracketOpen :: (parens e.words ++ [fixed .bracketClose])) (.node .element [t, e.tree]) := by
  intro start s arena mid n rest hn hs
  rw [List.cons_append, List.append_assoc] at hs
  refine peek_seq hs fun t hkind => ?_
  rw [hkind]
  refine (consume_yields hs).seq ?_
  rintro _ s' _ ⟨-, hs', rfl⟩
  have hends : EndsAssignment .bracketClose := .of_mem (by decide)
  refine (hg.operand e h _ _ (fixed .bracketClose :: rest) hends hs').seq ?_
  rintro i s' mid' ⟨hs', hi⟩
  refine (require_yields hs' rfl).seq ?_
  rintro _ s' _ ⟨-, hs', rfl⟩
  exact (node_plants hs' (.cons hn (.cons hi .nil))).seq fun m _ _ hm => done ⟨m, rfl, hm⟩

/-- Operands, as the parts of a list. -/
theorem operands (hg : g.Reads depth) : ∀ {es : List Expression}, (∀ part ∈ operands es, part.length ≤ depth) →
    List.Forall₂ (Item g.assignment (· = .parenOpen) EndsAssignment) (operands es) (expressionTrees es)
  | [], _ => by
    rw [Phrase.operands, expressionTrees]
    exact .nil
  | e :: es, h => by
    rw [Phrase.operands, List.forall_mem_cons] at h
    rw [Phrase.operands, expressionTrees]
    exact .cons ⟨⟨_, _, rfl, rfl⟩, hg.operand e h.1⟩ (hg.operands h.2)

theorem operandsUntil (hg : g.Reads depth) {close : TokenKind} (hclose : close = .parenClose ∨ close = .bracketClose)
    {es : List Expression} (h : (commas (Phrase.operands es)).length ≤ depth)
    (hs : s.stream.Shows (commas (Phrase.operands es) ++ fixed close :: rest)) :
    Yields (separatedUntil close g.assignment) s arena fun ns s' after =>
      s'.stream.Shows rest ∧ PlantedAll arena (expressionTrees es) ns after := by
  have hends : EndsAssignment close := .of_mem (by rcases hclose with rfl | rfl <;> decide)
  have hne : close ≠ .parenOpen ∧ close ≠ .comma := by rcases hclose with rfl | rfl <;> decide
  refine separatedUntil_yields ?_ (.of_mem (by decide)) hends hne.2 rfl
    (hg.operands fun part hpart => Nat.le_trans (length_le_commas hpart) h) hs
  rintro _ rfl
  exact hne.1.symm

theorem suffix_call (hg : g.Reads depth) (t : Tree) {es : List Expression}
    (h : (commas (Phrase.operands es)).length ≤ depth) :
    g.Suffixes t (fixed .parenOpen :: (commas (Phrase.operands es) ++ [fixed .parenClose]))
      (.node .call (t :: expressionTrees es)) := by
  intro start s arena mid n rest hn hs
  rw [List.cons_append, List.append_assoc] at hs
  refine peek_seq hs fun t hkind => ?_
  rw [hkind]
  refine (consume_yields hs).seq ?_
  rintro _ s' _ ⟨-, hs', rfl⟩
  refine (hg.operandsUntil (.inl rfl) h hs').seq ?_
  rintro ns s' mid' ⟨hs', hns⟩
  exact (node_plants hs' (.cons hn hns)).seq fun m _ _ hm => done ⟨m, rfl, hm⟩

/-! ### Arrays, objects and functions -/

theorem array (hg : g.Reads depth) {es : List Expression} (h : (commas (Phrase.operands es)).length ≤ depth) :
    Plants g.primary (fun _ => True) (fixed .bracketOpen :: (commas (Phrase.operands es) ++ [fixed .bracketClose]))
      (.node .array (expressionTrees es)) := by
  intro s arena rest _ hs
  rw [List.cons_append, List.append_assoc] at hs
  refine peek_seq hs fun t hkind => ?_
  rw [hkind]
  refine (require_yields hs rfl).seq ?_
  rintro start s' _ ⟨-, hs', rfl⟩
  refine (hg.operandsUntil (.inr rfl) h hs').seq ?_
  rintro ns s' mid ⟨hs', hns⟩
  exact node_plants hs' hns

theorem member (hg : g.Reads depth) {key : Literal} {value : Expression}
    (h : (parens value.words).length ≤ depth) :
    Plants g.member EndsAssignment (Member.mk key value).words (Member.mk key value).tree := by
  rw [Member.words, Member.tree]
  exact member_of_quoted rfl (fun _ => key.stringText) (hg.operand value h)

theorem members (hg : g.Reads depth) : ∀ {ms : List Member}, (∀ part ∈ memberParts ms, part.length ≤ depth) →
    List.Forall₂ (Item g.member (· = .stringLiteral) EndsAssignment) (memberParts ms) (memberTrees ms)
  | [], _ => by
    rw [memberParts, memberTrees]
    exact .nil
  | .mk key value :: ms, h => by
    rw [memberParts, List.forall_mem_cons] at h
    rw [memberParts, memberTrees]
    have hvalue : (parens value.words).length ≤ depth := by
      have hle := h.1
      simp only [Member.words, List.length_cons] at hle
      omega
    exact .cons ⟨⟨key.lexeme, _, Member.words.eq_1 key value, rfl⟩, hg.member hvalue⟩ (hg.members h.2)

theorem object (hg : g.Reads depth) {ms : List Member} (h : (commas (memberParts ms)).length ≤ depth) :
    Plants g.primary (fun _ => True) (fixed .braceOpen :: (commas (memberParts ms) ++ [fixed .braceClose]))
      (.node .object (memberTrees ms)) :=
  primary_of_members (hg.members fun _ hpart => Nat.le_trans (length_le_commas hpart) h)

end Reads

/-- The kinds that may begin a statement, and more. -/
def BeginsStatement (kind : TokenKind) : Prop := kind ∉ [.elseWord, .braceClose, .eof]

instance (kind : TokenKind) : Decidable (BeginsStatement kind) :=
  inferInstanceAs (Decidable (kind ∉ _))

theorem BeginsStatement.ne {kind : TokenKind} (h : BeginsStatement kind) :
    kind ≠ .elseWord ∧ kind ≠ .braceClose ∧ kind ≠ .eof := by
  simpa [BeginsStatement] using h

theorem function_begins (f : Function) : ∃ ws, f.words = fixed .functionWord :: ws := by
  obtain ⟨name, params, body⟩ := f
  exact ⟨_, Function.words.eq_1 name params body⟩

theorem closed_begins (st : Closed) : ∃ w ws, st.words = w :: ws ∧ BeginsStatement w.kind := by
  cases st with
  | declaration word first rest =>
    refine ⟨_, _, Closed.words.eq_2 word first rest, ?_⟩
    cases word <;> decide
  | function f =>
    obtain ⟨ws, hws⟩ := function_begins f
    exact ⟨_, ws, hws, by decide⟩
  | block body => exact ⟨_, _, Closed.words.eq_1 body, by decide⟩
  | ifElse test holds fails =>
    exact ⟨_, _, Closed.words.eq_4 test holds fails, by decide⟩
  | returnNothing => exact ⟨_, _, Closed.words.eq_5, by decide⟩
  | returnValue value => exact ⟨_, _, Closed.words.eq_6 value, by decide⟩
  | empty => exact ⟨_, _, Closed.words.eq_7, by decide⟩
  | expression e => exact ⟨_, _, Closed.words.eq_8 e, by decide⟩

theorem statement_begins (st : Statement) : ∃ w ws, st.words = w :: ws ∧ BeginsStatement w.kind := by
  cases st with
  | closed st =>
    rw [Statement.words]
    exact closed_begins st
  | ifThen test holds => exact ⟨_, _, Statement.words.eq_2 test holds, by decide⟩
  | ifElse test holds fails =>
    exact ⟨_, _, Statement.words.eq_3 test holds fails, by decide⟩

namespace Reads

/-- Statements, as the parts of a list. -/
theorem statements (hg : g.Reads depth) : ∀ {ss : List Statement}, (statementWords ss).length ≤ depth →
    ∃ parts, statementWords ss = parts.flatten ∧
      List.Forall₂ (Item g.statement BeginsStatement (· ≠ .elseWord)) parts (statementTrees ss)
  | [], _ => by
    rw [statementWords, statementTrees]
    exact ⟨[], rfl, .nil⟩
  | st :: ss, h => by
    rw [statementWords, List.length_append] at h
    rw [statementWords, statementTrees]
    obtain ⟨parts, hparts, hitems⟩ := hg.statements (Nat.le_trans (Nat.le_add_left _ _) h)
    refine ⟨st.words :: parts, by rw [hparts, List.flatten_cons], .cons ⟨statement_begins st, ?_⟩ hitems⟩
    exact hg.statement st (Nat.le_trans (Nat.le_add_right _ _) h)

theorem block (hg : g.Reads depth) {body : List Statement} (h : (statementWords body).length ≤ depth) :
    Plants g.block (fun _ => True) (fixed .braceOpen :: (statementWords body ++ [fixed .braceClose]))
      (.node .block (statementTrees body)) := by
  intro s arena rest _ hs
  obtain ⟨parts, hparts, hitems⟩ := hg.statements h
  rw [List.cons_append, List.append_assoc, hparts] at hs
  have hbegins (kind : TokenKind) (h : BeginsStatement kind) : kind ≠ .braceClose ∧ kind ≠ .elseWord :=
    ⟨h.ne.2.1, h.ne.1⟩
  refine (require_yields hs rfl).seq ?_
  rintro start s' _ ⟨-, hs', rfl⟩
  refine (itemsUntil_yields hbegins (by decide) rfl hitems hs').seq ?_
  rintro ns s' mid ⟨hs', hns⟩
  exact node_plants hs' hns

end Reads

/-- The name of a function, or nothing in its place. -/
theorem functionName_yields (start : Token) (name : Option Identifier)
    (hs : s.stream.Shows (name.toList.map Identifier.lexeme ++ fixed .parenOpen :: rest)) :
    Yields (functionName start) s arena fun n s' after => s'.stream.Shows (fixed .parenOpen :: rest) ∧
      Planted arena ((name.map Identifier.tree).getD (.node (.name "") [])) n after := by
  cases name with
  | none =>
    refine (accept_none hs (by decide : TokenKind.parenOpen ≠ .identifier)).seqSame ?_
    exact made_plants hs .nil _
  | some x =>
    refine (accept_yields hs rfl).seq ?_
    rintro _ s' _ ⟨⟨t, rfl, ht⟩, hs', rfl⟩
    dsimp only
    rw [text_of_shows ht]
    exact leaf_plants hs'

namespace Reads

theorem function (hg : g.Reads depth) (f : Function) (h : f.words.length ≤ depth + 1) :
    Plants g.function (fun _ => True) f.words f.tree := by
  obtain ⟨name, params, body⟩ := f
  intro s arena rest _ hs
  rw [Function.words] at hs h
  have hbody : (statementWords body).length ≤ depth := by
    simp only [List.length_append, List.length_cons] at h
    omega
  have hitems : List.Forall₂ (Item ScriptReader.name (· = .identifier) (fun _ => True))
      (params.map fun x => [x.lexeme]) (params.map Identifier.tree) :=
    List.forall₂_map_left_iff.2 (List.forall₂_map_right_iff.2
      (List.forall₂_same.2 fun x _ => ⟨⟨_, _, rfl, rfl⟩, name_plants x⟩))
  have hbegins (kind : TokenKind) (h : kind = .identifier) : kind ≠ .parenClose := by
    rw [h]
    decide
  simp only [List.cons_append, List.append_assoc] at hs
  refine (require_yields hs rfl).seq ?_
  rintro start s' _ ⟨-, hs', rfl⟩
  refine (functionName_yields start name hs').seq ?_
  rintro nameNode s' mid ⟨hs', hname⟩
  refine (require_yields hs' rfl).seq ?_
  rintro paramsStart s' _ ⟨-, hs', rfl⟩
  refine (separatedUntil_yields hbegins trivial trivial (by decide) rfl hitems hs').seq ?_
  rintro ns s' mid ⟨hs', hns⟩
  refine (node_plants hs' hns).seq ?_
  rintro paramsNode s' mid ⟨hs', hparams⟩
  refine (hg.block hbody _ _ rest trivial (by simpa using hs')).seq ?_
  rintro bodyNode s' mid ⟨hs', hblock⟩
  rw [Function.tree]
  exact node_plants hs' (.cons hname (.cons hparams (.cons hblock .nil)))

theorem primary_function (hg : g.Reads depth) (f : Function) (h : f.words.length ≤ depth + 1) :
    Plants g.primary (fun _ => True) f.words f.tree := by
  intro s arena rest _ hs
  obtain ⟨ws, hws⟩ := function_begins f
  have hs' := hs
  rw [hws] at hs'
  refine peek_seq hs' fun t hkind => ?_
  rw [hkind]
  exact hg.function f h _ _ _ trivial hs

/-! ### Operators and assignments -/

theorem unary_plants (hg : g.Reads depth) (op : UnaryOp) {e : Expression} (h : (parens e.words).length ≤ depth) :
    Plants g.unaryRule EndsChain (fixed (unarySign op) :: parens e.words) (.node (.unary op) [e.tree]) := by
  intro s arena rest hends hs
  have hop : (unarySign op).unaryOp? = some op := by cases op <;> rfl
  refine peek_seq hs fun start hkind => ?_
  have hop' : start.kind.unaryOp? = some op := by
    rw [hkind]
    exact hop
  rw [hop']
  refine (consume_yields hs).seq ?_
  rintro _ s' _ ⟨-, hs', rfl⟩
  refine (hg.unary e h _ _ _ hends hs').seq ?_
  rintro n s' mid ⟨hs', hn⟩
  exact node_plants hs' (.cons hn .nil)

theorem binary_plants (hg : g.Reads depth) (op : BinaryOp) {l r : Expression} (hl : l.words.length ≤ depth)
    (hr : (parens r.words).length ≤ depth) :
    Plants (g.binaryRule 1) (EndsOperation 1) (parens l.words ++ fixed (binarySign op) :: parens r.words)
      (.node (.binary op) [l.tree, r.tree]) := by
  intro s arena rest hends hs
  rw [List.append_assoc] at hs
  obtain ⟨precedence, hop, hle⟩ : ∃ precedence, (binarySign op).binaryOp? = some (op, precedence) ∧
      1 ≤ precedence := by
    cases op <;> exact ⟨_, rfl, by decide⟩
  refine peek_seq hs fun start _ => ?_
  refine (hg.unaryRule_parens hl _ _ (fixed (binarySign op) :: _) (endsChain_binarySign op) hs).seq ?_
  rintro n s' mid ⟨hs', hn⟩
  refine (turns_yields hs').seqSame ?_
  have hright : EndsOperation (precedence + 1) (nextKind rest) := hends.mono (Nat.le_add_left 1 precedence)
  refine extend_once (by simp) (operation_plants hop hle (hg.binary _ r hr) hright hn hs') ?_
  rintro m s' after ⟨hs', -⟩
  exact operation_none hs' hends

end Reads

theorem kind_of_planted {kind : Kind} {ts : List Tree} {n : NodeId} (h : Planted arena (.node kind ts) n mid) :
    ∃ x, mid.node? n = some x ∧ x.kind = kind := by
  cases h with
  | node all made => exact ⟨_, (made.node? _).trans (if_pos rfl), rfl⟩

theorem target_of_planted {target : Target} {n : NodeId} (h : Planted arena target.tree n mid) :
    ∃ x, mid.node? n = some x ∧ x.kind.isTarget = true := by
  cases target <;> rw [Target.tree] at h
  · obtain ⟨x, hx, hk⟩ := kind_of_planted h
    exact ⟨x, hx, hk ▸ rfl⟩
  · obtain ⟨x, hx, hk⟩ := kind_of_planted h
    exact ⟨x, hx, hk ▸ rfl⟩
  · obtain ⟨x, hx, hk⟩ := kind_of_planted h
    exact ⟨x, hx, hk ▸ rfl⟩

theorem checkTarget_yields {sign : Token} {n : NodeId} {x : Node} (hx : arena.node? n = some x)
    (hk : x.kind.isTarget = true) :
    Yields (checkTarget sign n) s arena fun _ s' after => s' = s ∧ after = arena := by
  have hget : ∀ f : Arena → ScriptReader Unit,
      ((getThe Arena : ScriptReader Arena) >>= f) s arena = f arena s arena := fun _ => rfl
  refine ⟨(), s, arena, ?_, rfl, rfl⟩
  rw [checkTarget, hget]
  simp only [Arena.kind?, hx, Option.map_some, hk]
  rfl

namespace Reads

theorem assign_plants (hg : g.Reads depth) {target : Target} {value : Expression}
    (ht : target.words.length ≤ depth) (hv : (parens value.words).length ≤ depth) :
    Plants g.assignmentRule EndsAssignment (parens target.words ++ fixed .equals :: parens value.words)
      (.node .assign [target.tree, value.tree]) := by
  intro s arena rest hends hs
  rw [List.append_assoc] at hs
  have hequals : EndsOperation 1 .equals := ⟨by decide, fun _ _ h => by cases h⟩
  have hbinary := hg.binaryRule_parens (e := .target target) ht 1
  refine peek_seq hs fun start _ => ?_
  refine (hbinary _ _ (fixed .equals :: _) hequals hs).seq ?_
  rintro n s' mid ⟨hs', hn⟩
  refine (accept_yields hs' rfl).seq ?_
  rintro _ s' mid ⟨⟨sign, rfl, -⟩, hs', rfl⟩
  obtain ⟨x, hx, hk⟩ := target_of_planted hn
  refine (checkTarget_yields hx hk).seq ?_
  rintro _ _ _ ⟨rfl, rfl⟩
  refine (hg.operand value hv _ _ _ hends hs').seq ?_
  rintro k s' mid' ⟨hs', hk⟩
  exact node_plants hs' (.cons hn (.cons hk .nil))

/-- Every expression as it is written. -/
theorem assignmentRule (hg : g.Reads depth) (e : Expression) (h : e.words.length ≤ depth + 1) :
    Plants g.assignmentRule EndsAssignment e.words e.tree := by
  cases e with
  | target t => cases t with
    | name x =>
      simp only [Expression.words, Expression.tree, Target.words, Target.tree]
      exact assignmentRule_of_chain (chain_of_primary (primary_of_atom (isAtom_name x))) ⟨_, _, rfl, rfl⟩
    | property receiver x =>
      simp only [Expression.words, Expression.tree, Target.words, Target.tree] at h ⊢
      simp only [List.length_append, length_parens, List.length_cons] at h
      exact assignmentRule_of_chain (chain_of_suffix (hg.primary_parens (by omega)) (suffix_property _ x))
        ⟨_, _, rfl, rfl⟩
    | element receiver index =>
      simp only [Expression.words, Expression.tree, Target.words, Target.tree] at h ⊢
      simp only [List.length_append, length_parens, List.length_cons] at h
      exact assignmentRule_of_chain (chain_of_suffix (hg.primary_parens (by omega))
        (hg.suffix_element _ (by rw [length_parens]; omega))) ⟨_, _, rfl, rfl⟩
  | call callee arguments =>
    simp only [Expression.words, Expression.tree] at h ⊢
    simp only [List.length_append, length_parens, List.length_cons] at h
    exact assignmentRule_of_chain (chain_of_suffix (hg.primary_parens (by omega))
      (hg.suffix_call _ (by omega))) ⟨_, _, rfl, rfl⟩
  | assign target value =>
    simp only [Expression.words, Expression.tree] at h ⊢
    simp only [List.length_append, length_parens, List.length_cons] at h
    exact hg.assign_plants (by omega) (by rw [length_parens]; omega)
  | binary op left right =>
    simp only [Expression.words, Expression.tree] at h ⊢
    simp only [List.length_append, length_parens, List.length_cons] at h
    exact assignmentRule_of_binaryRule (hg.binary_plants op (by omega) (by rw [length_parens]; omega))
  | unary op operand =>
    simp only [Expression.words, Expression.tree] at h ⊢
    simp only [length_parens, List.length_cons] at h
    exact assignmentRule_of_binaryRule (binaryRule_of_unaryRule (hg.unary_plants op (by rw [length_parens]; omega)) 1)
  | object ms =>
    simp only [Expression.words, Expression.tree] at h ⊢
    simp only [List.length_append, List.length_cons] at h
    exact assignmentRule_of_chain (chain_of_primary (hg.object (by omega))) ⟨_, _, rfl, rfl⟩
  | array es =>
    simp only [Expression.words, Expression.tree] at h ⊢
    simp only [List.length_append, List.length_cons] at h
    exact assignmentRule_of_chain (chain_of_primary (hg.array (by omega))) ⟨_, _, rfl, rfl⟩
  | function f =>
    simp only [Expression.words, Expression.tree] at h ⊢
    obtain ⟨ws, hws⟩ := function_begins f
    exact assignmentRule_of_chain (chain_of_primary (hg.primary_function f h)) ⟨_, ws, hws, rfl⟩
  | number digits =>
    simp only [Expression.words, Expression.tree]
    exact assignmentRule_of_chain (chain_of_primary (primary_of_atom (isAtom_number digits))) ⟨_, _, rfl, rfl⟩
  | string text =>
    simp only [Expression.words, Expression.tree]
    exact assignmentRule_of_chain (chain_of_primary (primary_of_atom (isAtom_string text))) ⟨_, _, rfl, rfl⟩
  | trueValue =>
    simp only [Expression.words, Expression.tree]
    exact assignmentRule_of_chain (chain_of_primary (primary_of_atom isAtom_fixed.1)) ⟨_, _, rfl, rfl⟩
  | falseValue =>
    simp only [Expression.words, Expression.tree]
    exact assignmentRule_of_chain (chain_of_primary (primary_of_atom isAtom_fixed.2.1)) ⟨_, _, rfl, rfl⟩
  | nullValue =>
    simp only [Expression.words, Expression.tree]
    exact assignmentRule_of_chain (chain_of_primary (primary_of_atom isAtom_fixed.2.2.1)) ⟨_, _, rfl, rfl⟩
  | thisValue =>
    simp only [Expression.words, Expression.tree]
    exact assignmentRule_of_chain (chain_of_primary (primary_of_atom isAtom_fixed.2.2.2)) ⟨_, _, rfl, rfl⟩

end Reads

end Grammar

end ScriptReader

end ScriptIndex
