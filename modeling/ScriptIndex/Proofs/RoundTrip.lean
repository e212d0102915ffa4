import ScriptIndex.Program
import ScriptIndex.Proofs.StatementRuns

/-! # Printed scripts read back

A script that is printed from a tree of phrases is accepted, and what is read is the tree of nodes that the
phrases stand for (`Build.script_printed`). -/

namespace ScriptIndex

namespace Phrase
open Lexeme

/-! ## The lexemes of phrases -/

/-- All lexemes read as themselves. -/
def AllRead (ws : List Lexeme) : Prop := ∀ w ∈ ws, w.Reads

@[simp] theorem allRead_nil : AllRead [] := by
  intro w hw
  cases hw

@[simp] theorem allRead_cons {w : Lexeme} {ws : List Lexeme} : AllRead (w :: ws) ↔ w.Reads ∧ AllRead ws :=
  List.forall_mem_cons

@[simp] theorem allRead_append {ws ws' : List Lexeme} : AllRead (ws ++ ws') ↔ AllRead ws ∧ AllRead ws' :=
  List.forall_mem_append

@[simp] theorem reads_fixed_of_ne {kind : TokenKind} (heof : kind ≠ .eof) (hidentifier : kind ≠ .identifier)
    (hnumber : kind ≠ .numberLiteral) (hstring : kind ≠ .stringLiteral) : (fixed kind).Reads := by
  refine reads_fixed ?_
  cases kind <;> first | decide | contradiction

@[simp] theorem allRead_parens {ws : List Lexeme} : AllRead (parens ws) ↔ AllRead ws := by
  simp [parens]

theorem allRead_commas : ∀ {parts : List (List Lexeme)}, (∀ part ∈ parts, AllRead part) → AllRead (commas parts)
  | [], _ => allRead_nil
  | [part], h => h part (List.mem_singleton_self _)
  | p :: q :: parts, h => by
    rw [commas_cons_cons]
    simp [h p (List.mem_cons_self ..), allRead_commas (List.forall_mem_cons.1 h).2]

@[simp] theorem Word.reads (x : Word) : x.lexeme.Reads :=
  reads_word x.isWord

@[simp] theorem Identifier.reads (x : Identifier) : x.lexeme.Reads := by
  have hkeywords : ∀ entry ∈ TokenKind.keywords, ascii entry.1 = Utf8.encode entry.1 := by decide
  have hkind : wordKind (Utf8.encode x.text) = .identifier := by
    rw [wordKind, List.find?_eq_none.2 fun entry hentry h => ?_]
    rw [hkeywords entry hentry] at h
    exact x.notKeyword entry hentry (Utf8.encode_injective (eq_of_beq h))
  have hread := x.toWord.reads
  rwa [Word.lexeme, hkind] at hread

@[simp] theorem Literal.reads (x : Literal) : x.lexeme.Reads := by
  have hne {b : UInt8} (hb : b ∈ Utf8.encode x.text) {c : UInt8} (hc : c.toNat < 0x80)
      (hplain : ∀ c' ∈ x.text.toList, c' ≠ Char.ofNat c.toNat) : b ≠ c := by
    rintro rfl
    exact hplain _ (Utf8.mem_of_mem_encode hb hc) rfl
  refine reads_string rfl (.of_plain fun b hb => ⟨hne hb (by decide) ?_, hne hb (by decide) ?_, hne hb (by decide) ?_⟩)
  · exact fun c hc => (x.plain c hc).1
  · exact fun c hc => (x.plain c hc).2.1
  · exact fun c hc => (x.plain c hc).2.2.1

@[simp] theorem Digits.reads (x : Digits) : x.lexeme.Reads := by
  refine reads_number (by simpa using x.whole_ne_nil) (all_isDigit x.whole) fun ds hds => ?_
  obtain ⟨fraction, -, rfl⟩ := Option.map_eq_some_iff.1 hds
  exact all_isDigit fraction

@[simp] theorem reads_binarySign (op : BinaryOp) : (fixed (binarySign op)).Reads := by
  cases op <;> simp [binarySign]

@[simp] theorem reads_unarySign (op : UnaryOp) : (fixed (unarySign op)).Reads := by
  cases op <;> simp [unarySign]

@[simp] theorem reads_declarationWord (word : VarWord) : (fixed (declarationWord word)).Reads := by
  cases word <;> simp [declarationWord]

mutual

theorem target_reads : ∀ t : Target, AllRead t.words
  | .name x => by simp [Target.words]
  | .property receiver x => by simp [Target.words, expression_reads receiver]
  | .element receiver index => by simp [Target.words, expression_reads receiver, expression_reads index]

theorem expression_reads : ∀ e : Expression, AllRead e.words
  | .target t => by simp [Expression.words, target_reads t]
  | .call callee arguments => by
    simp [Expression.words, expression_reads callee, allRead_commas (operands_read arguments)]
  | .assign target value => by simp [Expression.words, target_reads target, expression_reads value]
  | .binary op left right => by simp [Expression.words, expression_reads left, expression_reads right]
  | .unary op operand => by simp [Expression.words, expression_reads operand]
  | .object members => by simp [Expression.words, allRead_commas (members_read members)]
  | .array elements => by simp [Expression.words, allRead_commas (operands_read elements)]
  | .function f => by simp [Expression.words, function_reads f]
  | .number digits => by simp [Expression.words]
  | .string text => by simp [Expression.words]
  | .trueValue | .falseValue | .nullValue | .thisValue => by simp [Expression.words]

theorem operands_read : ∀ es : List Expression, ∀ part ∈ operands es, AllRead part
  | [] => by simp [operands]
  | e :: es => by simpa [operands, expression_reads e] using operands_read es

theorem members_read : ∀ ms : List Member, ∀ part ∈ memberParts ms, AllRead part
  | [] => by simp [memberParts]
  | .mk key value :: ms => by
    simpa [memberParts, Member.words, expression_reads value] using members_read ms

theorem function_reads : ∀ f : Function, AllRead f.words
  | .mk name params body => by
    have hparams : ∀ part ∈ params.map fun x => [x.lexeme], AllRead part := by simp
    have hname : AllRead (name.toList.map Identifier.lexeme) := by
      cases name <;> simp
    simp [Function.words, hname, allRead_commas hparams, statements_read body]

theorem variable_reads : ∀ v : Variable, AllRead v.words
  | .declared x => by simp [Variable.words]
  | .initialized x value => by simp [Variable.words, expression_reads value]

theorem variables_read : ∀ vs : List Variable, ∀ part ∈ variableParts vs, AllRead part
  | [] => by simp [variableParts]
  | v :: vs => by simpa [variableParts, variable_reads v] using variables_read vs

theorem closed_reads : ∀ st : Closed, AllRead st.words
  | .block body => by simp [Closed.words, statements_read body]
  | .declaration word first rest => by
    simp [Closed.words, allRead_commas (List.forall_mem_cons.2 ⟨variable_reads first, variables_read rest⟩)]
  | .function f => by simp [Closed.words, function_reads f]
  | .ifElse test holds fails => by
    simp [Closed.words, expression_reads test, closed_reads holds, closed_reads fails]
  | .returnNothing | .empty => by simp [Closed.words]
  | .returnValue value => by simp [Closed.words, expression_reads value]
  | .expression e => by simp [Closed.words, expression_reads e]

theorem statement_reads : ∀ st : Statement, AllRead st.words
  | .closed st => by simp [Statement.words, closed_reads st]
  | .ifThen test holds => by simp [Statement.words, expression_reads test, statement_reads holds]
  | .ifElse test holds fails => by
    simp [Statement.words, expression_reads test, closed_reads holds, statement_reads fails]

theorem statements_read : ∀ ss : List Statement, AllRead (statementWords ss)
  | [] => by simp [statementWords]
  | st :: ss => by simp [statementWords, statement_reads st, statements_read ss]

end

/-- Lexemes with spaces between them, after blanks. -/
theorem written_spaced : ∀ (blanks : List UInt8) {ws : List Lexeme}, (∀ b ∈ blanks, Byte.isBlank b = true) →
    AllRead ws → Written ws (blanks ++ (ascii " ").intercalate (ws.map Lexeme.bytes))
  | _, [], hblanks, _ => by
    rw [List.map_nil, List.intercalate_nil, List.append_nil]
    exact .nil hblanks
  | blanks, [w], hblanks, h => by
    have hend : Written [] [] := .nil (by simp)
    have hw : Written [w] (blanks ++ (w.bytes ++ [])) :=
      .cons hblanks (h w (List.mem_singleton_self w)) .nil hend
    rwa [List.map_singleton, List.intercalate_singleton, ← List.append_nil w.bytes]
  | _, _ :: v :: ws, hblanks, h => by
    obtain ⟨hw, hws⟩ := allRead_cons.1 h
    have hrest : Written (v :: ws) (ascii " " ++ (ascii " ").intercalate ((v :: ws).map Lexeme.bytes)) :=
      written_spaced (ascii " ") (List.all_eq_true.1 rfl) hws
    exact .cons hblanks hw (.cons (by decide) _) hrest

end Phrase

/-- Undocumented tokens are seen whether or not documentation is read. -/
theorem Options.stream_shows (options : Options) {source : List UInt8} {ws : List Lexeme}
    (h : (Stream.ofBytes source).Shows ws) : (options.stream source).Shows ws := by
  unfold Options.stream
  split
  · exact h
  · exact h.withoutDocs

namespace Build
open Phrase

/-- A text that holds the lexemes of phrases is read as the tree that they stand for, by any options and into
any arena. The nodes of the tree are new. -/
theorem script_written {body : List Statement} {source : List UInt8} (h : Written (statementWords body) source)
    (options : Options) (arena : Arena) :
    ∃ n after, script source options arena = .ok n after ∧ after.Holds (tree options.module body) none n ∧
      Grown arena (tree options.module body).size after := by
  have hshows : (Input.ofStream (options.stream source)).stream.Shows (statementWords body) :=
    options.stream_shows (h.stream _ rfl)
  obtain ⟨n, s, after, hrun, hplanted⟩ : Reader.Yields (ScriptReader.script options.module) _ arena _ :=
    ScriptReader.script_plants options.module hshows
  have hscript : script source options arena = .ok n after := by
    rw [script, StateT.run', map_eq_pure_bind, run_bind_ok hrun]
    rfl
  exact ⟨n, after, hscript, hplanted.holds_none, hplanted.grown.1⟩

/-- A printed script is accepted, and its tree is read back. -/
theorem script_printed (body : List Statement) (options : Options) (arena : Arena) :
    ∃ n after, script (printed body) options arena = .ok n after ∧ after.Holds (tree options.module body) none n ∧
      Grown arena (tree options.module body).size after :=
  have hwritten : Written (statementWords body) ([] ++ printed body) :=
    written_spaced [] (by simp) (statements_read body)
  script_written hwritten options arena

end Build

end ScriptIndex
