import ScriptIndex.Proofs.Escapes
import ScriptIndex.Proofs.Operands

/-! # String literals stand for what was written

Any text may be written between quotes if its backslashes, its line feeds and the quotes in it are escaped. Such a
literal is one token, whatever comes after it, and is read as the text: as an expression and as the key of an object
(`Quote.literal_decoded`). -/

namespace ScriptIndex

/-- The two marks that a string literal may stand between. -/
inductive Quote
  | double | single

namespace Quote

def char : Quote → Char
  | double => '"'
  | single => '\''

def byte (quote : Quote) : UInt8 := quote.char.toUInt8

/-- The literal that stands for a text. -/
def literal (quote : Quote) (text : String) : List UInt8 :=
  quote.byte :: (Utf8.encode (String.ofList (Escape.encode quote.char text.toList)) ++ [quote.byte])

theorem isQuote_byte (quote : Quote) : Byte.isQuote quote.byte = true := by
  cases quote <;> rfl

theorem meaning_char (quote : Quote) : Escape.meaning quote.char = quote.char := by
  cases quote <;> rfl

/-! ### The bytes of a literal -/

/-- A character takes no byte that could be a quote, a backslash or a line feed, unless it is one. -/
theorem inside_encodeChar (quote : Quote) {c : Char} (hn : c ≠ '\n') (hb : c ≠ '\\') (hq : c ≠ quote.char) :
    Quoted.Inside quote.byte (String.utf8EncodeChar c) := by
  have hencode : Utf8.encode (String.ofList [c]) = String.utf8EncodeChar c := by
    rw [Utf8.encode, String.toList_ofList, List.flatMap_singleton]
  have hne {b : UInt8} (hmem : b ∈ String.utf8EncodeChar c) {mark : Char} (hmark : mark.toUInt8.toNat < 0x80)
      (hchar : Char.ofNat mark.toUInt8.toNat = mark) (h : c ≠ mark) : b ≠ mark.toUInt8 := by
    rintro rfl
    have hc := Utf8.mem_of_mem_encode (hencode ▸ hmem) hmark
    rw [hchar, String.toList_ofList, List.mem_singleton] at hc
    exact h hc.symm
  have hquote : quote.char.toUInt8.toNat < 0x80 ∧ Char.ofNat quote.char.toUInt8.toNat = quote.char := by
    cases quote <;> decide
  exact .of_plain fun b hmem =>
    ⟨hne hmem (by decide) (by decide) hn, hne hmem (by decide) (by decide) hb, hne hmem hquote.1 hquote.2 hq⟩

theorem inside_written (quote : Quote) (c : Char) :
    Quoted.Inside quote.byte ((Escape.written quote.char c).flatMap String.utf8EncodeChar) := by
  unfold Escape.written
  split_ifs with hn hc
  · exact .escape _ .nil
  · have hchar : ∃ b, String.utf8EncodeChar c = [b] := by
      rcases hc with rfl | rfl
      · exact ⟨_, rfl⟩
      · cases quote <;> exact ⟨_, rfl⟩
    obtain ⟨b, hb⟩ := hchar
    rw [List.flatMap_cons, List.flatMap_singleton, hb]
    exact .escape b .nil
  · rw [List.flatMap_singleton]
    exact inside_encodeChar quote hn (not_or.1 hc).1 (not_or.1 hc).2

theorem inside_encode (quote : Quote) (chars : List Char) :
    Quoted.Inside quote.byte (Utf8.encode (String.ofList (Escape.encode quote.char chars))) := by
  rw [Utf8.encode, String.toList_ofList]
  induction chars with
  | nil => exact .nil
  | cons c chars ih =>
    rw [Escape.encode, List.flatMap_cons, List.flatMap_append]
    exact (inside_written quote c).append ih

/-! ### The token -/

theorem next_literal (quote : Quote) (text : String) (pos : Nat) (rest : List UInt8) :
    (⟨pos, quote.literal text ++ rest⟩ : Cursor).next =
      .ok ⟨.stringLiteral, ⟨pos, pos + (quote.literal text).length⟩, quote.literal text, none⟩
        ⟨pos + (quote.literal text).length, rest⟩ := by
  have hinside := inside_encode quote text.toList
  unfold literal
  generalize Utf8.encode (String.ofList (Escape.encode quote.char text.toList)) = inside at hinside
  have hbytes : quote.byte :: (inside ++ [quote.byte]) ++ rest = quote.byte :: (inside ++ quote.byte :: rest) := by
    simp
  have hlength : (quote.byte :: (inside ++ [quote.byte])).length = inside.length + 2 := by simp
  have hskip : (⟨pos, quote.byte :: (inside ++ [quote.byte]) ++ rest⟩ : Cursor).skipGaps none = .ok none _ :=
    Cursor.skipGaps_of_none (hbytes ▸ gap?_quote quote.isQuote_byte _)
  have hlexeme : lexeme (quote.byte :: (inside ++ [quote.byte]) ++ rest) =
      .ok (.stringLiteral, (quote.byte :: (inside ++ [quote.byte])).length) := by
    rw [hbytes, hlength]
    exact lexeme_string quote.isQuote_byte hinside rest
  simp only [Cursor.next, hskip, hlexeme, Cursor.advance]
  rw [List.take_left, List.drop_left]

theorem stringText_literal {quote : Quote} {text : String} {t : Token} (h : t.bytes = quote.literal text) :
    ScriptReader.stringText t = text := by
  rw [ScriptReader.stringText, h, literal, List.drop_one, List.tail_cons, List.dropLast_concat, Utf8.decode_encode,
    String.toList_ofList, Escape.decode_encode quote.meaning_char, String.ofList_toList]

end Quote

/-- A token that is a string literal is read from what stands between its quotes. -/
theorem Cursor.next_string {c c' : Cursor} {t : Token} (h : c.next = .ok t c') (hkind : t.kind = .stringLiteral) :
    2 ≤ t.bytes.length ∧ Escape.Complete (Utf8.decode (t.bytes.drop 1).dropLast).toList := by
  have hne : t.kind ≠ .eof := by
    rw [hkind]
    decide
  obtain ⟨quote, inside, -, hinside, hbytes⟩ := (next_spelled h hne).inside hkind
  have hbytes : t.bytes = quote :: (inside ++ [quote]) := hbytes
  rw [hbytes, List.drop_one, List.tail_cons, List.dropLast_concat]
  exact ⟨by simp, hinside.complete⟩

/-! ### The parser -/

namespace ScriptReader
open Phrase Lexeme

variable {s : Input} {t : Token}

theorem primary_string (g : Grammar) (h : s.head = .ok t) (hkind : t.kind = .stringLiteral) :
    g.primary s = leaf (.string (stringText t)) t (s.read t) := by
  have hatom : atomKind t = pure (.string (stringText t)) := by rw [atomKind, hkind]
  rw [Grammar.primary, peek_bind_of_head h, hkind]
  dsimp only
  rw [atom, peek_bind_of_head h, hatom, pure_bind, consume_bind_of_head h]

theorem member_string (g : Grammar) (h : s.head = .ok t) (hkind : t.kind = .stringLiteral) :
    g.member s = (do
      let _ ← require .colon
      let value ← g.assignment
      node (.key (stringText t)) t [value]) (s.read t) := by
  rw [Grammar.member, consume_bind_of_head h, keyText, if_pos hkind, pure_bind]

/-- The lexemes of an object with one member, which has a literal for its key and another for its value. -/
def objectWords (quote quote' : Quote) (text text' : String) : List Lexeme :=
  [fixed .braceOpen, ⟨.stringLiteral, quote.literal text⟩, fixed .colon, ⟨.stringLiteral, quote'.literal text'⟩,
    fixed .braceClose]

theorem objectWords_read (quote quote' : Quote) (text text' : String) :
    AllRead (objectWords quote quote' text text') := by
  have hliteral (quote : Quote) (text : String) : (⟨.stringLiteral, quote.literal text⟩ : Lexeme).Reads :=
    reads_string quote.isQuote_byte (quote.inside_encode text.toList)
  simp [objectWords, hliteral]

/-- A literal as an expression, at any level but the last. -/
theorem literal_plants (quote : Quote) (text : String) (depth : Nat) :
    Plants (Grammar.within (depth + 1)).assignment EndsAssignment [⟨.stringLiteral, quote.literal text⟩]
      (.node (.string text) []) := by
  have hatom : IsAtom ⟨.stringLiteral, quote.literal text⟩ (.string text) :=
    isAtom_quoted rfl fun _ ht => Quote.stringText_literal ht.bytes
  exact Grammar.assignmentRule_of_chain (Grammar.chain_of_primary (Grammar.primary_of_atom hatom)) ⟨_, _, rfl, rfl⟩

theorem objectWords_plants (quote quote' : Quote) (text text' : String) (depth : Nat) :
    Plants (Grammar.within (depth + 2)).assignment EndsAssignment (objectWords quote quote' text text')
      (.node .object [.node (.key text) [.node (.string text') []]]) := by
  have hmember := Grammar.member_of_quoted (w := ⟨.stringLiteral, quote.literal text⟩) rfl
    (fun _ ht => Quote.stringText_literal ht.bytes) (literal_plants quote' text' depth)
  have hobject := Grammar.primary_of_members (.cons ⟨⟨_, _, rfl, rfl⟩, hmember⟩ .nil)
  exact Grammar.assignmentRule_of_chain (Grammar.chain_of_primary hobject) ⟨_, _, rfl, rfl⟩

end ScriptReader

namespace Quote
open ScriptReader Phrase

/-- Between quotes, a text with its backslashes, line feeds and quotes escaped is one token, whatever comes after it.
The token is read as the text: as a string and as a key, anywhere in a source and so in an object made of two of them.
And whatever the source, the token of a string literal has its two quotes, and all escapes between them are whole. -/
theorem literal_decoded (quote : Quote) (text : String) :
    let bytes := quote.literal text
    (∀ pos rest, (⟨pos, bytes ++ rest⟩ : Cursor).next =
      .ok ⟨.stringLiteral, ⟨pos, pos + bytes.length⟩, bytes, none⟩ ⟨pos + bytes.length, rest⟩) ∧
    (∀ (t : Token) (s : Input) (g : Grammar) (arena : Arena),
      s.head = .ok t → t.kind = .stringLiteral → t.bytes = bytes →
        (∃ after, g.primary s arena = .ok (arena.size, s.read t) after ∧ Made arena (.string text) t.span [] after) ∧
        g.member s = (do
          let _ ← require .colon
          let value ← g.assignment
          node (.key text) t [value]) (s.read t)) ∧
    (∀ quote' text' options arena, ∃ n after,
      Build.expression (spaced (objectWords quote quote' text text')) options arena = .ok n after ∧
        after.Holds (.node .object [.node (.key text) [.node (.string text') []]]) none n) ∧
    ∀ (c c' : Cursor) (t : Token), c.next = .ok t c' → t.kind = .stringLiteral →
      2 ≤ t.bytes.length ∧ Escape.Complete (Utf8.decode (t.bytes.drop 1).dropLast).toList := by
  refine ⟨next_literal quote text, fun t s g arena hhead hkind hbytes => ⟨?_, ?_⟩,
    fun quote' text' options arena => ?_, fun _ _ _ => Cursor.next_string⟩
  · rw [primary_string g hhead hkind, stringText_literal hbytes]
    exact lift_node _ _ _ (List.forall_mem_nil _)
  · rw [member_string g hhead hkind, stringText_literal hbytes]
  · have hread := spaced_shows (objectWords_read quote quote' text text')
    have hshows : (Input.ofStream (options.stream (spaced (objectWords quote quote' text text')))).stream.Shows
        (objectWords quote quote' text text') := options.stream_shows hread
    obtain ⟨n, s, after, hrun, -, hplanted⟩ :=
      expression_plants hshows arena (objectWords_plants quote quote' text text' 4)
    refine ⟨n, after, ?_, hplanted.holds_none⟩
    rw [Build.expression, StateT.run', map_eq_pure_bind, Build.run_bind_ok hrun]
    rfl

/- The quotes of the other kind stand for themselves. -/
example : double.literal "it's \"so\"" = ascii "\"it's \\\"so\\\"\"" := by decide

end Quote

end ScriptIndex
