import Mathlib.Data.List.TakeWhile
import Mathlib.Tactic.SplitIfs
import ScriptIndex.Proofs.Lexemes

/-! # How tokens are spelled

`Lexeme.Spelled`: a token is a word, a number, a string literal or a mark, and its kind goes with its bytes. Every
token of a source is spelled so, and what is spelled so reads as itself. -/

namespace ScriptIndex

def Token.lexeme (t : Token) : Lexeme := ⟨t.kind, t.bytes⟩

inductive Lexeme.Spelled : Lexeme → Prop
  | word {bytes : List UInt8} (h : isWord bytes = true) : Spelled ⟨wordKind bytes, bytes⟩
  | number {whole : List UInt8} {fraction : Option (List UInt8)} (hne : whole ≠ [])
      (hw : ∀ b ∈ whole, Byte.isDigit b = true) (hf : ∀ ds ∈ fraction, ∀ b ∈ ds, Byte.isDigit b = true) :
      Spelled ⟨.numberLiteral, numberBytes whole fraction⟩
  | string {quote : UInt8} {inside : List UInt8} (hquote : Byte.isQuote quote = true)
      (h : Quoted.Inside quote inside) : Spelled ⟨.stringLiteral, quote :: (inside ++ [quote])⟩
  | mark {entry : String × TokenKind} (h : entry ∈ TokenKind.punctuators) : Spelled ⟨entry.2, ascii entry.1⟩

/-! ### The lexeme found at the head of a text -/

theorem take_numberLength (bytes : List UInt8) : ∃ fraction : Option (List UInt8),
    bytes.take (numberLength bytes) = numberBytes (bytes.takeWhile Byte.isDigit) fraction ∧
      ∀ ds ∈ fraction, ∀ b ∈ ds, Byte.isDigit b = true := by
  have hsplit := List.takeWhile_append_dropWhile (p := Byte.isDigit) (l := bytes)
  have hwhole : bytes.take (bytes.takeWhile Byte.isDigit).length = bytes.takeWhile Byte.isDigit := by
    conv => lhs; rhs; rw [← hsplit]
    exact List.take_left
  have hnone : ∀ ds ∈ (none : Option (List UInt8)), ∀ b ∈ ds, Byte.isDigit b = true := fun _ h => by cases h
  unfold numberLength
  dsimp only
  cases hrest : bytes.dropWhile Byte.isDigit with
  | nil => exact ⟨none, hwhole, hnone⟩
  | cons b rest =>
    dsimp only
    split_ifs with hdot
    · obtain rfl : b = 0x2E := eq_of_beq hdot
      refine ⟨some (rest.takeWhile Byte.isDigit), ?_, fun ds hds b hb => ?_⟩
      · have hbytes : bytes = bytes.takeWhile Byte.isDigit ++
            (0x2E :: rest.takeWhile Byte.isDigit ++ rest.dropWhile Byte.isDigit) := by
          rw [List.cons_append, List.takeWhile_append_dropWhile, ← hrest, hsplit]
        have hfraction : (0x2E :: rest.takeWhile Byte.isDigit ++ rest.dropWhile Byte.isDigit).take
            ((rest.takeWhile Byte.isDigit).length + 1) = 0x2E :: rest.takeWhile Byte.isDigit :=
          List.take_left' rfl
        conv => lhs; rhs; rw [hbytes]
        rw [Nat.add_assoc, List.take_length_add_append, Nat.add_comm 1, hfraction]
        rfl
      · cases hds
        exact List.mem_takeWhile_imp hb
    · exact ⟨none, hwhole, hnone⟩

namespace Lexeme

theorem spelled_of_lexeme {bytes : List UInt8} {kind : TokenKind} {length : Nat}
    (h : ScriptIndex.lexeme bytes = .ok (kind, length)) (hkind : kind ≠ .eof) :
    (⟨kind, bytes.take length⟩ : Lexeme).Spelled := by
  cases bytes with
  | nil =>
    cases h
    exact absurd rfl hkind
  | cons b rest =>
    unfold ScriptIndex.lexeme at h
    dsimp only at h
    split_ifs at h with hword hdigit hmalformed hquote
    · cases h
      have htake : (b :: rest).take (b :: rest.takeWhile Byte.isWordPart).length =
          b :: rest.takeWhile Byte.isWordPart :=
        List.prefix_iff_eq_take.1 ((List.cons_prefix_cons).2 ⟨rfl, List.takeWhile_prefix _⟩) |>.symm
      rw [htake]
      refine .word ?_
      rw [isWord, hword, Bool.true_and, List.all_eq_true]
      exact fun b hb => List.mem_takeWhile_imp hb
    · cases h
      obtain ⟨fraction, htake, hfraction⟩ := take_numberLength (b :: rest)
      rw [htake]
      refine .number ?_ (fun b hb => List.mem_takeWhile_imp hb) hfraction
      rw [List.takeWhile_cons_of_pos hdigit]
      exact List.cons_ne_nil _ _
    · cases hread : Quoted.read b rest with
      | cut n => rw [hread] at h; cases h
      | closed n =>
        rw [hread] at h
        cases h
        obtain ⟨-, inside, tail, hinside, rfl, rfl⟩ := Quoted.read_eq_closed hread
        rw [List.take_succ_cons, List.take_length_add_append, List.take_succ_cons, List.take_zero]
        exact .string hquote hinside
    · cases hmark : punctuator? (b :: rest) with
      | none => rw [hmark] at h; cases h
      | some entry =>
        rw [hmark] at h
        cases h
        have hpre := List.isPrefixOf_iff_prefix.1 (List.find?_some hmark :)
        rw [← List.prefix_iff_eq_take.1 hpre]
        exact .mark (List.mem_of_find?_eq_some hmark)

end Lexeme

namespace Cursor

theorem next_spelled {c c' : Cursor} {t : Token} (h : c.next = .ok t c') (ht : t.kind ≠ .eof) :
    t.lexeme.Spelled := by
  unfold next at h
  split at h
  · cases h
  · next doc c₁ hskip =>
    split at h
    · cases h
    · next kind length hlex =>
      cases h
      exact Lexeme.spelled_of_lexeme hlex ht

theorem stream_spelled (c : Cursor) : ∀ t ∈ c.stream.tokens, t.lexeme.Spelled := by
  fun_induction stream c with
  | case1 | case2 => exact List.forall_mem_nil _
  | case3 c t c' hnext hne s ih => exact List.forall_mem_cons.2 ⟨next_spelled hnext hne, ih⟩

end Cursor

/-! ### Texts of words -/

/-- The text is a word: a keyword or an identifier. -/
def IsWordText (text : String) : Prop := isWord (Utf8.encode text) = true

structure IsIdentifier (text : String) : Prop where
  word : IsWordText text
  kind : wordKind (Utf8.encode text) = .identifier

theorem Byte.toNat_lt_of_isWordPart {b : UInt8} (h : isWordPart b = true) : b.toNat < 0x80 := by
  have hall : ∀ n < 0x100, isWordPart (UInt8.ofNat n) = true → n < 0x80 := by decide +kernel
  exact hall b.toNat b.toNat_lt (by rwa [UInt8.ofNat_toNat])

theorem isWordPart_of_isWord {bytes : List UInt8} (h : isWord bytes = true) :
    ∀ b ∈ bytes, Byte.isWordPart b = true := by
  cases bytes with
  | nil => exact List.forall_mem_nil _
  | cons b rest =>
    rw [isWord, Bool.and_eq_true, List.all_eq_true] at h
    refine List.forall_mem_cons.2 ⟨?_, h.2⟩
    rw [Byte.isWordPart, h.1, Bool.true_or]

theorem encode_decode_word {bytes : List UInt8} (h : isWord bytes = true) : Utf8.encode (Utf8.decode bytes) = bytes :=
  Utf8.encode_decode fun b hb => Byte.toNat_lt_of_isWordPart (isWordPart_of_isWord h b hb)

namespace IsWordText
variable {text : String}

theorem ne_empty (h : IsWordText text) : text ≠ "" := by
  rintro rfl
  cases h

/-- Words are ASCII: a character that no byte of a word stands for is not in a word. -/
theorem not_mem (h : IsWordText text) {c : Char} (hc : ∃ b, String.utf8EncodeChar c = [b] ∧ Byte.isWordPart b = false) :
    c ∉ text.toList := by
  obtain ⟨b, hencode, hb⟩ := hc
  intro hmem
  have hbyte : b ∈ Utf8.encode text := List.mem_flatMap.2 ⟨c, hmem, by simp [hencode]⟩
  exact absurd (isWordPart_of_isWord h b hbyte) (by simp [hb])

end IsWordText

theorem IsIdentifier.ne_keyword {text : String} (h : IsIdentifier text) :
    ∀ entry ∈ TokenKind.keywords, text ≠ entry.1 := by
  have hkeywords : ∀ entry ∈ TokenKind.keywords, wordKind (Utf8.encode entry.1) ≠ .identifier := by decide
  rintro entry hmem rfl
  exact hkeywords entry hmem h.kind

/-! ### What a spelling says -/

namespace Lexeme.Spelled
variable {w : Lexeme}

/-- What is spelled so reads as itself, before a blank or the end. -/
theorem reads (h : w.Spelled) : w.Reads := by
  cases h with
  | word h => exact reads_word h
  | number hne hw hf => exact reads_number hne hw hf
  | string hquote h => exact reads_string hquote h
  | mark h => exact reads_punctuator h

/-- Only words are identifiers and keywords. -/
theorem isWord (h : w.Spelled) (hkind : w.kind = .identifier ∨ w.kind.isKeyword = true) :
    isWord w.bytes = true ∧ wordKind w.bytes = w.kind := by
  have hother : ∀ kind ∈ .numberLiteral :: .stringLiteral :: TokenKind.punctuators.map Prod.snd,
      ¬ (kind = .identifier ∨ kind.isKeyword = true) := by decide
  cases h with
  | word h => exact ⟨h, rfl⟩
  | number | string => exact absurd hkind (hother _ (by simp))
  | @mark entry h =>
    refine absurd hkind (hother entry.2 ?_)
    exact List.mem_cons_of_mem _ (List.mem_cons_of_mem _ (List.mem_map_of_mem h))

theorem isWordText (h : w.Spelled) (hkind : w.kind = .identifier ∨ w.kind.isKeyword = true) :
    IsWordText (Utf8.decode w.bytes) := by
  obtain ⟨hword, -⟩ := h.isWord hkind
  rw [IsWordText, encode_decode_word hword]
  exact hword

theorem isIdentifier (h : w.Spelled) (hkind : w.kind = .identifier) : IsIdentifier (Utf8.decode w.bytes) := by
  obtain ⟨hword, hwordKind⟩ := h.isWord (.inl hkind)
  refine ⟨h.isWordText (.inl hkind), ?_⟩
  rw [encode_decode_word hword]
  exact hwordKind.trans hkind

theorem inside (h : w.Spelled) (hkind : w.kind = .stringLiteral) : ∃ quote inside,
    Byte.isQuote quote = true ∧ Quoted.Inside quote inside ∧ w.bytes = quote :: (inside ++ [quote]) := by
  have hmarks : ∀ entry ∈ TokenKind.punctuators, entry.2 ≠ .stringLiteral := by decide
  have hkeywords : ∀ entry ∈ TokenKind.keywords, entry.2 ≠ .stringLiteral := by decide
  cases h with
  | @word bytes h =>
    rcases wordKind_cases bytes with hword | ⟨entry, hmem, hword⟩
    · cases hword.symm.trans hkind
    · exact absurd (hword.symm.trans hkind) (hkeywords entry hmem)
  | number => cases hkind
  | string hquote h => exact ⟨_, _, hquote, h, rfl⟩
  | mark h => exact absurd hkind (hmarks _ h)

end Lexeme.Spelled

end ScriptIndex
