import ScriptIndex.Number.Binary64
import ScriptIndex.Proofs.Respacing

/-! # Errors of the lexer

What the lexer refuses lies in the source (`SyntaxError.Lexical`), with one exception. A backslash in a string
literal is counted with the byte after it, so an unterminated string that ends with the source in such a
backslash is taken to reach one byte further (`DanglingString`). Numbers that are not refused have a value. -/

namespace ScriptIndex

/-! ### String literals that are cut -/

/-- The inside of a string literal ends with the text, in a backslash with nothing after it. -/
inductive Quoted.Dangles (quote : UInt8) : List UInt8 → Prop
  | last : Dangles quote [Byte.backslash]
  | escape {b : UInt8} {rest : List UInt8} (h : Dangles quote rest) : Dangles quote (Byte.backslash :: b :: rest)
  | plain {b : UInt8} {rest : List UInt8} (hn : b ≠ Byte.newline) (hb : b ≠ Byte.backslash) (hq : b ≠ quote)
      (h : Dangles quote rest) : Dangles quote (b :: rest)

/-- The text is an unterminated string literal that ends in such a backslash. -/
def DanglingString (bytes : List UInt8) : Prop :=
  ∃ quote inside, bytes = quote :: inside ∧ Byte.isQuote quote = true ∧ Quoted.Dangles quote inside

namespace Quoted
variable {quote b : UInt8} {rest : List UInt8}

theorem not_dangles_nil : ¬ Dangles quote [] := fun h => by cases h

theorem not_dangles_newline : ¬ Dangles quote (Byte.newline :: rest) := by
  intro h
  cases h with
  | plain hn => exact hn rfl

theorem dangles_escape_iff : Dangles quote (Byte.backslash :: b :: rest) ↔ Dangles quote rest := by
  refine ⟨fun h => ?_, .escape⟩
  cases h with
  | escape h => exact h
  | plain _ hb => exact absurd rfl hb

theorem dangles_plain_iff (hn : b ≠ Byte.newline) (hb : b ≠ Byte.backslash) (hq : b ≠ quote) :
    Dangles quote (b :: rest) ↔ Dangles quote rest := by
  refine ⟨fun h => ?_, .plain hn hb hq⟩
  cases h with
  | last => exact absurd rfl hb
  | escape => exact absurd rfl hb
  | plain _ _ _ h => exact h

theorem after_eq_cut {q : Quoted} {n length : Nat} (h : q.after n = .cut length) :
    ∃ k, q = .cut k ∧ length = n + k := by
  cases q with
  | closed => cases h
  | cut k =>
    cases h
    exact ⟨k, rfl, rfl⟩

/-- Only a backslash at the end of the text makes a literal reach beyond it. -/
theorem cut_length : ∀ {bytes : List UInt8} {n : Nat}, read quote bytes = .cut n →
    n ≤ bytes.length + 1 ∧ (bytes.length < n ↔ Dangles quote bytes)
  | [], n, h => by
    rw [read] at h
    cases h
    exact ⟨Nat.zero_le _, iff_of_false (Nat.lt_irrefl 0) not_dangles_nil⟩
  | [b], n, h => by
    rw [read] at h
    split_ifs at h with hn hb hq
    · cases h
      obtain rfl : b = Byte.newline := eq_of_beq hn
      exact ⟨Nat.zero_le _, iff_of_false (Nat.not_lt_zero _) not_dangles_newline⟩
    · cases h
      obtain rfl : b = Byte.backslash := eq_of_beq hb
      exact ⟨Nat.le_refl _, iff_of_true (Nat.lt_succ_self 1) .last⟩
    · cases h
      have hplain : Dangles quote [b] ↔ Dangles quote [] :=
        dangles_plain_iff (mt beq_iff_eq.2 hn) (mt beq_iff_eq.2 hb) (mt beq_iff_eq.2 hq)
      exact ⟨Nat.le_succ _, iff_of_false (Nat.lt_irrefl 1) (mt hplain.1 not_dangles_nil)⟩
  | b :: c :: rest, n, h => by
    rw [read] at h
    split_ifs at h with hn hb hq
    · cases h
      obtain rfl : b = Byte.newline := eq_of_beq hn
      exact ⟨Nat.zero_le _, iff_of_false (Nat.not_lt_zero _) not_dangles_newline⟩
    · obtain ⟨k, hk, rfl⟩ := after_eq_cut h
      obtain ⟨hle, hbeyond⟩ := cut_length hk
      obtain rfl : b = Byte.backslash := eq_of_beq hb
      rw [dangles_escape_iff, ← hbeyond]
      simp only [List.length_cons]
      omega
    · obtain ⟨k, hk, rfl⟩ := after_eq_cut h
      obtain ⟨hle, hbeyond⟩ := cut_length hk
      rw [dangles_plain_iff (mt beq_iff_eq.2 hn) (mt beq_iff_eq.2 hb) (mt beq_iff_eq.2 hq), ← hbeyond]
      simp only [List.length_cons] at hle ⊢
      omega

end Quoted

/-! ### Faults -/

/-- A fault at the head of a text: it is about bytes of the text, or about one more after a string literal that
dangles. -/
structure Fault.Of (bytes : List UInt8) (fault : Fault) : Prop where
  cause : fault.cause ∈ [.invalidCharacter, .unterminatedComment, .unterminatedString, .malformedNumber]
  extent_le : fault.extent ≤ bytes.length + 1
  beyond : bytes.length < fault.extent ↔ fault.cause = .unterminatedString ∧ DanglingString bytes

theorem Fault.of_extent_le {bytes : List UInt8} {cause : Cause} {extent : Nat} (passed : Nat)
    (hcause : cause ∈ [.invalidCharacter, .unterminatedComment, .malformedNumber]) (hle : extent ≤ bytes.length) :
    (⟨cause, extent, passed⟩ : Fault).Of bytes := by
  have hother : ∀ cause ∈ [Cause.invalidCharacter, .unterminatedComment, .malformedNumber],
      cause ∈ [Cause.invalidCharacter, .unterminatedComment, .unterminatedString, .malformedNumber] ∧
        cause ≠ .unterminatedString := by decide
  obtain ⟨hmem, hne⟩ := hother _ hcause
  exact ⟨hmem, Nat.le_succ_of_le hle, iff_of_false (Nat.not_lt.2 hle) fun h => hne h.1⟩

theorem gap?_fault {bytes : List UInt8} {fault : Fault} (h : gap? bytes = .error fault) : fault.Of bytes := by
  unfold gap? at h
  dsimp only at h
  split_ifs at h with _ _ hblock
  cases hoffset : offsetOf? (ascii "*/") (bytes.drop 2) with
  | some n => rw [hoffset] at h; cases h
  | none =>
    rw [hoffset] at h
    cases h
    exact Fault.of_extent_le _ (by decide) (Nat.le_refl _)

theorem lexeme_fault {bytes : List UInt8} {fault : Fault} (h : lexeme bytes = .error fault) : fault.Of bytes := by
  cases bytes with
  | nil => cases h
  | cons b rest =>
    unfold lexeme at h
    dsimp only at h
    split_ifs at h with hword hdigit hmalformed hquote
    · cases h
      refine Fault.of_extent_le _ (by decide) (Nat.succ_le_of_lt (Nat.lt_of_not_le fun hle => ?_))
      rw [List.drop_eq_nil_of_le hle] at hmalformed
      cases hmalformed
    · cases hread : Quoted.read b rest with
      | closed n => rw [hread] at h; cases h
      | cut n =>
        rw [hread] at h
        cases h
        obtain ⟨hle, hbeyond⟩ := Quoted.cut_length hread
        refine ⟨(by decide : Cause.unterminatedString ∈ _), Nat.succ_le_succ hle, ?_⟩
        have hdangling : DanglingString (b :: rest) ↔ Quoted.Dangles b rest := by
          refine ⟨?_, fun h => ⟨b, rest, rfl, hquote, h⟩⟩
          rintro ⟨_, _, heq, -, h⟩
          cases heq
          exact h
        rw [hdangling, ← hbeyond]
        exact ⟨fun hlt => ⟨rfl, Nat.lt_of_succ_lt_succ hlt⟩, fun h => Nat.succ_lt_succ h.2⟩
    · cases hmark : punctuator? (b :: rest) with
      | some entry => rw [hmark] at h; cases h
      | none =>
        rw [hmark] at h
        cases h
        exact Fault.of_extent_le _ (by decide) (Nat.succ_le_succ (Nat.zero_le _))

/-! ### Errors at a cursor -/

namespace Cursor
variable {source : List UInt8} {c c' : Cursor}

theorem Within.advance (hc : c.Within source) {n : Nat} (hn : n ≤ c.rest.length) : (c.advance n).Within source := by
  obtain ⟨front, hsource, hpos⟩ := hc
  refine ⟨front ++ c.rest.take n, ?_, ?_⟩
  · rw [List.append_assoc, Cursor.advance, List.take_append_drop, hsource]
  · rw [List.length_append, List.length_take_of_le hn, ← hpos]
    rfl

theorem Within.drop (hc : c.Within source) : source.drop c.pos = c.rest := by
  obtain ⟨front, hsource, hpos⟩ := hc
  rw [hsource, hpos, List.drop_left]

theorem Within.length (hc : c.Within source) : source.length = c.pos + c.rest.length := by
  obtain ⟨front, hsource, hpos⟩ := hc
  rw [hsource, hpos, List.length_append]

end Cursor

/-- The lexer refuses the source for a fault at some place of it. -/
def SyntaxError.Lexical (source : List UInt8) (e : SyntaxError) : Prop :=
  ∃ c : Cursor, c.Within source ∧ ∃ fault : Fault, fault.Of c.rest ∧ e = fault.errorAt c.pos

namespace SyntaxError.Lexical
variable {source : List UInt8} {e : SyntaxError} (h : e.Lexical source)
include h

theorem cause : e.cause ∈ [.invalidCharacter, .unterminatedComment, .unterminatedString, .malformedNumber] := by
  obtain ⟨c, hc, fault, hfault, rfl⟩ := h
  exact hfault.cause

theorem token : e.token = none := by
  obtain ⟨c, hc, fault, hfault, rfl⟩ := h
  rfl

end SyntaxError.Lexical

namespace Cursor
variable {source : List UInt8} {c c' : Cursor} {e : SyntaxError}

theorem skipGaps_lexical {doc : Option DocText} (hc : c.Within source) (h : c.skipGaps doc = .error e c') :
    e.Lexical source := by
  fun_induction skipGaps c doc with
  | case1 c doc fault hgap =>
    cases h
    exact ⟨c, hc, fault, gap?_fault hgap, rfl⟩
  | case2 => cases h
  | case3 c doc gap hgap ih =>
    obtain ⟨pieces, rest, hrest, hlength, -⟩ := gap?_pieces hgap
    refine ih (hc.advance ?_) h
    rw [hlength, hrest, List.length_append]
    exact Nat.le_add_right _ _

theorem next_lexical (hc : c.Within source) (h : c.next = .error e c') : e.Lexical source := by
  unfold next at h
  cases hskip : c.skipGaps none with
  | error e c₁ =>
    rw [hskip] at h
    cases h
    exact skipGaps_lexical hc hskip
  | ok doc c₁ =>
    rw [hskip] at h
    dsimp only at h
    cases hlex : lexeme c₁.rest with
    | ok entry => rw [hlex] at h; cases h
    | error fault =>
      rw [hlex] at h
      cases h
      obtain ⟨pieces, hrest, hpos, -⟩ := skipGaps_pieces hskip
      have hc₁ : c₁ = c.advance (Piece.bytesOf pieces).length := by
        obtain ⟨pos, rest⟩ := c₁
        rw [advance, ← hpos, hrest, List.drop_left]
      refine ⟨c₁, hc₁ ▸ hc.advance ?_, fault, lexeme_fault hlex, rfl⟩
      rw [hrest, List.length_append]
      exact Nat.le_add_right _ _

/-- The error that tokens of a source end in is one of the lexer. -/
theorem stream_lexical (hc : c.Within source) (h : c.stream.last = .error e) : e.Lexical source := by
  fun_induction stream c with
  | case1 c e' c' hnext =>
    cases h
    exact next_lexical hc hnext
  | case2 => cases h
  | case3 c t c' hnext hne s ih => exact ih (next_follows hc hnext).2.1 h

end Cursor

/-! ### Numbers -/

/-- Digits with or without a fraction, which may be empty, have a value. -/
theorem Numeral.exists_ofBytes? {whole : List UInt8} {fraction : Option (List UInt8)} (hne : whole ≠ [])
    (hw : ∀ b ∈ whole, Byte.isDigit b = true) (hf : ∀ ds ∈ fraction, ∀ b ∈ ds, Byte.isDigit b = true) :
    ∃ x, Numeral.ofBytes? (numberBytes whole fraction) = some x := by
  obtain ⟨b, rest, rfl⟩ := List.exists_cons_of_ne_nil hne
  cases fraction with
  | none =>
    have htake : (b :: rest).takeWhile Byte.isDigit = b :: rest := List.takeWhile_eq_self_iff.2 hw
    have hdrop : (b :: rest).dropWhile Byte.isDigit = [] := List.dropWhile_eq_nil_iff.2 hw
    simp only [numberBytes, Numeral.ofBytes?, htake, hdrop]
    exact ⟨_, rfl⟩
  | some ds =>
    have htake : (b :: rest ++ 0x2E :: ds).takeWhile Byte.isDigit = b :: rest := by
      rw [List.takeWhile_append_of_pos hw]
      exact List.append_nil _
    have hdrop : (b :: rest ++ 0x2E :: ds).dropWhile Byte.isDigit = 0x2E :: ds := by
      rw [List.dropWhile_append_of_pos hw]
      rfl
    have hall : ds.all Byte.isDigit = true := List.all_eq_true.2 (hf ds rfl)
    have hmark : (0x2E == '.'.toUInt8) = true := rfl
    simp only [numberBytes, Numeral.ofBytes?, htake, hdrop, hall, hmark]
    exact ⟨_, rfl⟩

/-- A number is read where digits begin, as far as it goes. -/
theorem lexeme_number {bytes : List UInt8} {length : Nat} (h : lexeme bytes = .ok (.numberLiteral, length)) :
    bytes.takeWhile Byte.isDigit ≠ [] ∧ length = numberLength bytes := by
  cases bytes with
  | nil => cases h
  | cons b rest =>
    unfold lexeme at h
    dsimp only at h
    split_ifs at h with hword hdigit hmalformed hquote
    · have hkeyword : ∀ entry ∈ TokenKind.keywords, entry.2 ≠ .numberLiteral := by decide
      have hkind : wordKind (b :: rest.takeWhile Byte.isWordPart) = .numberLiteral :=
        congrArg Prod.fst (Except.ok.inj h)
      rcases wordKind_cases (b :: rest.takeWhile Byte.isWordPart) with hident | ⟨entry, hmem, hentry⟩
      · cases hident.symm.trans hkind
      · exact absurd (hentry.symm.trans hkind) (hkeyword entry hmem)
    · cases h
      refine ⟨?_, rfl⟩
      rw [List.takeWhile_cons_of_pos hdigit]
      exact List.cons_ne_nil _ _
    · cases hread : Quoted.read b rest <;> rw [hread] at h <;> cases h
    · have hmarks : ∀ entry ∈ TokenKind.punctuators, entry.2 ≠ .numberLiteral := by decide
      cases hmark : punctuator? (b :: rest) with
      | none => rw [hmark] at h; cases h
      | some entry =>
        rw [hmark] at h
        have hkind : entry.2 = .numberLiteral := congrArg Prod.fst (Except.ok.inj h)
        exact absurd hkind (hmarks entry (List.mem_of_find?_eq_some hmark))

namespace Cursor

theorem next_number {c c' : Cursor} {t : Token} (h : c.next = .ok t c') (ht : t.kind = .numberLiteral) :
    ∃ x, Numeral.ofBytes? t.bytes = some x := by
  unfold next at h
  split at h
  · cases h
  · next doc c₁ hskip =>
    split at h
    · cases h
    · next kind length hlex =>
      cases h
      obtain rfl : kind = .numberLiteral := ht
      obtain ⟨hne, rfl⟩ := lexeme_number hlex
      obtain ⟨fraction, htake, hfraction⟩ := take_numberLength c₁.rest
      show ∃ x, Numeral.ofBytes? (c₁.rest.take (numberLength c₁.rest)) = some x
      rw [htake]
      exact Numeral.exists_ofBytes? hne (fun b hb => List.mem_takeWhile_imp hb) hfraction

/-- Every number that the lexer lets pass has a value. -/
theorem stream_numbers (c : Cursor) : ∀ t ∈ c.stream.tokens, t.kind = .numberLiteral →
    ∃ x, Numeral.ofBytes? t.bytes = some x := by
  fun_induction stream c with
  | case1 | case2 => exact List.forall_mem_nil _
  | case3 c t c' hnext hne s ih => exact List.forall_mem_cons.2 ⟨next_number hnext, ih⟩

end Cursor

end ScriptIndex
