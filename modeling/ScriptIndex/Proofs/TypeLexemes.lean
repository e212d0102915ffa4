import ScriptIndex.Proofs.Encoding
import ScriptIndex.Proofs.TypePhrases

/-! # The lexemes of types in a text

What the bytes of a lexeme are, and what comes next in a text that is made of lexemes and blanks: after the blanks
the text begins with the first lexeme (`Spaced.passed`), and a word is the longest run of bytes of its kind. -/

namespace ScriptIndex

theorem isDottedChar_of_name {c : Char} (h : isNameChar c = true) : isDottedChar c = true := by
  rw [isDottedChar, h]
  rfl

theorem isDottedChar_ascii {c : Char} (h : isDottedChar c = true) : c.toNat < 0x80 := by
  delta isDottedChar isNameChar Char.isAlphanum Char.isAlpha Char.isUpper Char.isLower Char.isDigit at h
  simp only [Bool.or_eq_true, Bool.and_eq_true, decide_eq_true_eq, beq_iff_eq, UInt32.le_iff_toNat_le] at h
  rcases h with ((((⟨-, h⟩ | ⟨-, h⟩) | ⟨-, h⟩) | rfl) | rfl) | rfl
  · exact Nat.lt_of_le_of_lt h (by decide)
  · exact Nat.lt_of_le_of_lt h (by decide)
  · exact Nat.lt_of_le_of_lt h (by decide)
  · decide
  · decide
  · decide

/-- The characters of ASCII can be gone through. -/
theorem forall_ascii {p : Char → Prop} (h : ∀ n < 0x80, p (Char.ofNat n)) {c : Char} (hc : c.toNat < 0x80) :
    p c := by
  rw [← Char.ofNat_toNat c]
  exact h c.toNat hc

/-- What may stand in a name is neither a blank nor a brace. -/
theorem isDottedChar_byte {c : Char} (h : isDottedChar c = true) :
    Byte.isTypeNamePart c.toUInt8 = true ∧ Byte.isBlank c.toUInt8 = false ∧ c.toUInt8 ≠ Mention.openBrace ∧
      c.toUInt8 ≠ Mention.closeBrace :=
  forall_ascii (p := fun c => isDottedChar c = true → Byte.isTypeNamePart c.toUInt8 = true ∧
    Byte.isBlank c.toUInt8 = false ∧ c.toUInt8 ≠ Mention.openBrace ∧ c.toUInt8 ≠ Mention.closeBrace)
    (by decide) (isDottedChar_ascii h) h

/-- What begins a segment of a name begins no other type. -/
theorem isNameChar_ne {c : Char} (h : isNameChar c = true) : c.toUInt8 ∉ ascii "?!*.(" :=
  forall_ascii (p := fun c => isNameChar c = true → c.toUInt8 ∉ ascii "?!*.(") (by decide)
    (isDottedChar_ascii (isDottedChar_of_name h)) h

theorem isNameChar_of_isAlpha {c : Char} (h : c.isAlpha = true) : isNameChar c = true := by
  simp [isNameChar, Char.isAlphanum, h]

theorem isLetter_of_isAlpha {c : Char} (h : c.isAlpha = true) : Byte.isLetter c.toUInt8 = true :=
  forall_ascii (p := fun c => c.isAlpha = true → Byte.isLetter c.toUInt8 = true) (by decide)
    (isDottedChar_ascii (isDottedChar_of_name (isNameChar_of_isAlpha h))) h

theorem not_isTypeNamePart_of_isBlank {b : UInt8} (h : Byte.isBlank b = true) : Byte.isTypeNamePart b = false := by
  simp only [Byte.isBlank, Bool.or_eq_true, beq_iff_eq] at h
  rcases h with (((rfl | rfl) | rfl) | rfl) | rfl <;> decide

theorem typeSigns_byte {c : Char} (h : c ∈ typeSigns) : Byte.isTypeNamePart c.toUInt8 = false ∧
    Byte.isBlank c.toUInt8 = false ∧ c.toUInt8 ≠ Mention.openBrace ∧ c.toUInt8 ≠ Mention.closeBrace := by
  have hall : (typeSigns.all fun c => !Byte.isTypeNamePart c.toUInt8 && !Byte.isBlank c.toUInt8 &&
      c.toUInt8 != Mention.openBrace && c.toUInt8 != Mention.closeBrace) = true := by decide
  simpa [and_assoc] using List.all_eq_true.1 hall c h

theorem Utf8.decode_ascii {text : String} (h : text.toList.all isDottedChar = true) : decode (ascii text) = text := by
  have hencode : ascii text = encode text := by
    rw [ascii, encode, List.map_eq_flatMap]
    refine List.flatMap_congr fun c hc => ?_
    exact forall_ascii (p := fun c => [c.toUInt8] = String.utf8EncodeChar c) (by decide)
      (isDottedChar_ascii (List.all_eq_true.1 h c hc))
  rw [hencode, decode_encode]

theorem TypeName.head?_ne (x : TypeName) {b : UInt8} (hb : b ∈ ascii "?!*.(") : x.lexeme.bytes.head? ≠ some b := by
  obtain ⟨first, hfirst, hchar⟩ := x.exists_head?
  have hhead : x.lexeme.bytes.head? = some first.toUInt8 := by
    show (ascii x.text).head? = _
    rw [ascii, List.head?_map, hfirst]
    rfl
  rw [hhead]
  rintro ⟨⟩
  exact isNameChar_ne hchar hb

namespace TypeLexeme

/-- What no lexeme holds: blanks and braces. -/
theorem plain (w : TypeLexeme) : ∀ b ∈ w.bytes,
    Byte.isBlank b = false ∧ b ≠ Mention.openBrace ∧ b ≠ Mention.closeBrace := by
  intro b hb
  cases w with
  | sign c h =>
    cases List.mem_singleton.1 hb
    exact (typeSigns_byte h).2
  | word text ne chars =>
    obtain ⟨c, hc, rfl⟩ := List.mem_map.1 hb
    exact (isDottedChar_byte (List.all_eq_true.1 chars c hc)).2

theorem bytes_ne_nil (w : TypeLexeme) : w.bytes ≠ [] := by
  cases w with
  | sign => exact List.cons_ne_nil _ _
  | word text ne => simpa [bytes, ascii] using ne

end TypeLexeme

/-- The text begins with the first of the lexemes. -/
def Faces : List TypeLexeme → List UInt8 → Prop
  | [], text => text = []
  | w :: lexemes, text => ∃ tail, text = w.bytes ++ tail ∧ Spaced lexemes tail

/-- The first byte of what comes next, apart from blanks. -/
def nextByte : List TypeLexeme → Option UInt8
  | [] => none
  | w :: _ => w.bytes.head?

namespace Spaced
variable {lexemes : List TypeLexeme} {text : List UInt8}

theorem passed (h : Spaced lexemes text) : Faces lexemes (text.drop (text.takeWhile Byte.isBlank).length) := by
  induction h with
  | nil => rfl
  | blank hb h ih => rwa [List.takeWhile_cons_of_pos hb]
  | @lexeme w lexemes text h =>
    obtain ⟨b, bytes, hw⟩ := List.exists_cons_of_ne_nil w.bytes_ne_nil
    have hb : Byte.isBlank b = false := (w.plain b (hw ▸ List.mem_cons_self ..)).1
    rw [hw, List.cons_append, List.takeWhile_cons_of_neg (by simp [hb])]
    exact ⟨text, by simp [hw], h⟩

theorem plain (h : Spaced lexemes text) : ∀ b ∈ text, b ≠ Mention.openBrace ∧ b ≠ Mention.closeBrace := by
  induction h with
  | nil => simp
  | @blank b _ _ hb h ih =>
    refine List.forall_mem_cons.2 ⟨?_, ih⟩
    constructor <;> rintro rfl <;> exact absurd hb (by decide)
  | lexeme w h ih => exact List.forall_mem_append.2 ⟨fun b hb => (w.plain b hb).2, ih⟩

theorem length_le (h : Spaced lexemes text) : lexemes.length ≤ text.length := by
  induction h with
  | nil => exact Nat.le_refl _
  | blank hb h ih => exact Nat.le_succ_of_le ih
  | lexeme w h ih =>
    have hpos : 0 < w.bytes.length := List.length_pos_iff.2 w.bytes_ne_nil
    rw [List.length_append, List.length_cons]
    omega

end Spaced

namespace Faces
variable {lexemes : List TypeLexeme} {text : List UInt8}

theorem spaced (h : Faces lexemes text) : Spaced lexemes text := by
  cases lexemes with
  | nil =>
    cases h
    exact .nil
  | cons w lexemes =>
    obtain ⟨tail, rfl, h⟩ := h
    exact .lexeme w h

theorem head? (h : Faces lexemes text) : text.head? = nextByte lexemes := by
  cases lexemes with
  | nil =>
    cases h
    rfl
  | cons w lexemes =>
    obtain ⟨tail, rfl, -⟩ := h
    exact List.head?_append_of_ne_nil _ w.bytes_ne_nil

/-- A word comes next, as a whole. -/
theorem takeWhile_word {word : String} {ne chars} (h : Faces (.word word ne chars :: lexemes) text)
    (hnext : (nextByte lexemes).any Byte.isTypeNamePart = false) :
    text.takeWhile Byte.isTypeNamePart = ascii word ∧ Spaced lexemes (text.drop (ascii word).length) := by
  obtain ⟨tail, rfl, h⟩ := h
  have hword : ∀ b ∈ ascii word, Byte.isTypeNamePart b = true := by
    intro b hb
    obtain ⟨c, hc, rfl⟩ := List.mem_map.1 hb
    exact (isDottedChar_byte (List.all_eq_true.1 chars c hc)).1
  have htail : tail.takeWhile Byte.isTypeNamePart = [] := by
    cases h with
    | nil => rfl
    | blank hb => exact List.takeWhile_cons_of_neg (by simp [not_isTypeNamePart_of_isBlank hb])
    | lexeme w h =>
      obtain ⟨b, bytes, hw⟩ := List.exists_cons_of_ne_nil w.bytes_ne_nil
      rw [nextByte, hw] at hnext
      rw [hw]
      exact List.takeWhile_cons_of_neg (by simpa using hnext)
  refine ⟨?_, by simpa [TypeLexeme.bytes] using h⟩
  show (ascii word ++ tail).takeWhile _ = _
  rw [List.takeWhile_append_of_pos hword, htail, List.append_nil]

theorem takeWhile_sign {mark : Char} {hmark : mark ∈ typeSigns} (h : Faces (.sign mark hmark :: lexemes) text) :
    text.takeWhile Byte.isTypeNamePart = [] := by
  obtain ⟨tail, rfl, -⟩ := h
  exact List.takeWhile_cons_of_neg (by simp [(typeSigns_byte hmark).1])

end Faces

end ScriptIndex
