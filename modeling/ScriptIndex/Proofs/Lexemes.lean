import Mathlib.Data.List.Forall2
import ScriptIndex.Proofs.Encoding
import ScriptIndex.Token.Lexer

/-! # Reading back the tokens of a text

A `Lexeme` is a token without its place. Lexemes that are written with blanks between them, and before and
after them, are the tokens of the text (`Written.stream`). -/

namespace ScriptIndex

structure Lexeme where
  kind : TokenKind
  bytes : List UInt8
deriving Repr, DecidableEq

/-- The token is the lexeme, without documentation before it. -/
structure Token.Shows (t : Token) (w : Lexeme) : Prop where
  kind : t.kind = w.kind
  bytes : t.bytes = w.bytes
  doc : t.doc = none

/-- The tokens are the lexemes, and after them the text ends. -/
structure Stream.Shows (s : Stream) (ws : List Lexeme) : Prop where
  tokens : List.Forall₂ Token.Shows s.tokens ws
  last : ∃ t, s.last = .ok t ∧ t.kind = .eof ∧ t.doc = none

/-- A text that a token may end before: it is empty or begins with a blank. -/
def Delimits (tail : List UInt8) : Prop := ∀ b ∈ tail.head?, Byte.isBlank b = true

/-- Before a blank or the end of the text, the lexeme reads as itself. -/
structure Lexeme.Reads (w : Lexeme) : Prop where
  kind : w.kind ≠ .eof
  gap? (tail : List UInt8) (h : Delimits tail) : gap? (w.bytes ++ tail) = .ok none
  lexeme (tail : List UInt8) (h : Delimits tail) : lexeme (w.bytes ++ tail) = .ok (w.kind, w.bytes.length)

/-- The text holds the lexemes with blanks between them. -/
inductive Written : List Lexeme → List UInt8 → Prop
  | nil {blanks : List UInt8} (h : ∀ b ∈ blanks, Byte.isBlank b = true) : Written [] blanks
  | cons {w : Lexeme} {ws : List Lexeme} {blanks tail : List UInt8} (h : ∀ b ∈ blanks, Byte.isBlank b = true)
      (hw : w.Reads) (ht : Delimits tail) (hws : Written ws tail) : Written (w :: ws) (blanks ++ (w.bytes ++ tail))

namespace Delimits

theorem nil : Delimits [] := by
  intro b hb
  cases hb

theorem cons {b : UInt8} (hb : Byte.isBlank b = true) (rest : List UInt8) : Delimits (b :: rest) := by
  intro b' hb'
  cases hb'
  exact hb

/-- A class of bytes without blanks ends before it. -/
theorem takeWhile {p : UInt8 → Bool} (hp : ∀ b, Byte.isBlank b = true → p b = false) {bytes tail : List UInt8}
    (h : ∀ b ∈ bytes, p b = true) (ht : Delimits tail) : (bytes ++ tail).takeWhile p = bytes := by
  rw [List.takeWhile_append_of_pos h]
  cases tail with
  | nil => simp
  | cons b rest => simp [hp b (ht b rfl)]

theorem dropWhile {p : UInt8 → Bool} (hp : ∀ b, Byte.isBlank b = true → p b = false) {bytes tail : List UInt8}
    (h : ∀ b ∈ bytes, p b = true) (ht : Delimits tail) : (bytes ++ tail).dropWhile p = tail := by
  rw [List.dropWhile_append_of_pos h]
  cases tail with
  | nil => rfl
  | cons b rest => simp [hp b (ht b rfl)]

/-- What has no blanks begins no longer text than before it. -/
theorem isPrefixOf_append {tail : List UInt8} (ht : Delimits tail) :
    ∀ {a : List UInt8}, a.any Byte.isBlank = false → ∀ bytes : List UInt8,
      a.isPrefixOf (bytes ++ tail) = a.isPrefixOf bytes
  | [], _, _ => by simp
  | x :: a, h, y :: bytes => by
    rw [List.any_cons, Bool.or_eq_false_iff] at h
    rw [List.cons_append, List.isPrefixOf_cons_cons, List.isPrefixOf_cons_cons, isPrefixOf_append ht h.2 bytes]
  | x :: a, h, [] => by
    rw [List.any_cons, Bool.or_eq_false_iff] at h
    cases tail with
    | nil => rfl
    | cons b tail =>
      have hne : x ≠ b := by
        rintro rfl
        exact absurd (ht x rfl) (Bool.eq_false_iff.1 h.1)
      show (x == b && _) = false
      rw [beq_false_of_ne hne, Bool.false_and]

end Delimits

namespace Byte

/-- The blanks, one by one. -/
theorem isBlank_cases {b : UInt8} (h : isBlank b = true) : b = 0x20 ∨ b = 0x09 ∨ b = 0x0A ∨ b = 0x0C ∨ b = 0x0D := by
  simp only [isBlank, newline, Bool.or_eq_true, beq_iff_eq, or_assoc] at h
  exact h

theorem isWordStart_of_isBlank {b : UInt8} (h : isBlank b = true) : isWordStart b = false := by
  rcases isBlank_cases h with rfl | rfl | rfl | rfl | rfl <;> rfl

theorem isWordPart_of_isBlank {b : UInt8} (h : isBlank b = true) : isWordPart b = false := by
  rcases isBlank_cases h with rfl | rfl | rfl | rfl | rfl <;> rfl

theorem isDigit_of_isBlank {b : UInt8} (h : isBlank b = true) : isDigit b = false := by
  rcases isBlank_cases h with rfl | rfl | rfl | rfl | rfl <;> rfl

end Byte

/-- Whether the text begins with neither a blank nor a comment. -/
def isGapless (bytes : List UInt8) : Bool :=
  bytes.head?.any (!Byte.isBlank ·) && !(ascii "//").isPrefixOf bytes && !(ascii "/*").isPrefixOf bytes

theorem isGapless_cons {b : UInt8} (hb : Byte.isBlank b = false) (hslash : b ≠ 0x2F) (rest : List UInt8) :
    isGapless (b :: rest) = true := by
  have hne : (0x2F == b) = false := beq_false_of_ne (Ne.symm hslash)
  have hline : (ascii "//").isPrefixOf (b :: rest) = (0x2F == b && (ascii "/").isPrefixOf rest) := rfl
  have hblock : (ascii "/*").isPrefixOf (b :: rest) = (0x2F == b && (ascii "*").isPrefixOf rest) := rfl
  simp [isGapless, hb, hline, hblock, hne]

theorem gap?_append {bytes tail : List UInt8} (h : isGapless bytes = true) (ht : Delimits tail) :
    gap? (bytes ++ tail) = .ok none := by
  cases bytes with
  | nil => cases h
  | cons b rest =>
    simp only [isGapless, List.head?_cons, Option.any_some, Bool.and_eq_true, Bool.not_eq_true'] at h
    obtain ⟨⟨hb, hline⟩, hblock⟩ := h
    rw [← ht.isPrefixOf_append (by decide)] at hline hblock
    simp only [gap?, hline, hblock]
    simp [hb]

/-- Blanks before what begins with no gap are one gap. -/
theorem gap?_blanks {b : UInt8} {blanks rest : List UInt8} (hb : Byte.isBlank b = true)
    (h : ∀ b ∈ blanks, Byte.isBlank b = true) (hrest : gap? rest = .ok none) :
    gap? (b :: blanks ++ rest) = .ok (some ⟨blanks.length + 1, false⟩) := by
  have hstop : rest.takeWhile Byte.isBlank = [] := by
    by_contra hne
    simp [gap?, hne] at hrest
  have htake : (b :: blanks ++ rest).takeWhile Byte.isBlank = b :: blanks := by
    rw [List.takeWhile_append_of_pos (List.forall_mem_cons.2 ⟨hb, h⟩), hstop, List.append_nil]
  simp only [gap?]
  rw [htake, if_pos (List.cons_ne_nil b blanks)]
  rfl

namespace Cursor

section
variable {c c' : Cursor} {doc : Option DocText}

theorem skipGaps_of_error {fault : Fault} (h : ScriptIndex.gap? c.rest = .error fault) :
    c.skipGaps doc = .error (fault.errorAt c.pos) (c.advance fault.passed) := by
  rw [skipGaps.eq_def]
  split
  · next hg => cases hg.symm.trans h; rfl
  · next hg => cases hg.symm.trans h
  · next hg => cases hg.symm.trans h

theorem skipGaps_of_none (h : ScriptIndex.gap? c.rest = .ok none) : c.skipGaps doc = .ok doc c := by
  rw [skipGaps.eq_def]
  split
  · next hg => cases hg.symm.trans h
  · rfl
  · next hg => cases hg.symm.trans h

theorem skipGaps_of_some {gap : Gap} (h : ScriptIndex.gap? c.rest = .ok (some gap)) :
    c.skipGaps doc = (c.advance gap.length).skipGaps (if gap.isDoc then some (c.docText gap.length) else doc) := by
  rw [skipGaps.eq_def]
  split
  · next hg => cases hg.symm.trans h
  · next hg => cases hg.symm.trans h
  · next hg => cases hg.symm.trans h; rfl

theorem stream_of_error {e : SyntaxError} (h : c.next = .error e c') : c.stream = ⟨[], .error e⟩ := by
  rw [stream.eq_def]
  split
  · next hn => cases h.symm.trans hn; rfl
  · next hn => cases h.symm.trans hn

theorem stream_of_eof {t : Token} (h : c.next = .ok t c') (ht : t.kind = .eof) : c.stream = ⟨[], .ok t⟩ := by
  rw [stream.eq_def]
  split
  · next hn => cases h.symm.trans hn
  · next hn =>
    cases h.symm.trans hn
    rw [dif_pos ht]

theorem stream_of_next {t : Token} (h : c.next = .ok t c') (ht : t.kind ≠ .eof) :
    c.stream = ⟨t :: c'.stream.tokens, c'.stream.last⟩ := by
  rw [stream.eq_def]
  split
  · next hn => cases h.symm.trans hn
  · next hn =>
    cases h.symm.trans hn
    rw [dif_neg ht]

end

theorem skipGaps_blanks {c : Cursor} {blanks rest : List UInt8} (hc : c.rest = blanks ++ rest)
    (h : ∀ b ∈ blanks, Byte.isBlank b = true) (hrest : gap? rest = .ok none) :
    c.skipGaps none = .ok none (c.advance blanks.length) := by
  cases blanks with
  | nil => exact skipGaps_of_none (hc ▸ hrest)
  | cons b blanks =>
    have hgap := gap?_blanks (h b (List.mem_cons_self ..)) (fun b hb => h b (List.mem_cons_of_mem _ hb)) hrest
    rw [skipGaps_of_some (hc ▸ hgap)]
    refine skipGaps_of_none ?_
    simpa [advance, hc] using hrest

/-- After blanks the next token is the lexeme found there. -/
theorem next_eq {c : Cursor} {blanks rest : List UInt8} {kind : TokenKind} {length : Nat}
    (hc : c.rest = blanks ++ rest) (h : ∀ b ∈ blanks, Byte.isBlank b = true) (hgap : gap? rest = .ok none)
    (hlex : lexeme rest = .ok (kind, length)) :
    ∃ span, c.next = .ok ⟨kind, span, rest.take length, none⟩ ((c.advance blanks.length).advance length) := by
  have hrest : (c.advance blanks.length).rest = rest := by simp [advance, hc]
  refine ⟨⟨c.pos + blanks.length, c.pos + blanks.length + length⟩, ?_⟩
  simp only [next, skipGaps_blanks hc h hgap, hrest, hlex]
  rfl

end Cursor

theorem Written.stream {ws : List Lexeme} {bytes : List UInt8} (h : Written ws bytes) :
    ∀ c : Cursor, c.rest = bytes → c.stream.Shows ws := by
  induction h with
  | nil h =>
    intro c hc
    obtain ⟨span, hnext⟩ := Cursor.next_eq (hc.trans (List.append_nil _).symm) h rfl rfl
    rw [Cursor.stream_of_eof hnext rfl]
    exact ⟨.nil, _, rfl, rfl, rfl⟩
  | @cons w ws blanks tail h hw ht _ ih =>
    intro c hc
    obtain ⟨span, hnext⟩ := Cursor.next_eq hc h (hw.gap? _ ht) (hw.lexeme _ ht)
    have hrest : ((c.advance blanks.length).advance w.bytes.length).rest = tail := by simp [Cursor.advance, hc]
    have ih := ih _ hrest
    rw [Cursor.stream_of_next hnext hw.kind]
    exact ⟨.cons ⟨rfl, List.take_left, rfl⟩ ih.tokens, ih.last⟩

/-- Documentation comments are left out of a text without them. -/
theorem Stream.Shows.withoutDocs {s : Stream} {ws : List Lexeme} (h : s.Shows ws) : s.withoutDocs.Shows ws := by
  obtain ⟨t, ht, hkind, -⟩ := h.last
  have htokens : List.Forall₂ Token.Shows s.withoutDocs.tokens ws :=
    List.forall₂_map_left_iff.2 (h.tokens.imp fun _ _ h => ⟨h.kind, h.bytes, rfl⟩)
  refine ⟨htokens, { t with doc := none }, ?_, hkind, rfl⟩
  show s.last.map _ = _
  rw [ht]
  rfl

namespace TokenKind

/-- How a keyword or a mark is written. -/
def spelling (kind : TokenKind) : String :=
  match (keywords ++ punctuators).find? (·.2 == kind) with
  | some entry => entry.1
  | none => ""

end TokenKind

/-- The bytes of a word: of a keyword, or of an identifier in ASCII. -/
def isWord : List UInt8 → Bool
  | [] => false
  | b :: rest => Byte.isWordStart b && rest.all Byte.isWordPart

theorem wordKind_cases (bytes : List UInt8) :
    wordKind bytes = .identifier ∨ ∃ entry ∈ TokenKind.keywords, wordKind bytes = entry.2 := by
  unfold wordKind
  split
  · next h => exact .inr ⟨_, List.mem_of_find?_eq_some h, rfl⟩
  · exact .inl rfl

namespace Lexeme

/-- A keyword or a mark. -/
def fixed (kind : TokenKind) : Lexeme := ⟨kind, ascii kind.spelling⟩

theorem reads_word {bytes : List UInt8} (h : isWord bytes = true) : (⟨wordKind bytes, bytes⟩ : Lexeme).Reads := by
  cases bytes with
  | nil => cases h
  | cons b rest =>
    simp only [isWord, Bool.and_eq_true, List.all_eq_true] at h
    obtain ⟨hb, hrest⟩ := h
    have hblank : Byte.isBlank b = false := by
      by_contra hblank
      rw [Byte.isWordStart_of_isBlank (Bool.of_not_eq_false hblank)] at hb
      cases hb
    have hslash : b ≠ 0x2F := by
      rintro rfl
      cases hb
    refine ⟨?_, fun tail ht => gap?_append (isGapless_cons hblank hslash rest) ht, fun tail ht => ?_⟩
    · have hkeyword : ∀ entry ∈ TokenKind.keywords, entry.2 ≠ .eof := by decide
      show wordKind (b :: rest) ≠ .eof
      rcases wordKind_cases (b :: rest) with h | ⟨entry, hmem, h⟩ <;> rw [h]
      · decide
      · exact hkeyword entry hmem
    · simp only [List.cons_append, lexeme, hb, if_true, ht.takeWhile (fun _ => Byte.isWordPart_of_isBlank) hrest]

theorem reads_keyword {entry : String × TokenKind} (h : entry ∈ TokenKind.keywords) :
    (⟨entry.2, ascii entry.1⟩ : Lexeme).Reads := by
  have hword : ∀ entry ∈ TokenKind.keywords, isWord (ascii entry.1) = true ∧ wordKind (ascii entry.1) = entry.2 := by
    decide
  obtain ⟨hw, hk⟩ := hword entry h
  exact hk ▸ reads_word hw

/-- No mark reaches beyond a blank, so the longest mark before one is the longest before the end. -/
theorem punctuator?_append (bytes : List UInt8) {tail : List UInt8} (ht : Delimits tail) :
    punctuator? (bytes ++ tail) = punctuator? bytes := by
  have hblank : ∀ entry ∈ TokenKind.punctuators, (ascii entry.1).any Byte.isBlank = false := by decide
  rw [punctuator?, punctuator?, ← List.head?_filter, ← List.head?_filter]
  exact congrArg List.head? (List.filter_congr fun entry hentry => ht.isPrefixOf_append (hblank entry hentry) bytes)

theorem reads_punctuator {entry : String × TokenKind} (h : entry ∈ TokenKind.punctuators) :
    (⟨entry.2, ascii entry.1⟩ : Lexeme).Reads := by
  have hall : ∀ entry ∈ TokenKind.punctuators, entry.2 ≠ .eof ∧ isGapless (ascii entry.1) = true ∧
      punctuator? (ascii entry.1) = some entry ∧ (ascii entry.1).head?.any (fun b =>
        !Byte.isWordStart b && !Byte.isDigit b && !Byte.isQuote b) = true := by
    decide
  obtain ⟨heof, hgapless, hfind, hhead⟩ := hall entry h
  refine ⟨heof, fun tail ht => gap?_append hgapless ht, fun tail ht => ?_⟩
  have hfind := (punctuator?_append (ascii entry.1) ht).trans hfind
  dsimp only
  generalize hbytes : ascii entry.1 = bytes at hhead hfind
  cases bytes with
  | nil => cases hhead
  | cons b rest =>
    simp only [List.head?_cons, Option.any_some, Bool.and_eq_true, Bool.not_eq_true'] at hhead
    obtain ⟨⟨hstart, hdigit⟩, hquote⟩ := hhead
    rw [List.cons_append] at hfind
    simp [lexeme, hstart, hdigit, hquote, hfind, hbytes]

/-- A keyword or a mark reads as itself; the kinds left out have no spelling. -/
theorem reads_fixed {kind : TokenKind} (h : kind.spelling ≠ "") : (fixed kind).Reads := by
  unfold fixed TokenKind.spelling at *
  split at h
  · next entry hfind =>
    have hkind : entry.2 = kind := eq_of_beq (List.find?_some hfind :)
    rw [← hkind]
    rcases List.mem_append.1 (List.mem_of_find?_eq_some hfind) with hmem | hmem
    · exact reads_keyword hmem
    · exact reads_punctuator hmem
  · exact absurd rfl h

end Lexeme

theorem Byte.of_isDigit {b : UInt8} (h : isDigit b = true) :
    isBlank b = false ∧ isWordStart b = false ∧ b ≠ 0x2F := by
  have hall : ∀ n < 0x100, isDigit (UInt8.ofNat n) = true →
      isBlank (UInt8.ofNat n) = false ∧ isWordStart (UInt8.ofNat n) = false ∧ UInt8.ofNat n ≠ 0x2F := by
    decide +kernel
  have hb := hall b.toNat b.toNat_lt
  rw [UInt8.ofNat_toNat] at hb
  exact hb h

/-- The bytes of a number: digits, and perhaps a dot and more digits. -/
def numberBytes (whole : List UInt8) : Option (List UInt8) → List UInt8
  | none => whole
  | some fraction => whole ++ 0x2E :: fraction

theorem numberLength_append {whole : List UInt8} {fraction : Option (List UInt8)} {tail : List UInt8}
    (hw : ∀ b ∈ whole, Byte.isDigit b = true) (hf : ∀ ds ∈ fraction, ∀ b ∈ ds, Byte.isDigit b = true)
    (ht : Delimits tail) : numberLength (numberBytes whole fraction ++ tail) = (numberBytes whole fraction).length := by
  have hdigit := fun b => Byte.isDigit_of_isBlank (b := b)
  cases fraction with
  | none =>
    have htake := ht.takeWhile hdigit hw
    have hdrop := ht.dropWhile hdigit hw
    simp only [numberLength, numberBytes, htake, hdrop]
    split
    · rfl
    · next b rest =>
      have hne : b ≠ '.'.toUInt8 := by
        rintro rfl
        exact absurd (ht _ rfl) (by decide)
      simp [hne]
  | some ds =>
    have htake := ht.takeWhile hdigit (hf ds rfl)
    have hdot : (0x2E :: (ds ++ tail)).takeWhile Byte.isDigit = [] := rfl
    have hdot' : (0x2E :: (ds ++ tail)).dropWhile Byte.isDigit = 0x2E :: (ds ++ tail) := rfl
    have hmark : (0x2E == '.'.toUInt8) = true := rfl
    simp only [numberLength, numberBytes, List.append_assoc, List.cons_append, List.takeWhile_append_of_pos hw,
      List.dropWhile_append_of_pos hw, hdot, hdot', htake, hmark, if_true, List.append_nil]
    simp only [List.length_append, List.length_cons]
    omega

theorem Lexeme.reads_number {whole : List UInt8} {fraction : Option (List UInt8)} (hne : whole ≠ [])
    (hw : ∀ b ∈ whole, Byte.isDigit b = true) (hf : ∀ ds ∈ fraction, ∀ b ∈ ds, Byte.isDigit b = true) :
    (⟨.numberLiteral, numberBytes whole fraction⟩ : Lexeme).Reads := by
  obtain ⟨b, rest, rfl⟩ := List.exists_cons_of_ne_nil hne
  obtain ⟨hblank, hstart, hslash⟩ := Byte.of_isDigit (hw b (List.mem_cons_self ..))
  obtain ⟨more, hbytes⟩ : ∃ more, numberBytes (b :: rest) fraction = b :: more := by
    cases fraction <;> exact ⟨_, rfl⟩
  refine ⟨TokenKind.noConfusion, fun tail ht => ?_, fun tail ht => ?_⟩
  · dsimp only
    rw [hbytes]
    exact gap?_append (isGapless_cons hblank hslash _) ht
  · have hlength := numberLength_append hw hf ht
    have hdrop : ((numberBytes (b :: rest) fraction ++ tail).drop (numberBytes (b :: rest) fraction).length) = tail :=
      List.drop_left
    have hnext : tail.head?.any Byte.isWordStart = false := by
      cases tail with
      | nil => rfl
      | cons c tail => exact Byte.isWordStart_of_isBlank (ht c rfl)
    dsimp only
    rw [hbytes] at hlength hdrop ⊢
    rw [List.cons_append] at hlength hdrop ⊢
    have hdigit := hw b (List.mem_cons_self ..)
    simp only [lexeme, hstart, hdigit, hlength, hdrop, hnext]
    rfl

namespace Quoted
variable {quote b : UInt8} {inside inside' : List UInt8}

/-- What may stand between the quotes of a string literal: bytes that are no line feed, quote or backslash, and
escapes, in which a backslash takes whatever byte follows it. -/
inductive Inside (quote : UInt8) : List UInt8 → Prop
  | nil : Inside quote []
  | plain {b : UInt8} {rest : List UInt8} (hn : b ≠ Byte.newline) (hb : b ≠ Byte.backslash) (hq : b ≠ quote)
      (h : Inside quote rest) : Inside quote (b :: rest)
  | escape (b : UInt8) {rest : List UInt8} (h : Inside quote rest) : Inside quote (Byte.backslash :: b :: rest)

theorem Inside.of_plain : ∀ {bytes : List UInt8},
    (∀ b ∈ bytes, b ≠ Byte.newline ∧ b ≠ Byte.backslash ∧ b ≠ quote) → Inside quote bytes
  | [], _ => .nil
  | _ :: _, h =>
    have ⟨⟨hn, hb, hq⟩, hrest⟩ := List.forall_mem_cons.1 h
    .plain hn hb hq (of_plain hrest)

theorem Inside.append (h : Inside quote inside) (h' : Inside quote inside') : Inside quote (inside ++ inside') := by
  induction h with
  | nil => exact h'
  | plain hn hb hq _ ih => exact .plain hn hb hq ih
  | escape b _ ih => exact .escape b ih

theorem read_quote (hn : quote ≠ Byte.newline) (hb : quote ≠ Byte.backslash) (rest : List UInt8) :
    read quote (quote :: rest) = closed 1 := by
  cases rest <;> simp [read, hn, hb]

theorem read_cons (hn : b ≠ Byte.newline) (hb : b ≠ Byte.backslash) (hq : b ≠ quote) (rest : List UInt8) :
    read quote (b :: rest) = (read quote rest).after 1 := by
  cases rest <;> simp [read, hn, hb, hq, after]

theorem Inside.read (h : Inside quote inside) (hn : quote ≠ Byte.newline) (hb : quote ≠ Byte.backslash)
    (tail : List UInt8) : Quoted.read quote (inside ++ quote :: tail) = closed (inside.length + 1) := by
  induction h with
  | nil => exact read_quote hn hb tail
  | plain hn' hb' hq' _ ih => rw [List.cons_append, read_cons hn' hb' hq', ih, after, Nat.add_comm, List.length_cons]
  | escape b _ ih =>
    simp only [List.cons_append, Quoted.read, ih]
    rw [if_neg (by decide), if_pos (by decide), after, Nat.add_comm]
    rfl

theorem after_eq_closed {q : Quoted} {n length : Nat} (h : q.after n = .closed length) :
    ∃ k, q = .closed k ∧ length = n + k := by
  cases q with
  | closed k =>
    cases h
    exact ⟨k, rfl, rfl⟩
  | cut => cases h

/-- A literal closes with the first quote that is not in an escape. -/
theorem read_eq_closed : ∀ {bytes : List UInt8} {length : Nat}, read quote bytes = closed length →
    (quote ≠ Byte.newline ∧ quote ≠ Byte.backslash) ∧
      ∃ inside tail, Inside quote inside ∧ bytes = inside ++ quote :: tail ∧ length = inside.length + 1
  | [], _, h => by
    rw [read] at h
    cases h
  | [b], _, h => by
    rw [read] at h
    split_ifs at h with hn hb hq
    cases h
    obtain rfl : b = quote := eq_of_beq hq
    exact ⟨⟨mt beq_iff_eq.2 hn, mt beq_iff_eq.2 hb⟩, [], [], .nil, rfl, rfl⟩
  | b :: c :: rest, _, h => by
    rw [read] at h
    split_ifs at h with hn hb hq
    · obtain ⟨k, hk, rfl⟩ := after_eq_closed h
      obtain ⟨hquote, inside, tail, hinside, rfl, rfl⟩ := read_eq_closed hk
      obtain rfl : b = Byte.backslash := eq_of_beq hb
      exact ⟨hquote, _, tail, .escape c hinside, rfl, Nat.add_comm 2 _⟩
    · cases h
      obtain rfl : b = quote := eq_of_beq hq
      exact ⟨⟨mt beq_iff_eq.2 hn, mt beq_iff_eq.2 hb⟩, [], c :: rest, .nil, rfl, rfl⟩
    · obtain ⟨k, hk, rfl⟩ := after_eq_closed h
      obtain ⟨hquote, inside, tail, hinside, hbytes, rfl⟩ := read_eq_closed hk
      have hplain := Inside.plain (mt beq_iff_eq.2 hn) (mt beq_iff_eq.2 hb) (mt beq_iff_eq.2 hq) hinside
      exact ⟨hquote, _, tail, hplain, congrArg (b :: ·) hbytes, Nat.add_comm 1 _⟩

end Quoted

theorem Byte.of_isQuote {b : UInt8} (h : isQuote b = true) :
    isBlank b = false ∧ isWordStart b = false ∧ isDigit b = false ∧ b ≠ 0x2F ∧ b ≠ newline ∧ b ≠ backslash := by
  rw [isQuote, Bool.or_eq_true, beq_iff_eq, beq_iff_eq] at h
  rcases h with rfl | rfl <;> decide

theorem gap?_quote {quote : UInt8} (h : Byte.isQuote quote = true) (tail : List UInt8) :
    gap? (quote :: tail) = .ok none := by
  obtain ⟨hblank, -, -, hslash, -⟩ := Byte.of_isQuote h
  have hgap := gap?_append (isGapless_cons hblank hslash tail) .nil
  rwa [List.append_nil] at hgap

section
variable {quote : UInt8} {inside : List UInt8} (hquote : Byte.isQuote quote = true) (h : Quoted.Inside quote inside)
include hquote h

/-- A literal is read whatever comes after it. -/
theorem lexeme_string (tail : List UInt8) :
    lexeme (quote :: (inside ++ quote :: tail)) = .ok (.stringLiteral, inside.length + 2) := by
  obtain ⟨-, hstart, hdigit, -, hn, hb⟩ := Byte.of_isQuote hquote
  simp [lexeme, hstart, hdigit, hquote, h.read hn hb]

theorem Lexeme.reads_string : (⟨.stringLiteral, quote :: (inside ++ [quote])⟩ : Lexeme).Reads := by
  refine ⟨TokenKind.noConfusion, fun tail _ => gap?_quote hquote _, fun tail _ => ?_⟩
  have hlexeme := lexeme_string hquote h tail
  simpa using hlexeme

end

end ScriptIndex
