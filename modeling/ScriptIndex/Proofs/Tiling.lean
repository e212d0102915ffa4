import Mathlib.Data.List.Infix
import Mathlib.Data.List.TakeWhile
import Mathlib.Tactic.SplitIfs
import ScriptIndex.Proofs.Lexemes

/-! # Tokens and gaps tile a source

Between two tokens stand pieces: blanks and comments. What stands there tells the pieces apart
(`Piece.eq_of_stands`), so that it has a last documentation comment or none. `Stream.Tiles` says that tokens
and pieces make up a source. -/

namespace ScriptIndex

/-! ### Pieces of a gap -/

/-- What may stand between tokens. Comments are given with their marks. -/
inductive Piece
  | blank (byte : UInt8)
  | line (text : List UInt8)
  | block (text : List UInt8)
deriving Repr, DecidableEq

namespace Piece

def bytes : Piece → List UInt8
  | blank byte => [byte]
  | line text | block text => text

/-- What the piece has to be, given what comes after it. A line comment goes on to the next line feed or to
the end, a block comment to the first closing mark after its opening mark. -/
def StandsBefore (rest : List UInt8) : Piece → Prop
  | blank byte => Byte.isBlank byte = true
  | line text => ascii "//" <+: text ∧ Byte.newline ∉ text ∧ (rest = [] ∨ rest.head? = some Byte.newline)
  | block text => ∃ inner, text = ascii "/*" ++ (inner ++ ascii "*/") ∧
      ∀ i < inner.length, ¬ ascii "*/" <+: (inner ++ ascii "*/").drop i

def isDoc : Piece → Bool
  | block text => (ascii "/**").isPrefixOf text && text != ascii "/**/"
  | blank _ | line _ => false

def bytesOf (pieces : List Piece) : List UInt8 := pieces.flatMap bytes

/-- The pieces stand one after the other before the rest. -/
def Fit (rest : List UInt8) : List Piece → Prop
  | [] => True
  | p :: pieces => p.StandsBefore (bytesOf pieces ++ rest) ∧ Fit rest pieces

/-- The contents of the last documentation comment among pieces that begin at a position. -/
def LastDoc (start : Nat) (pieces : List Piece) : Option DocText → Prop
  | none => ∀ p ∈ pieces, p.isDoc = false
  | some doc => ∃ before after,
      pieces = before ++ block (ascii "/**" ++ (doc.bytes ++ ascii "*/")) :: after ∧
      (∀ p ∈ after, p.isDoc = false) ∧
      doc.span = ⟨start + (bytesOf before).length + 3, start + (bytesOf before).length + 3 + doc.bytes.length⟩

end Piece

/-- The first place of a mark that occurs in a text. -/
theorem offsetOf?_eq_some {mark : List UInt8} : ∀ {bytes : List UInt8} {n : Nat}, offsetOf? mark bytes = some n →
    ∃ inner after, bytes = inner ++ (mark ++ after) ∧ inner.length = n ∧
      ∀ i < inner.length, ¬ mark <+: (inner ++ mark).drop i
  | [], n, h => by
    unfold offsetOf? at h
    split_ifs at h with hempty
    obtain rfl : mark = [] := List.isEmpty_iff.1 hempty
    cases h
    exact ⟨[], [], rfl, rfl, fun _ hi => absurd hi (Nat.not_lt_zero _)⟩
  | b :: rest, n, h => by
    unfold offsetOf? at h
    split_ifs at h with hmark
    · cases h
      obtain ⟨after, hafter⟩ := List.isPrefixOf_iff_prefix.1 hmark
      exact ⟨[], after, hafter.symm, rfl, fun _ hi => absurd hi (Nat.not_lt_zero _)⟩
    · obtain ⟨m, hm, rfl⟩ := Option.map_eq_some_iff.1 h
      obtain ⟨inner, after, rfl, rfl, hfirst⟩ := offsetOf?_eq_some hm
      refine ⟨b :: inner, after, rfl, rfl, fun i hi => ?_⟩
      cases i with
      | zero =>
        refine fun hpre => hmark (List.isPrefixOf_iff_prefix.2 (hpre.trans ⟨after, ?_⟩))
        simp
      | succ i => exact hfirst i (Nat.lt_of_succ_lt_succ hi)

theorem offsetOf?_append {mark after : List UInt8} (hne : mark ≠ []) : ∀ {inner : List UInt8},
    (∀ i < inner.length, ¬ mark <+: (inner ++ mark).drop i) →
      offsetOf? mark (inner ++ (mark ++ after)) = some inner.length
  | [], _ => by
    obtain ⟨b, rest, rfl⟩ := List.exists_cons_of_ne_nil hne
    have hpre : (b :: rest).isPrefixOf (b :: rest ++ after) = true :=
      List.isPrefixOf_iff_prefix.2 (List.prefix_append _ _)
    exact if_pos hpre
  | b :: inner, h => by
    have hnot : ¬ mark.isPrefixOf (b :: (inner ++ (mark ++ after))) = true := by
      intro hpre
      refine h 0 (Nat.succ_pos _) ?_
      have hlong : b :: (inner ++ mark) <+: b :: (inner ++ (mark ++ after)) := ⟨after, by simp⟩
      refine List.prefix_of_prefix_length_le (List.isPrefixOf_iff_prefix.1 hpre) hlong ?_
      simp
      omega
    have ih : offsetOf? mark (inner ++ (mark ++ after)) = some inner.length :=
      offsetOf?_append hne fun i hi => h (i + 1) (Nat.succ_lt_succ hi)
    rw [List.cons_append, offsetOf?, if_neg hnot, ih]
    rfl

namespace Piece
variable {p q : Piece} {ps qs : List Piece} {rest after : List UInt8}

theorem StandsBefore.bytes_ne_nil (h : p.StandsBefore rest) : p.bytes ≠ [] := by
  cases p with
  | blank byte => exact List.cons_ne_nil _ _
  | line text =>
    obtain ⟨tail, rfl⟩ := h.1
    exact List.cons_ne_nil _ _
  | block text =>
    obtain ⟨inner, rfl, -⟩ := h
    exact List.cons_ne_nil _ _

/-- The first two bytes tell the kinds of pieces apart. -/
theorem StandsBefore.head (h : p.StandsBefore rest) :
    match p with
    | blank byte => byte ≠ 0x2F
    | line text => ∃ tail, text = 0x2F :: 0x2F :: tail
    | block text => ∃ tail, text = 0x2F :: 0x2A :: tail := by
  cases p with
  | blank byte =>
    rintro rfl
    have hslash : Byte.isBlank 0x2F = false := by decide
    exact Bool.false_ne_true (hslash.symm.trans h)
  | line text =>
    obtain ⟨tail, rfl⟩ := h.1
    exact ⟨tail, rfl⟩
  | block text =>
    obtain ⟨inner, rfl, -⟩ := h
    exact ⟨inner ++ ascii "*/", rfl⟩

theorem line_eq_takeWhile {text : List UInt8} (h : (line text).StandsBefore rest) :
    text = (text ++ rest).takeWhile (· != Byte.newline) := by
  obtain ⟨-, hnone, hrest⟩ := h
  have hstop : rest.takeWhile (· != Byte.newline) = [] := by
    rcases hrest with rfl | hhead
    · rfl
    · obtain ⟨tail, rfl⟩ := List.head?_eq_some_iff.1 hhead
      rfl
  have htext : ∀ b ∈ text, (b != Byte.newline) = true := by
    intro b hb
    refine bne_iff_ne.2 ?_
    rintro rfl
    exact hnone hb
  rw [List.takeWhile_append_of_pos htext, hstop, List.append_nil]

/-- What stands somewhere tells which piece is first. -/
theorem eq_of_stands (hp : p.StandsBefore rest) (hq : q.StandsBefore after)
    (h : p.bytes ++ rest = q.bytes ++ after) : p = q := by
  have hhead := hp.head
  have hhead' := hq.head
  cases p with
  | blank byte =>
    cases q with
    | blank byte' => rw [(List.cons.inj h).1]
    | line text =>
      obtain ⟨tail, rfl⟩ := hhead'
      exact absurd (List.cons.inj h).1 hhead
    | block text =>
      obtain ⟨tail, rfl⟩ := hhead'
      exact absurd (List.cons.inj h).1 hhead
  | line text =>
    cases q with
    | blank byte' =>
      obtain ⟨tail, rfl⟩ := hhead
      exact absurd (List.cons.inj h).1.symm hhead'
    | line text' =>
      have htext : text = text' := by
        rw [line_eq_takeWhile hp, line_eq_takeWhile hq]
        exact congrArg _ h
      rw [htext]
    | block text' =>
      obtain ⟨tail, rfl⟩ := hhead
      obtain ⟨tail', rfl⟩ := hhead'
      exact absurd (List.cons.inj (List.cons.inj h).2).1 (by decide)
  | block text =>
    cases q with
    | blank byte' =>
      obtain ⟨tail, rfl⟩ := hhead
      exact absurd (List.cons.inj h).1.symm hhead'
    | line text' =>
      obtain ⟨tail, rfl⟩ := hhead
      obtain ⟨tail', rfl⟩ := hhead'
      exact absurd (List.cons.inj (List.cons.inj h).2).1 (by decide)
    | block text' =>
      obtain ⟨inner, rfl, hfirst⟩ := hp
      obtain ⟨inner', rfl, hfirst'⟩ := hq
      have hmark : ascii "*/" ≠ [] := List.cons_ne_nil _ _
      have hinner : inner ++ (ascii "*/" ++ rest) = inner' ++ (ascii "*/" ++ after) := by
        simpa [bytes, List.append_assoc] using h
      -- both are as long as the first closing mark is far
      have hoffset : offsetOf? (ascii "*/") (inner ++ (ascii "*/" ++ rest)) = some inner.length :=
        offsetOf?_append hmark hfirst
      rw [hinner, offsetOf?_append hmark hfirst'] at hoffset
      have hlength : inner.length = inner'.length := (Option.some.inj hoffset).symm
      rw [(List.append_inj hinner hlength).1]

theorem Fit.unique : ∀ {ps qs : List Piece}, Fit rest ps → Fit rest qs → bytesOf ps = bytesOf qs → ps = qs
  | [], [], _, _, _ => rfl
  | [], q :: qs, _, hq, h => by
    have hne := hq.1.bytes_ne_nil
    exact absurd (List.append_eq_nil_iff.1 h.symm).1 hne
  | p :: ps, [], hp, _, h => by
    have hne := hp.1.bytes_ne_nil
    exact absurd (List.append_eq_nil_iff.1 h).1 hne
  | p :: ps, q :: qs, hp, hq, h => by
    have h : p.bytes ++ bytesOf ps = q.bytes ++ bytesOf qs := h
    have heq : p = q := eq_of_stands hp.1 hq.1 (by rw [← List.append_assoc, h, List.append_assoc])
    subst heq
    rw [Fit.unique hp.2 hq.2 (List.append_cancel_left h)]

theorem bytesOf_append (ps qs : List Piece) : bytesOf (ps ++ qs) = bytesOf ps ++ bytesOf qs :=
  List.flatMap_append

theorem Fit.append : ∀ {ps : List Piece}, Fit (bytesOf qs ++ rest) ps → Fit rest qs → Fit rest (ps ++ qs)
  | [], _, hq => hq
  | p :: ps, hp, hq => by
    have happend : bytesOf (ps ++ qs) ++ rest = bytesOf ps ++ (bytesOf qs ++ rest) := by
      rw [bytesOf_append, List.append_assoc]
    refine ⟨?_, hp.2.append hq⟩
    show p.StandsBefore (bytesOf (ps ++ qs) ++ rest)
    rw [happend]
    exact hp.1

theorem fit_blanks : ∀ {blanks : List UInt8}, (∀ b ∈ blanks, Byte.isBlank b = true) → Fit rest (blanks.map blank)
  | [], _ => trivial
  | _ :: _, h => ⟨(List.forall_mem_cons.1 h).1, fit_blanks (List.forall_mem_cons.1 h).2⟩

theorem isDoc_block (inner : List UInt8) :
    (block (ascii "/*" ++ (inner ++ ascii "*/"))).isDoc = (inner.head? == some 0x2A) := by
  cases inner with
  | nil => rfl
  | cons b inner =>
    have hopen : (ascii "/**").isPrefixOf (ascii "/*" ++ (b :: inner ++ ascii "*/")) = (0x2A == b) := by
      show (true && (true && (0x2A == b && true))) = _
      simp
    have hlong : ascii "/*" ++ (b :: inner ++ ascii "*/") ≠ ascii "/**/" := by
      intro heq
      have hlength := congrArg List.length heq
      have hempty : (ascii "/**/").length = 4 := rfl
      have hmarks : (ascii "/*").length = 2 ∧ (ascii "*/").length = 2 := ⟨rfl, rfl⟩
      simp [hempty, hmarks] at hlength
      omega
    rw [isDoc, hopen, bne_iff_ne.2 hlong, Bool.and_true, BEq.comm]
    rfl

theorem dropWhile_newline : ∀ bytes : List UInt8,
    bytes.dropWhile (· != Byte.newline) = [] ∨ (bytes.dropWhile (· != Byte.newline)).head? = some Byte.newline
  | [] => .inl rfl
  | b :: rest => by
    rw [List.dropWhile_cons]
    split_ifs with hb
    · exact dropWhile_newline rest
    · obtain rfl : b = Byte.newline := by simpa using hb
      exact .inr rfl

theorem line_stands {bytes : List UInt8} (h : ascii "//" <+: bytes) :
    (line (bytes.takeWhile (· != Byte.newline))).StandsBefore (bytes.dropWhile (· != Byte.newline)) := by
  refine ⟨?_, fun hmem => ?_, dropWhile_newline bytes⟩
  · obtain ⟨tail, rfl⟩ := h
    exact ⟨tail.takeWhile (· != Byte.newline), rfl⟩
  · exact bne_iff_ne.1 (List.mem_takeWhile_imp (p := (· != Byte.newline)) hmem) rfl

end Piece

open Piece

/-- The mark of a documentation comment is told apart from that of an empty comment. -/
theorem opensDoc_block {inner after : List UInt8}
    (hfirst : ∀ i < inner.length, ¬ ascii "*/" <+: (inner ++ ascii "*/").drop i) :
    opensDoc (ascii "/*" ++ (inner ++ (ascii "*/" ++ after))) = (inner.head? == some 0x2A) := by
  have hopen (bytes : List UInt8) : opensDoc (ascii "/*" ++ bytes) =
      ((ascii "*").isPrefixOf bytes && !(ascii "*/").isPrefixOf bytes) := rfl
  rw [hopen]
  cases inner with
  | nil => rfl
  | cons b inner =>
    have hnot : (ascii "*/").isPrefixOf (b :: inner ++ (ascii "*/" ++ after)) = false := by
      refine Bool.eq_false_iff.2 fun hpre => hfirst 0 (Nat.succ_pos _) ?_
      refine List.prefix_of_prefix_length_le (List.isPrefixOf_iff_prefix.1 hpre) ⟨after, by simp⟩ ?_
      simp
      omega
    rw [hnot, Bool.not_false, Bool.and_true]
    show (0x2A == b && true) = _
    rw [Bool.and_true, BEq.comm]
    rfl

/-- A gap is a run of blanks or a comment. -/
theorem gap?_pieces {bytes : List UInt8} {gap : Gap} (h : gap? bytes = .ok (some gap)) :
    ∃ pieces rest, bytes = bytesOf pieces ++ rest ∧ gap.length = (bytesOf pieces).length ∧ Fit rest pieces ∧
      (gap.isDoc = true → ∃ inner, pieces = [block (ascii "/**" ++ (inner ++ ascii "*/"))]) ∧
      (gap.isDoc = false → ∀ p ∈ pieces, p.isDoc = false) := by
  have hone (p : Piece) : bytesOf [p] = p.bytes := List.append_nil _
  unfold gap? at h
  dsimp only at h
  split_ifs at h with hblank hline hblock
  · cases h
    have hall : ∀ b ∈ bytes.takeWhile Byte.isBlank, Byte.isBlank b = true := fun b hb => List.mem_takeWhile_imp hb
    have hbytes : ∀ blanks : List UInt8, bytesOf (blanks.map blank) = blanks := by
      intro blanks
      rw [bytesOf, List.flatMap_map]
      exact List.flatMap_singleton' blanks
    refine ⟨(bytes.takeWhile Byte.isBlank).map blank, bytes.dropWhile Byte.isBlank, ?_, ?_, fit_blanks hall, ?_, ?_⟩
    · rw [hbytes, List.takeWhile_append_dropWhile]
    · rw [hbytes]
    · exact fun h => by cases h
    · intro _ p hp
      obtain ⟨b, -, rfl⟩ := List.mem_map.1 hp
      rfl
  · cases h
    refine ⟨[line (bytes.takeWhile (· != Byte.newline))], bytes.dropWhile (· != Byte.newline), ?_, ?_,
      ⟨line_stands (List.isPrefixOf_iff_prefix.1 hline), trivial⟩, ?_, ?_⟩
    · rw [hone]
      exact List.takeWhile_append_dropWhile.symm
    · rw [hone]
      rfl
    · exact fun h => by cases h
    · exact fun _ => List.forall_mem_singleton.2 rfl
  · cases hoffset : offsetOf? (ascii "*/") (bytes.drop 2) with
    | none => rw [hoffset] at h; cases h
    | some n =>
      rw [hoffset] at h
      cases h
      obtain ⟨tail, rfl⟩ := List.isPrefixOf_iff_prefix.1 hblock
      obtain ⟨inner, after, htail, rfl, hfirst⟩ := offsetOf?_eq_some hoffset
      obtain rfl : tail = inner ++ (ascii "*/" ++ after) := htail
      refine ⟨[block (ascii "/*" ++ (inner ++ ascii "*/"))], after, ?_, ?_, ⟨⟨inner, rfl, hfirst⟩, trivial⟩, ?_, ?_⟩
      · rw [hone]
        simp [Piece.bytes]
      · rw [hone]
        simp [Piece.bytes, ascii]
      · intro hdoc
        rw [opensDoc_block hfirst] at hdoc
        obtain ⟨inner, rfl⟩ := List.head?_eq_some_iff.1 (eq_of_beq hdoc)
        exact ⟨inner, rfl⟩
      · intro hdoc
        rw [opensDoc_block hfirst] at hdoc
        exact List.forall_mem_singleton.2 ((isDoc_block inner).trans hdoc)
  · cases h

namespace Piece
variable {start : Nat} {ps qs : List Piece} {doc : DocText}

/-- Pieces in front do not make a documentation comment other than the last. -/
theorem LastDoc.append (h : LastDoc (start + (bytesOf qs).length) ps (some doc)) :
    LastDoc start (qs ++ ps) (some doc) := by
  obtain ⟨before, after, rfl, hafter, hspan⟩ := h
  refine ⟨qs ++ before, after, by rw [List.append_assoc], hafter, ?_⟩
  rw [hspan, bytesOf_append, List.length_append, Nat.add_assoc start]

end Piece

namespace Cursor

/-- The contents of a documentation comment at the cursor are what is between its marks. -/
theorem docText_eq {c : Cursor} {inner rest : List UInt8} {length : Nat}
    (hrest : c.rest = bytesOf [block (ascii "/**" ++ (inner ++ ascii "*/"))] ++ rest)
    (hlength : length = (bytesOf [block (ascii "/**" ++ (inner ++ ascii "*/"))]).length) :
    c.docText length = ⟨⟨c.pos + 3, c.pos + 3 + inner.length⟩, inner⟩ := by
  have hbytes : bytesOf [block (ascii "/**" ++ (inner ++ ascii "*/"))] = ascii "/**" ++ (inner ++ ascii "*/") :=
    List.append_nil _
  have hopen : (ascii "/**").length = 3 := rfl
  have hclose : (ascii "*/").length = 2 := rfl
  rw [hbytes] at hrest hlength
  have hstop : length - 2 = (ascii "/**" ++ inner).length := by
    simp only [hlength, List.length_append, hopen, hclose]
    omega
  have hinner : (c.rest.take (length - 2)).drop 3 = inner := by
    rw [hrest, hstop, List.append_assoc, List.append_assoc, ← List.append_assoc (ascii "/**"), List.take_left, ← hopen,
      List.drop_left]
  rw [docText, hinner, hstop, List.length_append, hopen, Nat.add_assoc]

theorem skipGaps_pieces {c c' : Cursor} {doc doc' : Option DocText} (h : c.skipGaps doc = .ok doc' c') :
    ∃ pieces, c.rest = bytesOf pieces ++ c'.rest ∧ c'.pos = c.pos + (bytesOf pieces).length ∧ Fit c'.rest pieces ∧
      (LastDoc c.pos pieces none ∧ doc' = doc ∨ ∃ d, doc' = some d ∧ LastDoc c.pos pieces (some d)) := by
  fun_induction skipGaps c doc with
  | case1 => cases h
  | case2 c doc hgap =>
    cases h
    exact ⟨[], rfl, rfl, trivial, .inl ⟨List.forall_mem_nil _, rfl⟩⟩
  | case3 c doc gap hgap ih =>
    obtain ⟨qs, rest, hrest, hlength, hqs, hdoc, hplain⟩ := gap?_pieces hgap
    have hadvance : (c.advance gap.length).rest = rest := by
      rw [advance, hlength, hrest, List.drop_left]
    have hpos : (c.advance gap.length).pos = c.pos + (bytesOf qs).length := by rw [advance, hlength]
    obtain ⟨ps, hps, hpos', hfit, hlast⟩ := ih h
    rw [hadvance] at hps
    rw [hpos] at hpos' hlast
    subst hps
    refine ⟨qs ++ ps, ?_, ?_, hqs.append hfit, ?_⟩
    · rw [hrest, bytesOf_append, List.append_assoc]
    · rw [hpos', bytesOf_append, List.length_append, Nat.add_assoc]
    · rcases hlast with ⟨hnone, rfl⟩ | ⟨d, rfl, hd⟩
      · cases hkind : gap.isDoc with
        | false => exact .inl ⟨List.forall_mem_append.2 ⟨hplain hkind, hnone⟩, rfl⟩
        | true =>
          obtain ⟨inner, rfl⟩ := hdoc hkind
          rw [dif_pos rfl, docText_eq hrest hlength]
          exact .inr ⟨_, rfl, [], ps, rfl, hnone, rfl⟩
      · exact .inr ⟨d, rfl, hd.append⟩

end Cursor

/-! ### Tokens -/

theorem Quoted.closed_le {quote : UInt8} {bytes : List UInt8} {length : Nat} (h : read quote bytes = .closed length) :
    length ≤ bytes.length := by
  obtain ⟨-, inside, tail, -, rfl, rfl⟩ := read_eq_closed h
  simp

theorem numberLength_le (bytes : List UInt8) : numberLength bytes ≤ bytes.length := by
  have hlength := congrArg List.length (List.takeWhile_append_dropWhile (p := Byte.isDigit) (l := bytes))
  rw [List.length_append] at hlength
  unfold numberLength
  dsimp only
  cases hrest : bytes.dropWhile Byte.isDigit with
  | nil => exact (List.takeWhile_prefix _).length_le
  | cons b rest =>
    have hfraction := (List.takeWhile_prefix (l := rest) Byte.isDigit).length_le
    rw [hrest, List.length_cons] at hlength
    dsimp only
    split_ifs <;> omega

/-- A lexeme is no longer than the text, and the end is found at the end only. -/
theorem lexeme_le {bytes : List UInt8} {kind : TokenKind} {length : Nat} (h : lexeme bytes = .ok (kind, length)) :
    length ≤ bytes.length ∧ (kind = .eof → bytes = []) := by
  cases bytes with
  | nil =>
    cases h
    exact ⟨Nat.le_refl _, fun _ => rfl⟩
  | cons b rest =>
    unfold lexeme at h
    dsimp only at h
    split_ifs at h with hword hdigit hmalformed hquote
    · cases h
      refine ⟨Nat.succ_le_succ (List.takeWhile_prefix _).length_le, fun heof => absurd heof ?_⟩
      have hkeyword : ∀ entry ∈ TokenKind.keywords, entry.2 ≠ .eof := by decide
      rcases wordKind_cases (b :: rest.takeWhile Byte.isWordPart) with h | ⟨entry, hmem, h⟩ <;> rw [h]
      · decide
      · exact hkeyword entry hmem
    · cases h
      exact ⟨numberLength_le _, fun heof => by cases heof⟩
    · cases hread : Quoted.read b rest with
      | closed n =>
        rw [hread] at h
        cases h
        exact ⟨Nat.succ_le_succ (Quoted.closed_le hread), fun heof => by cases heof⟩
      | cut n => rw [hread] at h; cases h
    · cases hmark : punctuator? (b :: rest) with
      | none => rw [hmark] at h; cases h
      | some entry =>
        rw [hmark] at h
        cases h
        have hpre := List.find?_some hmark
        have hkind : ∀ entry ∈ TokenKind.punctuators, entry.2 ≠ .eof := by decide
        exact ⟨isPrefixOf_length_le hpre, fun heof => absurd heof (hkind _ (List.mem_of_find?_eq_some hmark))⟩

namespace Span

/-- The bytes of a source that the span covers. -/
def slice (span : Span) (source : List UInt8) : List UInt8 := (source.take span.stop).drop span.start

theorem slice_append (front mid rest : List UInt8) :
    (⟨front.length, front.length + mid.length⟩ : Span).slice (front ++ (mid ++ rest)) = mid := by
  rw [slice, ← List.append_assoc, ← List.length_append, List.take_left, List.drop_left]

end Span

/-- The token comes next after the position: pieces, which fit in one way only, fill the source up to it, and
its documentation is the last among them. -/
structure Token.Follows (source : List UInt8) (start : Nat) (t : Token) : Prop where
  start_le : start ≤ t.span.start
  stop_le : t.span.stop ≤ source.length
  bytes : t.bytes = t.span.slice source
  gap : ∃ pieces, bytesOf pieces = (⟨start, t.span.start⟩ : Span).slice source ∧
    Fit (source.drop t.span.start) pieces ∧ LastDoc start pieces t.doc ∧
    ∀ others, bytesOf others = (⟨start, t.span.start⟩ : Span).slice source →
      Fit (source.drop t.span.start) others → others = pieces

/-- Tokens that follow one another from a position on, up to the end of the source or an error. -/
def Stream.Tiles (source : List UInt8) : Nat → List Token → Except SyntaxError Token → Prop
  | start, [], .ok t => t.kind = .eof ∧ t.span = ⟨source.length, source.length⟩ ∧ t.Follows source start
  | _, [], .error _ => True
  | start, t :: tokens, last => t.kind ≠ .eof ∧ t.span.start < t.span.stop ∧ t.Follows source start ∧
    Tiles source t.span.stop tokens last

namespace Cursor

/-- The cursor stands in the source. -/
def Within (source : List UInt8) (c : Cursor) : Prop := ∃ front, source = front ++ c.rest ∧ c.pos = front.length

theorem next_follows {source : List UInt8} {c c' : Cursor} {t : Token} (hc : c.Within source)
    (h : c.next = .ok t c') : t.Follows source c.pos ∧ c'.Within source ∧ c'.pos = t.span.stop ∧
      if t.kind = .eof then t.span = ⟨source.length, source.length⟩ else t.span.start < t.span.stop := by
  obtain ⟨front, hsource, hpos⟩ := hc
  unfold next at h
  cases hskip : c.skipGaps none with
  | error e c₁ => rw [hskip] at h; cases h
  | ok doc c₁ =>
    rw [hskip] at h
    dsimp only at h
    cases hlex : lexeme c₁.rest with
    | error fault => rw [hlex] at h; cases h
    | ok entry =>
      rw [hlex] at h
      obtain ⟨kind, length⟩ := entry
      cases h
      obtain ⟨pieces, hrest, hpos₁, hfit, hlast⟩ := skipGaps_pieces hskip
      obtain ⟨hle, heof⟩ := lexeme_le hlex
      have hfront : source = (front ++ bytesOf pieces) ++ c₁.rest := by
        rw [hsource, hrest, List.append_assoc]
      have hstart : c₁.pos = (front ++ bytesOf pieces).length := by
        rw [hpos₁, hpos, List.length_append]
      have hlength : source.length = c₁.pos + c₁.rest.length := by
        rw [hfront, List.length_append, hstart]
      have htext : (c₁.rest.take length).length = length := List.length_take_of_le hle
      have hdrop : source.drop c₁.pos = c₁.rest := by
        rw [hfront, hstart, List.drop_left]
      have hslice : (⟨c.pos, c₁.pos⟩ : Span).slice source = bytesOf pieces := by
        rw [hpos₁, hpos, hsource, hrest, Span.slice_append]
      have hbytes : (⟨c₁.pos, c₁.pos + length⟩ : Span).slice source = c₁.rest.take length := by
        have h := Span.slice_append (front ++ bytesOf pieces) (c₁.rest.take length) (c₁.rest.drop length)
        rwa [htext, List.take_append_drop, ← hfront, ← hstart] at h
      have hdoc : LastDoc c.pos pieces doc := by
        rcases hlast with ⟨hnone, rfl⟩ | ⟨d, rfl, hd⟩
        · exact hnone
        · exact hd
      refine ⟨⟨?_, ?_, hbytes.symm, pieces, hslice.symm, ?_, hdoc, fun others hothers hfit' => ?_⟩,
        ⟨front ++ bytesOf pieces ++ c₁.rest.take length, ?_, ?_⟩, rfl, ?_⟩
      · exact hpos₁ ▸ Nat.le_add_right _ _
      · show c₁.pos + length ≤ source.length
        omega
      · rwa [hdrop]
      · rw [hslice] at hothers
        rw [hdrop] at hfit'
        exact hfit'.unique hfit hothers
      · rw [List.append_assoc, advance, List.take_append_drop, hfront]
      · rw [List.length_append, htext, ← hstart]
        rfl
      · show if kind = .eof then (⟨c₁.pos, c₁.pos + length⟩ : Span) = ⟨source.length, source.length⟩
          else c₁.pos < c₁.pos + length
        split_ifs with hkind
        · rw [heof hkind, List.length_nil] at hlength hle
          have hzero : length = 0 := Nat.le_zero.1 hle
          rw [hzero, hlength]
          rfl
        · have hpositive := (lexeme_length hlex hkind).1
          omega

/-- The stream of a cursor tiles the source from the cursor on. -/
theorem stream_tiles {source : List UInt8} {c : Cursor} (hc : c.Within source) :
    Stream.Tiles source c.pos c.stream.tokens c.stream.last := by
  fun_induction stream c with
  | case1 c e c' hnext => trivial
  | case2 c t c' hnext heof =>
    obtain ⟨hfollows, -, -, hspan⟩ := next_follows hc hnext
    rw [if_pos heof] at hspan
    exact ⟨heof, hspan, hfollows⟩
  | case3 c t c' hnext hne s ih =>
    obtain ⟨hfollows, hc', hpos, hspan⟩ := next_follows hc hnext
    rw [if_neg hne] at hspan
    exact ⟨hne, hspan, hfollows, hpos ▸ ih hc'⟩

end Cursor

namespace Stream

theorem Tiles.pairwise {source : List UInt8} {last : Except SyntaxError Token} : ∀ {start : Nat} {tokens : List Token},
    Tiles source start tokens last → (∀ t ∈ tokens, start ≤ t.span.start) ∧
      tokens.Pairwise fun t u => t.span.stop ≤ u.span.start
  | _, [], _ => ⟨List.forall_mem_nil _, .nil⟩
  | start, t :: tokens, ⟨_, hlt, hfollows, htiles⟩ => by
    obtain ⟨hafter, hpairwise⟩ := htiles.pairwise
    refine ⟨List.forall_mem_cons.2 ⟨hfollows.start_le, fun u hu => ?_⟩, .cons hafter hpairwise⟩
    have hstart := hfollows.start_le
    have hu := hafter u hu
    omega

/-- Tokens and gaps tile every source up to the first error, and the tokens come in order. -/
theorem ofBytes_tiles (source : List UInt8) :
    Tiles source 0 (ofBytes source).tokens (ofBytes source).last ∧
      (ofBytes source).tokens.Pairwise fun t u => t.span.stop ≤ u.span.start := by
  have hc : (Cursor.ofBytes source).Within source := ⟨[], rfl, rfl⟩
  have htiles : Tiles source 0 (ofBytes source).tokens (ofBytes source).last := Cursor.stream_tiles hc
  exact ⟨htiles, htiles.pairwise.2⟩

/-- The shortest documentation comment, and after it a comment that is none. -/
example : (ofBytes (ascii "/***/ /**/ a")).tokens.map (·.doc) = [some ⟨⟨3, 3⟩, []⟩] := by
  decide +kernel

end Stream

end ScriptIndex
