import ScriptIndex.Proofs.Respacing
import ScriptIndex.Proofs.ScriptRelocation

/-! # Tokens of a text that goes on

What ends before the end of a text is read in the same way if the text goes on, and a semicolon begins no longer
mark. So after a text that ends with a semicolon come the tokens of what is appended to it
(`Stream.ofBytes_append`). -/

namespace ScriptIndex

section
variable {bytes : List UInt8} (tail : List UInt8)

theorem takeWhile_extend {p : UInt8 → Bool} (h : (bytes.takeWhile p).length < bytes.length) :
    (bytes ++ tail).takeWhile p = bytes.takeWhile p := by
  rw [List.takeWhile_append, if_neg (Nat.ne_of_lt h)]

theorem isPrefixOf_extend {mark : List UInt8} (h : mark.length ≤ bytes.length) :
    mark.isPrefixOf (bytes ++ tail) = mark.isPrefixOf bytes := by
  rw [Bool.eq_iff_iff, List.isPrefixOf_iff_prefix, List.isPrefixOf_iff_prefix]
  exact ⟨fun hpre => List.prefix_of_prefix_length_le hpre (List.prefix_append _ _) h,
    fun hpre => hpre.trans (List.prefix_append _ _)⟩

theorem offsetOf?_extend {mark : List UInt8} (hne : mark ≠ []) {n : Nat} (h : offsetOf? mark bytes = some n) :
    offsetOf? mark (bytes ++ tail) = some n ∧ n + mark.length ≤ bytes.length := by
  obtain ⟨inner, after, rfl, rfl, hfirst⟩ := offsetOf?_eq_some h
  refine ⟨?_, by simp⟩
  rw [List.append_assoc, List.append_assoc]
  exact offsetOf?_append hne hfirst

theorem opensDoc_extend (h : 4 ≤ bytes.length) : opensDoc (bytes ++ tail) = opensDoc bytes := by
  have hopen : (ascii "/**").isPrefixOf (bytes ++ tail) = (ascii "/**").isPrefixOf bytes :=
    isPrefixOf_extend tail (Nat.le_of_succ_le h)
  have hempty : (ascii "/**/").isPrefixOf (bytes ++ tail) = (ascii "/**/").isPrefixOf bytes := isPrefixOf_extend tail h
  rw [opensDoc, opensDoc, hopen, hempty]

/-- Two bytes tell whether a comment begins. -/
theorem opens_extend (h : 2 ≤ bytes.length) :
    (ascii "//").isPrefixOf (bytes ++ tail) = (ascii "//").isPrefixOf bytes ∧
      (ascii "/*").isPrefixOf (bytes ++ tail) = (ascii "/*").isPrefixOf bytes :=
  ⟨isPrefixOf_extend tail h, isPrefixOf_extend tail h⟩

/-- A gap that something comes after. -/
theorem gap?_extend {gap : Gap} (h : gap? bytes = .ok (some gap)) (hlt : gap.length < bytes.length) :
    gap? (bytes ++ tail) = .ok (some gap) := by
  have hpos : 0 < bytes.length := Nat.zero_lt_of_lt hlt
  unfold gap? at h ⊢
  dsimp only at h ⊢
  by_cases hblank : bytes.takeWhile Byte.isBlank = []
  · rw [takeWhile_extend tail (by rw [hblank]; exact hpos), if_neg (not_not.2 hblank)]
    rw [if_neg (not_not.2 hblank)] at h
    split_ifs at h with hline hblock
    · cases h
      rw [isPrefixOf_extend tail (isPrefixOf_length_le hline), if_pos hline, takeWhile_extend tail hlt]
    · have htwo : 2 ≤ bytes.length := isPrefixOf_length_le hblock
      rw [(opens_extend tail htwo).1, (opens_extend tail htwo).2, if_neg hline, if_pos hblock,
        List.drop_append_of_le_length htwo]
      cases hoffset : offsetOf? (ascii "*/") (bytes.drop 2) with
      | none => rw [hoffset] at h; cases h
      | some n =>
        rw [hoffset] at h
        cases h
        have hmark : ascii "*/" ≠ [] := List.cons_ne_nil _ _
        obtain ⟨hextend, hle⟩ := offsetOf?_extend tail hmark hoffset
        rw [List.length_drop, show (ascii "*/").length = 2 from rfl] at hle
        rw [hextend, opensDoc_extend tail (by omega)]
    · cases h
  · rw [if_pos hblank] at h
    cases h
    rw [takeWhile_extend tail hlt, if_pos hblank]

/-- No gap begins where none did, unless a slash is all there was. -/
theorem gap?_extend_none (h : gap? bytes = .ok none) (hne : bytes ≠ []) (hslash : bytes ≠ [0x2F]) :
    gap? (bytes ++ tail) = .ok none := by
  have hpos : 0 < bytes.length := List.length_pos_iff.2 hne
  have hopens : (ascii "//").isPrefixOf (bytes ++ tail) = (ascii "//").isPrefixOf bytes ∧
      (ascii "/*").isPrefixOf (bytes ++ tail) = (ascii "/*").isPrefixOf bytes := by
    match bytes, hne, hslash with
    | [b], _, hslash =>
      have hb : (0x2F == b) = false := beq_false_of_ne fun heq => hslash (heq ▸ rfl)
      have hopen (mark : List UInt8) (rest : List UInt8) : (0x2F :: mark).isPrefixOf (b :: rest) = false := by
        rw [List.isPrefixOf_cons_cons, hb, Bool.false_and]
      exact ⟨(hopen _ _).trans (hopen _ _).symm, (hopen _ _).trans (hopen _ _).symm⟩
    | b :: c :: rest, _, _ => exact opens_extend tail (Nat.le_add_left 2 _)
  unfold gap? at h ⊢
  dsimp only at h ⊢
  by_cases hblank : bytes.takeWhile Byte.isBlank = []
  · rw [takeWhile_extend tail (by rw [hblank]; exact hpos), if_neg (not_not.2 hblank), hopens.1, hopens.2]
    rw [if_neg (not_not.2 hblank)] at h
    split_ifs at h ⊢
    · cases h
    · cases hoffset : offsetOf? (ascii "*/") (bytes.drop 2) <;> rw [hoffset] at h <;> cases h
    · rfl
  · rw [if_pos hblank] at h
    cases h

/-- The kinds of words. -/
theorem wordKind_ne_semicolon (word : List UInt8) : wordKind word ≠ .semicolon := by
  have hkeyword : ∀ entry ∈ TokenKind.keywords, entry.2 ≠ .semicolon := by decide
  rcases wordKind_cases word with h | ⟨entry, hmem, h⟩ <;> rw [h]
  · decide
  · exact hkeyword entry hmem

theorem numberLength_extend (h : numberLength bytes < bytes.length) :
    numberLength (bytes ++ tail) = numberLength bytes := by
  have hsplit := congrArg List.length (List.takeWhile_append_dropWhile (p := Byte.isDigit) (l := bytes))
  rw [List.length_append] at hsplit
  unfold numberLength at h ⊢
  dsimp only at h ⊢
  cases hrest : bytes.dropWhile Byte.isDigit with
  | nil =>
    rw [hrest] at h hsplit
    exact absurd hsplit (Nat.ne_of_lt h)
  | cons b rest =>
    rw [hrest] at h hsplit
    have hwhole : (bytes.takeWhile Byte.isDigit).length < bytes.length := by
      rw [List.length_cons] at hsplit
      omega
    have hdrop : (bytes ++ tail).dropWhile Byte.isDigit = b :: (rest ++ tail) := by
      rw [List.dropWhile_append, hrest]
      rfl
    rw [hdrop, takeWhile_extend tail hwhole]
    dsimp only at h ⊢
    split_ifs at h ⊢ with hdot
    · rw [takeWhile_extend tail]
      rw [List.length_cons] at hsplit
      omega
    · rfl

/-- What begins a mark is the longest mark found in itself, or none, and no semicolon. -/
theorem punctuator?_extend {entry : String × TokenKind} (h : punctuator? bytes = some entry)
    (hend : (ascii entry.1).length < bytes.length ∨ entry.2 = .semicolon) :
    punctuator? (bytes ++ tail) = some entry := by
  have htable : ∀ mark ∈ TokenKind.punctuators, ∀ n < (ascii mark.1).length, 0 < n →
      ∀ entry ∈ punctuator? ((ascii mark.1).take n), (ascii entry.1).length = n ∧ entry.2 ≠ .semicolon := by
    decide
  have hpre := isPrefixOf_length_le (List.find?_some h :)
  have hpos := punctuator_length_pos h
  have hsame : ∀ mark ∈ TokenKind.punctuators,
      (ascii mark.1).isPrefixOf (bytes ++ tail) = (ascii mark.1).isPrefixOf bytes := by
    intro mark hmark
    rcases Nat.lt_or_ge bytes.length (ascii mark.1).length with hlt | hle
    · have hnot : ¬ (ascii mark.1).isPrefixOf bytes = true := fun hpre =>
        absurd (isPrefixOf_length_le hpre) (Nat.not_le.2 hlt)
      rw [Bool.eq_false_iff.2 hnot, Bool.eq_false_iff]
      intro hlong
      -- the text would begin the mark
      have htake : bytes = (ascii mark.1).take bytes.length := by
        obtain ⟨rest, hrest⟩ := List.isPrefixOf_iff_prefix.1 hlong
        have h := congrArg (List.take bytes.length) hrest
        rwa [List.take_left, List.take_append_of_le_length (Nat.le_of_lt hlt), eq_comm] at h
      rw [htake] at h
      obtain ⟨hlength, hkind⟩ := htable mark hmark bytes.length hlt (Nat.lt_of_lt_of_le hpos hpre) entry h
      rcases hend with hend | hend
      · exact Nat.ne_of_lt hend hlength
      · exact hkind hend
    · exact isPrefixOf_extend tail hle
  rw [punctuator?, ← List.head?_filter] at h ⊢
  rw [List.filter_congr hsame]
  exact h

/-- A token that something comes after, or a semicolon. -/
theorem lexeme_extend {kind : TokenKind} {length : Nat} (h : lexeme bytes = .ok (kind, length)) (hkind : kind ≠ .eof)
    (hend : length < bytes.length ∨ kind = .semicolon) : lexeme (bytes ++ tail) = .ok (kind, length) := by
  cases bytes with
  | nil =>
    cases h
    exact absurd rfl hkind
  | cons b rest =>
    rw [List.cons_append]
    unfold lexeme at h ⊢
    dsimp only at h ⊢
    split_ifs at h with hword hdigit hmalformed hquote
    · cases h
      rw [if_pos hword]
      rcases hend with hend | hend
      · rw [takeWhile_extend tail (Nat.lt_of_succ_lt_succ hend)]
      · exact absurd hend (wordKind_ne_semicolon _)
    · cases h
      rcases hend with hend | hend
      · have hlength := numberLength_extend tail hend
        have hnext : ((b :: rest ++ tail).drop (numberLength (b :: rest))).head? =
            ((b :: rest).drop (numberLength (b :: rest))).head? := by
          rw [List.drop_append_of_le_length (Nat.le_of_lt hend), List.head?_append_of_ne_nil]
          exact List.drop_eq_nil_iff.not.2 (Nat.not_le.2 hend)
        rw [List.cons_append] at hlength hnext
        rw [if_neg hword, if_pos hdigit, hlength, hnext, if_neg hmalformed]
      · cases hend
    · rw [if_neg hword, if_neg hdigit, if_pos hquote]
      cases hread : Quoted.read b rest with
      | cut n => rw [hread] at h; cases h
      | closed n =>
        rw [hread] at h
        obtain ⟨⟨hn, hb⟩, inside, behind, hinside, rfl, rfl⟩ := Quoted.read_eq_closed hread
        have hextend := hinside.read hn hb (behind ++ tail)
        rw [List.append_assoc, List.cons_append, hextend]
        exact h
    · rw [if_neg hword, if_neg hdigit, if_neg hquote]
      cases hmark : punctuator? (b :: rest) with
      | none => rw [hmark] at h; cases h
      | some entry =>
        rw [hmark] at h
        cases h
        have hextend := punctuator?_extend tail hmark hend
        rw [List.cons_append] at hextend
        rw [hextend]

end

namespace Cursor

/-- The same place of a text that goes on. -/
def extend (c : Cursor) (tail : List UInt8) : Cursor := ⟨c.pos, c.rest ++ tail⟩

variable {c c' : Cursor} (tail : List UInt8)

theorem extend_advance {n : Nat} (h : n ≤ c.rest.length) : (c.extend tail).advance n = (c.advance n).extend tail := by
  rw [advance, extend, extend, advance, List.drop_append_of_le_length h]

theorem skipGaps_extend {doc doc' : Option DocText} (h : c.skipGaps doc = .ok doc' c') (hne : c'.rest ≠ [])
    (hslash : c'.rest ≠ [0x2F]) : (c.extend tail).skipGaps doc = .ok doc' (c'.extend tail) := by
  fun_induction skipGaps c doc with
  | case1 => cases h
  | case2 c doc hgap =>
    cases h
    exact skipGaps_of_none (gap?_extend_none tail hgap hne hslash)
  | case3 c doc gap hgap ih =>
    have hlt : gap.length < c.rest.length := by
      have hle := skipGaps_length_le h
      have hpos : 0 < c'.rest.length := List.length_pos_iff.2 hne
      rw [advance, List.length_drop] at hle
      omega
    have hdoc : (c.extend tail).docText gap.length = c.docText gap.length := by
      rw [docText, docText, extend, List.take_append_of_le_length (by omega)]
    rw [skipGaps_of_some (gap?_extend tail hgap hlt), extend_advance tail (Nat.le_of_lt hlt), hdoc]
    exact ih h

/-- A token that something comes after, or a semicolon. -/
theorem next_extend {t : Token} (h : c.next = .ok t c') (ht : t.kind ≠ .eof)
    (hend : c'.rest ≠ [] ∨ t.kind = .semicolon) : (c.extend tail).next = .ok t (c'.extend tail) := by
  unfold next at h ⊢
  cases hskip : c.skipGaps none with
  | error e c₁ => rw [hskip] at h; cases h
  | ok doc c₁ =>
    rw [hskip] at h
    dsimp only at h
    cases hlex : lexeme c₁.rest with
    | error fault => rw [hlex] at h; cases h
    | ok entry =>
      obtain ⟨kind, length⟩ := entry
      rw [hlex] at h
      cases h
      obtain ⟨hpos, hne⟩ := lexeme_length hlex ht
      have hle := (lexeme_le hlex).1
      have hlength : length < c₁.rest.length ∨ kind = .semicolon :=
        hend.imp_left fun hrest => Nat.lt_of_not_le fun hle => hrest (List.drop_eq_nil_iff.2 hle)
      have hslash : c₁.rest ≠ [0x2F] := by
        intro heq
        rw [heq] at hlex hlength
        cases hlex
        rcases hlength with hlt | hkind
        · exact Nat.lt_irrefl 1 hlt
        · cases hkind
      rw [skipGaps_extend tail hskip (List.length_pos_iff.1 hne) hslash]
      dsimp only
      rw [show (c₁.extend tail).rest = c₁.rest ++ tail from rfl, lexeme_extend tail hlex ht hlength]
      dsimp only
      rw [extend_advance tail hle, List.take_append_of_le_length hle]
      rfl

theorem stream_of_nil (h : c.rest = []) : c.stream.tokens = [] := by
  obtain ⟨span, hnext⟩ := next_eq (h.trans (List.append_nil _).symm) (List.forall_mem_nil _) rfl
    (rfl : lexeme [] = .ok (.eof, 0))
  rw [stream_of_eof hnext rfl]

/-- After a semicolon at the end of the source come the tokens of what is appended. -/
theorem stream_extend {source : List UInt8} {last : Token} (hc : c.Within source)
    (hlast : c.stream.tokens.getLast? = some last) (hkind : last.kind = .semicolon)
    (hstop : last.span.stop = source.length) :
    (c.extend tail).stream =
      ⟨c.stream.tokens ++ (stream ⟨source.length, tail⟩).tokens, (stream ⟨source.length, tail⟩).last⟩ := by
  fun_induction stream c with
  | case1 | case2 => cases hlast
  | case3 c t c' hnext hne s ih =>
    obtain ⟨-, hc', hpos, -⟩ := next_follows hc hnext
    cases hs : s.tokens with
    | nil =>
      rw [hs] at hlast
      obtain rfl : t = last := Option.some.inj hlast
      obtain ⟨front, hsource, hfront⟩ := hc'
      have hrest : c'.rest = [] := by
        have hlength := congrArg List.length hsource
        rw [List.length_append, ← hfront, hpos, hstop] at hlength
        exact List.eq_nil_of_length_eq_zero (by omega)
      have hend : c'.extend tail = ⟨source.length, tail⟩ := by
        rw [extend, hrest, hpos, hstop]
        rfl
      rw [stream_of_next (next_extend tail hnext hne (.inr hkind)) hne, hend]
      rfl
    | cons u us =>
      have hrest : c'.rest ≠ [] := fun hnil => by
        have hs' : s.tokens = [] := stream_of_nil hnil
        cases hs.symm.trans hs'
      have ih := ih hc' (by rw [← hlast, hs]; rfl)
      rw [stream_of_next (next_extend tail hnext hne (.inl hrest)) hne, ih, ← hs]
      rfl

end Cursor

/-- What is appended to a source is read as a text of its own that begins where the source ends. -/
theorem Stream.ofBytes_append {source : List UInt8} {last : Token}
    (hlast : (ofBytes source).tokens.getLast? = some last) (hkind : last.kind = .semicolon)
    (hstop : last.span.stop = source.length) (tail : List UInt8) :
    ofBytes (source ++ tail) =
      ⟨(ofBytes source).tokens ++ (Cursor.stream ⟨source.length, tail⟩).tokens,
        (Cursor.stream ⟨source.length, tail⟩).last⟩ :=
  Cursor.stream_extend tail (c := .ofBytes source) ⟨[], rfl, rfl⟩ hlast hkind hstop

/-! ### The same text elsewhere -/

namespace Relocation
variable {m : Relocation}

variable (m) in
/-- Both texts give something or are refused. -/
inductive Found {α : Type} (R : α → α → Prop) :
    EStateM.Result SyntaxError Cursor α → EStateM.Result SyntaxError Cursor α → Prop
  | ok {a b : α} {c c' : Cursor} (h : R a b) (hc : m.Cursors c c') : Found R (.ok a c) (.ok b c')
  | error {e e' : SyntaxError} {c c' : Cursor} (h : m.Errors e e') : Found R (.error e c) (.error e' c')

namespace Cursors
variable {c c' : Cursor} (h : m.Cursors c c')
include h

theorem docText (length : Nat) : m.DocTexts (c.docText length) (c'.docText length) :=
  ⟨m.near_add 3 h.pos, by rw [Cursor.docText, Cursor.docText, h.rest]⟩

theorem errorAt (fault : Fault) : m.Errors (fault.errorAt c.pos) (fault.errorAt c'.pos) :=
  ⟨rfl, ⟨h.pos, m.near_add _ h.pos⟩, rfl⟩

theorem skipGaps {doc doc' : Option DocText} (hdoc : Option.Rel m.DocTexts doc doc') :
    m.Found (Option.Rel m.DocTexts) (c.skipGaps doc) (c'.skipGaps doc') := by
  fun_induction Cursor.skipGaps c doc generalizing c' doc' with
  | case1 c doc fault hgap =>
    rw [Cursor.skipGaps_of_error (h.rest ▸ hgap)]
    exact .error (h.errorAt fault)
  | case2 c doc hgap =>
    rw [Cursor.skipGaps_of_none (h.rest ▸ hgap)]
    exact .ok hdoc h
  | case3 c doc gap hgap ih =>
    have hgap' : gap? c'.rest = .ok (some gap) := h.rest ▸ hgap
    rw [Cursor.skipGaps_of_some hgap']
    refine ih (h.advance _) ?_
    cases gap.isDoc
    · exact hdoc
    · exact .some (h.docText _)

theorem next : m.Found m.Tokens c.next c'.next := by
  have hskip := h.skipGaps .none
  unfold Cursor.next
  generalize c.skipGaps none = r at hskip
  generalize c'.skipGaps none = r' at hskip
  cases hskip with
  | error he => exact .error he
  | @ok doc doc' c₁ c₁' hdoc hc =>
    dsimp only
    rw [hc.rest]
    split
    · exact .error (hc.errorAt _)
    · exact .ok ⟨rfl, ⟨hc.pos, m.near_add _ hc.pos⟩, rfl, hdoc⟩ (hc.advance _)

theorem stream : m.Streams c.stream c'.stream := by
  induction c using Cursor.stream.induct generalizing c' with
  | case1 c e c₁ hn =>
    have hnext := h.next
    rw [hn] at hnext
    generalize hn' : c'.next = r' at hnext
    cases hnext with
    | error he =>
      rw [Cursor.stream_of_error hn, Cursor.stream_of_error hn']
      exact ⟨.nil, .error he⟩
  | case2 c t c₁ hn ht =>
    have hnext := h.next
    rw [hn] at hnext
    generalize hn' : c'.next = r' at hnext
    cases hnext with
    | ok htoken hc =>
      rw [Cursor.stream_of_eof hn ht, Cursor.stream_of_eof hn' (htoken.kind.trans ht)]
      exact ⟨.nil, .ok htoken⟩
  | case3 c t c₁ hn ht ih =>
    have hnext := h.next
    rw [hn] at hnext
    generalize hn' : c'.next = r' at hnext
    cases hnext with
    | ok htoken hc =>
      rw [Cursor.stream_of_next hn ht, Cursor.stream_of_next hn' (htoken.kind ▸ ht)]
      exact ⟨.cons htoken (ih hc).tokens, (ih hc).last⟩

end Cursors

end Relocation

end ScriptIndex
