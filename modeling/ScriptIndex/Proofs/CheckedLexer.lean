import ScriptIndex.Proofs.CheckedAccess
import ScriptIndex.Proofs.ReadOnce

/-! # Tokens read by position

The lexer over positions in a source, every access checked. A stop may leave it at any position, also after the end
of the source: it reads what the lexer reads from the bytes that are there (`items_eq`). -/

namespace ScriptIndex

namespace Cursor

/-- A position in a source, or after its end. -/
def place (source : List UInt8) (pos : Nat) : Cursor := ⟨pos, source.drop pos⟩

/-- The cursor is where its position says. -/
def On (source : List UInt8) (c : Cursor) : Prop := c = .place source c.pos

variable {source : List UInt8} {c c' : Cursor}

theorem advance_place (source : List UInt8) (pos n : Nat) : (Cursor.place source pos).advance n = .place source (pos + n) := by
  rw [advance, place, List.drop_drop, place]

theorem On.advance (h : c.On source) (n : Nat) : (c.advance n).On source := by
  rw [h, advance_place]
  rfl

theorem skipGaps_on (h : c.On source) (doc : Option DocText) :
    (∀ doc' c', c.skipGaps doc = .ok doc' c' → c'.On source) ∧ ∀ e c', c.skipGaps doc = .error e c' → c'.On source := by
  fun_induction skipGaps c doc with
  | case1 c doc fault =>
    refine ⟨fun _ _ h' => (by cases h'), fun _ _ h' => ?_⟩
    cases h'
    exact h.advance _
  | case2 c doc =>
    refine ⟨fun _ _ h' => ?_, fun _ _ h' => by cases h'⟩
    cases h'
    exact h
  | case3 c doc gap _ ih => exact ih (h.advance _)

theorem next_on (h : c.On source) :
    (∀ t c', c.next = .ok t c' → c'.On source) ∧ ∀ e c', c.next = .error e c' → c'.On source := by
  obtain ⟨hok, herror⟩ := skipGaps_on h none
  unfold next
  split
  · next e c₁ hskip =>
    refine ⟨fun _ _ h' => (by cases h'), fun _ _ h' => ?_⟩
    cases h'
    exact herror _ _ hskip
  · next doc c₁ hskip =>
    have hon := hok _ _ hskip
    split
    · refine ⟨fun _ _ h' => (by cases h'), fun _ _ h' => ?_⟩
      cases h'
      exact hon.advance _
    · refine ⟨fun _ _ h' => ?_, fun _ _ h' => by cases h'⟩
      cases h'
      exact hon.advance _

end Cursor

namespace Checked

/-- The kind and length of the token at a position. Beyond its first byte only a word is taken by position. -/
def lexemeAt (source : List UInt8) (start : Nat) : Except Breach (Except Fault (TokenKind × Nat)) := do
  if source.length ≤ start then return .ok (.eof, 0)
  else
    let b ← byteAt source start
    if Byte.isWordStart b then
      let stop := start + ((source.drop start).takeWhile Byte.isWordPart).length
      let word ← slice source ⟨start, stop⟩
      return .ok (wordKind word, word.length)
    else return lexeme (source.drop start)

/-- What is read from a position, and the position after it. Between tokens the lexer only looks, at a byte or at its
absence: nothing is taken there. -/
def next (source : List UInt8) (pos : Nat) : Except Breach (EStateM.Result SyntaxError Nat Token) := do
  match (Cursor.place source pos).skipGaps none with
  | .error e c => return .error e c.pos
  | .ok doc c =>
    match ← lexemeAt source c.pos with
    | .error fault => return .error (fault.errorAt c.pos) (c.pos + fault.passed)
    | .ok (kind, length) =>
      return .ok ⟨kind, ⟨c.pos, c.pos + length⟩, c.rest.take length, doc⟩ (c.pos + length)

variable {source : List UInt8}

theorem lexemeAt_eq (source : List UInt8) (start : Nat) : lexemeAt source start = .ok (lexeme (source.drop start)) := by
  unfold lexemeAt
  split
  · next hend =>
    rw [List.drop_eq_nil_of_le hend]
    rfl
  · next hstart =>
    obtain ⟨b, rest, hdrop⟩ := exists_drop_eq_cons (Nat.not_le.1 hstart)
    rw [byteAt_of_drop hdrop]
    show (if Byte.isWordStart b then _ else _) = _
    split
    · next hb =>
      have hword : (source.drop start).takeWhile Byte.isWordPart = b :: rest.takeWhile Byte.isWordPart := by
        rw [hdrop, List.takeWhile_cons, if_pos]
        rw [Byte.isWordPart, hb, Bool.true_or]
      have hcut := slice_of_drop (Nat.le_of_not_le hstart)
        (List.takeWhile_append_dropWhile (p := Byte.isWordPart) (l := source.drop start)).symm
      rw [hcut, hword, hdrop, lexeme, if_pos hb]
      rfl
    · rfl

/-- The position of the cursor that is left. -/
def position : EStateM.Result SyntaxError Cursor Token → EStateM.Result SyntaxError Nat Token
  | .ok t c => .ok t c.pos
  | .error e c => .error e c.pos

theorem next_eq (source : List UInt8) (pos : Nat) :
    next source pos = .ok (position (Cursor.place source pos).next) := by
  have hon : (Cursor.place source pos).On source := rfl
  obtain ⟨hok, -⟩ := Cursor.skipGaps_on hon none
  unfold next Cursor.next
  cases hskip : (Cursor.place source pos).skipGaps none with
  | error e c => rfl
  | ok doc c =>
    have hrest : source.drop c.pos = c.rest := (congrArg Cursor.rest (hok _ _ hskip)).symm
    dsimp only
    rw [lexemeAt_eq, hrest]
    cases lexeme c.rest <;> rfl

theorem next_ne_error (source : List UInt8) (pos : Nat) (breach : Breach) : next source pos ≠ .error breach := by
  rw [next_eq]
  exact fun h => by cases h

/-- The lexer goes on from the position that the last item leaves. -/
theorem of_next_error {pos after : Nat} {e : SyntaxError} (h : next source pos = .ok (.error e after)) :
    (Cursor.place source pos).next = .error e (.place source after) := by
  obtain ⟨-, herror⟩ := Cursor.next_on (c := .place source pos) rfl
  rw [next_eq] at h
  cases hnext : (Cursor.place source pos).next <;> rw [hnext] at h <;> cases h
  exact congrArg _ (herror _ _ hnext)

theorem of_next_ok {pos after : Nat} {t : Token} (h : next source pos = .ok (.ok t after)) :
    (Cursor.place source pos).next = .ok t (.place source after) := by
  obtain ⟨hok, -⟩ := Cursor.next_on (c := .place source pos) rfl
  rw [next_eq] at h
  cases hnext : (Cursor.place source pos).next <;> rw [hnext] at h <;> cases h
  exact congrArg _ (hok _ _ hnext)

theorem next_lt {pos after : Nat} {t : Token} (h : next source pos = .ok (.ok t after)) (ht : t.kind ≠ .eof) :
    source.length - after < source.length - pos := by
  have hlt := Cursor.next_length_lt (of_next_ok h) ht
  rwa [Cursor.place, Cursor.place, List.length_drop, List.length_drop] at hlt

/-- What reading gives from a position on, as `Cursor.items`. -/
def items (source : List UInt8) (stops pos : Nat) : Except Breach (List (Except SyntaxError Token)) :=
  match stops with
  | 0 => .ok []
  | stops + 1 =>
    match _h : next source pos with
    | .error breach => .error breach
    | .ok (.error e after) => (items source stops after).map (.error e :: ·)
    | .ok (.ok t after) =>
      if _ht : t.kind = .eof then (items source stops after).map (.ok t :: ·)
      else (items source (stops + 1) after).map (.ok t :: ·)
termination_by (stops, source.length - pos)
decreasing_by
  · exact Prod.Lex.left _ _ (Nat.lt_succ_self _)
  · exact Prod.Lex.left _ _ (Nat.lt_succ_self _)
  · exact Prod.Lex.right _ (next_lt _h _ht)

/-- The tokens from a position on and what ends them, as `Cursor.stream`. -/
def stream (source : List UInt8) (pos : Nat) : Except Breach Stream :=
  match _h : next source pos with
  | .error breach => .error breach
  | .ok (.error e _) => .ok ⟨[], .error e⟩
  | .ok (.ok t after) =>
    if _ht : t.kind = .eof then .ok ⟨[], .ok t⟩
    else (stream source after).map fun s => ⟨t :: s.tokens, s.last⟩
termination_by source.length - pos
decreasing_by exact next_lt _h _ht

/-- Reading on, from any position and after any number of stops, takes nothing that is not there. -/
theorem items_eq (source : List UInt8) (stops pos : Nat) :
    items source stops pos = .ok ((Cursor.place source pos).items stops) := by
  fun_induction items source stops pos with
  | case1 => rw [Cursor.items]
  | case2 pos stops breach h => exact absurd h (next_ne_error _ _ _)
  | case3 pos stops e after h ih =>
    rw [ih, Cursor.items_of_error (of_next_error h)]
    rfl
  | case4 pos stops t after h ht ih =>
    rw [ih, Cursor.items_of_ok (of_next_ok h), if_pos ht]
    rfl
  | case5 pos stops t after h ht ih =>
    rw [ih, Cursor.items_of_ok (of_next_ok h), if_neg ht]
    rfl

theorem stream_eq (source : List UInt8) (pos : Nat) : stream source pos = .ok (Cursor.place source pos).stream := by
  fun_induction stream source pos with
  | case1 pos breach h => exact absurd h (next_ne_error _ _ _)
  | case2 pos e after h => rw [Cursor.stream_of_error (of_next_error h)]
  | case3 pos t after h ht => rw [Cursor.stream_of_eof (of_next_ok h) ht]
  | case4 pos t after h ht ih =>
    rw [ih, Cursor.stream_of_next (of_next_ok h) ht]
    rfl

end Checked

end ScriptIndex
