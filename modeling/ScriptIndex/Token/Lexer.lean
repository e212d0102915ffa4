import ScriptIndex.Token.Lexeme

/-! # Tokens of a source

A `Cursor` is a place in a source: its position and the bytes from there on. `Cursor.next` reads one
token and moves past it; on an error it moves as far as the fault says. `Cursor.stream` is all a parser
needs of a source: its tokens and what ends them. -/

namespace ScriptIndex

/-- The contents of a documentation comment, without its marks. -/
structure DocText where
  span : Span
  bytes : List UInt8
deriving Repr, DecidableEq

structure Token where
  kind : TokenKind
  span : Span
  bytes : List UInt8
  /-- The last documentation comment between the previous token and this one. -/
  doc : Option DocText
deriving Repr, DecidableEq

structure Cursor where
  pos : Nat
  rest : List UInt8
deriving Repr, DecidableEq

/-- The tokens of a source and what follows the last of them: the token for the end of the text, or an
error. -/
structure Stream where
  tokens : List Token
  last : Except SyntaxError Token
deriving Repr

theorem length_takeWhile_pos {p : UInt8 → Bool} {bytes : List UInt8} (h : bytes.takeWhile p ≠ []) :
    0 < (bytes.takeWhile p).length ∧ (bytes.takeWhile p).length ≤ bytes.length :=
  ⟨List.length_pos_iff.mpr h, (List.takeWhile_prefix p).length_le⟩

theorem isPrefixOf_length_le {a b : List UInt8} (h : a.isPrefixOf b = true) : a.length ≤ b.length :=
  (List.isPrefixOf_iff_prefix.mp h).length_le

theorem takeWhile_ne_newline_ne_nil {bytes : List UInt8} (h : (ascii "//").isPrefixOf bytes = true) :
    bytes.takeWhile (· != Byte.newline) ≠ [] := by
  obtain ⟨rest, rfl⟩ := List.isPrefixOf_iff_prefix.mp h
  simp [show ascii "//" = [0x2F, 0x2F] from rfl, show Byte.newline = 0x0A from rfl]

theorem gap?_length {bytes : List UInt8} {gap : Gap} (h : gap? bytes = .ok (some gap)) :
    0 < gap.length ∧ 0 < bytes.length := by
  have pos {n : Nat} {p : UInt8 → Bool} (hne : bytes.takeWhile p ≠ [])
      (hn : (bytes.takeWhile p).length = n) : 0 < n ∧ 0 < bytes.length := by
    have := length_takeWhile_pos hne
    omega
  simp only [gap?] at h
  split at h
  · next hb => cases h; exact pos hb rfl
  · split at h
    · next hl => cases h; exact pos (takeWhile_ne_newline_ne_nil hl) rfl
    · split at h
      · next hc =>
        have := isPrefixOf_length_le hc
        rw [show (ascii "/*").length = 2 from rfl] at this
        split at h
        · cases h; simp; omega
        · cases h
      · cases h

namespace Fault

def errorAt (fault : Fault) (pos : Nat) : SyntaxError :=
  ⟨fault.cause, ⟨pos, pos + fault.extent⟩, none⟩

end Fault

namespace Cursor

def ofBytes (bytes : List UInt8) : Cursor := ⟨0, bytes⟩

def advance (c : Cursor) (n : Nat) : Cursor := ⟨c.pos + n, c.rest.drop n⟩

/-- The contents of a documentation comment of the given length at the cursor. -/
def docText (c : Cursor) (length : Nat) : DocText :=
  ⟨⟨c.pos + 3, c.pos + (length - 2)⟩, (c.rest.take (length - 2)).drop 3⟩

/-- Passes over all gaps. `doc` is the last documentation comment passed so far. -/
def skipGaps (c : Cursor) (doc : Option DocText) :
    EStateM.Result SyntaxError Cursor (Option DocText) :=
  match _h : gap? c.rest with
  | .error fault => .error (fault.errorAt c.pos) (c.advance fault.passed)
  | .ok none => .ok doc c
  | .ok (some gap) =>
    (c.advance gap.length).skipGaps (if gap.isDoc then some (c.docText gap.length) else doc)
termination_by c.rest.length
decreasing_by
  have := gap?_length _h
  simp only [advance, List.length_drop]
  omega

def next (c : Cursor) : EStateM.Result SyntaxError Cursor Token :=
  match c.skipGaps none with
  | .error e c => .error e c
  | .ok doc c =>
    match lexeme c.rest with
    | .error fault => .error (fault.errorAt c.pos) (c.advance fault.passed)
    | .ok (kind, length) =>
      .ok ⟨kind, ⟨c.pos, c.pos + length⟩, c.rest.take length, doc⟩ (c.advance length)

theorem length_advance_le (c : Cursor) (n : Nat) : (c.advance n).rest.length ≤ c.rest.length := by
  simp [advance]

theorem skipGaps_length_le {c c' : Cursor} {doc doc' : Option DocText}
    (h : c.skipGaps doc = .ok doc' c') : c'.rest.length ≤ c.rest.length := by
  fun_induction skipGaps c doc with
  | case1 => cases h
  | case2 => cases h; exact Nat.le_refl _
  | case3 c doc gap hg ih => exact Nat.le_trans (ih h) (length_advance_le ..)

end Cursor

theorem numberLength_pos {b : UInt8} {rest : List UInt8} (h : Byte.isDigit b = true) :
    0 < numberLength (b :: rest) := by
  simp only [numberLength, List.takeWhile_cons, h, if_true, List.length_cons]
  split
  · omega
  · split <;> omega

theorem punctuator_length_pos {bytes : List UInt8} {mark : String} {kind : TokenKind}
    (h : punctuator? bytes = some (mark, kind)) : 0 < (ascii mark).length := by
  have hall : TokenKind.punctuators.all (fun entry => 0 < (ascii entry.1).length) = true := by decide
  have := List.all_eq_true.mp hall _ (List.mem_of_find?_eq_some h)
  simpa using this

/-- Only the end of the text is an empty token. -/
theorem lexeme_length {bytes : List UInt8} {kind : TokenKind} {length : Nat}
    (h : lexeme bytes = .ok (kind, length)) (hk : kind ≠ .eof) : 0 < length ∧ 0 < bytes.length := by
  cases bytes with
  | nil => cases h; exact absurd rfl hk
  | cons b rest =>
    refine ⟨?_, by simp⟩
    simp only [lexeme] at h
    split at h
    · cases h; simp
    · split at h
      · next hd =>
        split at h
        · cases h
        · cases h; exact numberLength_pos hd
      · split at h
        · split at h
          · cases h; omega
          · cases h
        · split at h
          · next hp => cases h; exact punctuator_length_pos hp
          · cases h

namespace Cursor

theorem next_length_lt {c c' : Cursor} {t : Token} (h : c.next = .ok t c') (ht : t.kind ≠ .eof) :
    c'.rest.length < c.rest.length := by
  simp only [next] at h
  split at h
  · cases h
  · next doc c₁ hs =>
    split at h
    · cases h
    · next kind length hl =>
      cases h
      have := lexeme_length hl ht
      have := skipGaps_length_le hs
      simp only [advance, List.length_drop]
      omega

def stream (c : Cursor) : Stream :=
  match _h : c.next with
  | .error e _ => ⟨[], .error e⟩
  | .ok t c' =>
    if _ht : t.kind = .eof then ⟨[], .ok t⟩
    else
      let s := c'.stream
      ⟨t :: s.tokens, s.last⟩
termination_by c.rest.length
decreasing_by exact next_length_lt _h _ht

/-- What reading gives, one item after the other, until the `stops`-th time that the end of the text or
an error comes. Reading goes on from wherever a stop left the cursor. -/
def items (stops : Nat) (c : Cursor) : List (Except SyntaxError Token) :=
  match stops with
  | 0 => []
  | stops + 1 =>
    match _h : c.next with
    | .error e c' => .error e :: c'.items stops
    | .ok t c' => .ok t :: if _ht : t.kind = .eof then c'.items stops else c'.items (stops + 1)
termination_by (stops, c.rest.length)
decreasing_by
  · exact Prod.Lex.left _ _ (Nat.lt_succ_self _)
  · exact Prod.Lex.left _ _ (Nat.lt_succ_self _)
  · exact Prod.Lex.right _ (next_length_lt _h _ht)

end Cursor

namespace Stream

def ofBytes (bytes : List UInt8) : Stream := (Cursor.ofBytes bytes).stream

def withoutDocs (s : Stream) : Stream :=
  let strip (t : Token) : Token := { t with doc := none }
  ⟨s.tokens.map strip, s.last.map strip⟩

end Stream

end ScriptIndex
