import ScriptIndex.Proofs.Tiling

/-! # Access by position, with checks

The readers take a text apart from its front, so that no byte can be missed. Here the bytes of a text are taken by
their positions: a position at or after the end of the text, and a span that does not lie in it, are breaches.
Where there is none, an access gives what the readers find at the front of the rest of the text. -/

namespace ScriptIndex

/-- An access to what is not there. -/
inductive Breach
  | byte (position : Nat)
  | slice (span : Span)
  /-- A brace closes at the position, and none is open. -/
  | depth (position : Nat)
deriving Repr, DecidableEq

namespace Checked

def byteAt (text : List UInt8) (i : Nat) : Except Breach UInt8 :=
  match text[i]? with
  | some b => .ok b
  | none => .error (.byte i)

/-- The bytes that a span covers. It must not end before it begins, nor after the end of the text. -/
def slice (text : List UInt8) (span : Span) : Except Breach (List UInt8) :=
  if span.start ≤ span.stop ∧ span.stop ≤ text.length then .ok (span.slice text) else .error (.slice span)

/-- Where the bytes that satisfy `p` end. -/
def skipWhile (p : UInt8 → Bool) (text : List UInt8) (i : Nat) : Except Breach Nat := do
  if _h : i < text.length then
    if p (← byteAt text i) then skipWhile p text (i + 1) else return i
  else return i
termination_by text.length - i

variable {text bytes rest : List UInt8} {b : UInt8} {i n : Nat} {span : Span}

theorem exists_drop_eq_cons (h : i < text.length) : ∃ b rest, text.drop i = b :: rest :=
  List.exists_cons_of_ne_nil (List.drop_eq_nil_iff.not.2 (Nat.not_le.2 h))

theorem getElem?_of_drop (h : text.drop i = b :: rest) : text[i]? = some b := by
  rw [← List.head?_drop, h, List.head?_cons]

theorem drop_succ_of_drop (h : text.drop i = b :: rest) : text.drop (i + 1) = rest := by
  rw [← List.drop_drop, h, List.drop_one, List.tail_cons]

theorem lt_of_drop (h : text.drop i = b :: rest) : i < text.length :=
  Nat.not_le.1 fun hle => by cases (List.drop_eq_nil_of_le hle).symm.trans h

theorem byteAt_of_drop (h : text.drop i = b :: rest) : byteAt text i = .ok b := by
  rw [byteAt, getElem?_of_drop h]

theorem slice_eq (h : span.start ≤ span.stop) (hstop : span.stop ≤ text.length) :
    slice text span = .ok (span.slice text) :=
  if_pos ⟨h, hstop⟩

/-- A span is cut out where its bytes stand. -/
theorem slice_of_append {front : List UInt8} (h : text = front ++ (bytes ++ rest)) :
    slice text ⟨front.length, front.length + bytes.length⟩ = .ok bytes := by
  rw [slice_eq (Nat.le_add_right _ _), h, Span.slice_append]
  simp only [h, List.length_append]
  omega

theorem slice_of_drop (hi : i ≤ text.length) (h : text.drop i = bytes ++ rest) :
    slice text ⟨i, i + bytes.length⟩ = .ok bytes := by
  have hsplit : text = text.take i ++ (bytes ++ rest) := by rw [← h, List.take_append_drop]
  have hcut := slice_of_append hsplit
  rwa [List.length_take_of_le hi] at hcut

/-- Cutting from a position to the end. -/
theorem slice_to_end (hi : i ≤ text.length) : slice text ⟨i, text.length⟩ = .ok (text.drop i) := by
  rw [slice_eq hi (Nat.le_refl _), Span.slice, List.take_length]

theorem skipWhile_eq (p : UInt8 → Bool) (text : List UInt8) (i : Nat) :
    skipWhile p text i = .ok (i + ((text.drop i).takeWhile p).length) := by
  fun_induction skipWhile p text i with
  | case1 i h ih =>
    obtain ⟨b, rest, hdrop⟩ := exists_drop_eq_cons h
    rw [hdrop, byteAt_of_drop hdrop, List.takeWhile_cons]
    show (if p b then _ else _) = _
    split
    · rw [ih, drop_succ_of_drop hdrop, List.length_cons, Nat.add_right_comm, Nat.add_assoc]
    · rfl
  | case2 i h =>
    rw [List.drop_eq_nil_of_le (Nat.not_lt.1 h)]
    rfl

end Checked

end ScriptIndex
