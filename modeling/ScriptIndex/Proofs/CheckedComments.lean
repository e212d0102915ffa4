import ScriptIndex.Proofs.CheckedAccess
import ScriptIndex.Proofs.ReadingProgress

/-! # Tags found by position

The scan for tags over positions in a comment, every access checked: the byte before a place, the byte there, the name
of a tag and the text between its braces, and the number of braces that are open. It finds what the scan finds that
takes the comment apart (`scan_eq`). -/

namespace ScriptIndex

theorem Cursor.advance_advance (c : Cursor) (n m : Nat) : (c.advance n).advance m = c.advance (n + m) := by
  simp only [advance, List.drop_drop, Nat.add_assoc]

namespace Checked

/-- What is left open when a brace closes at a position. -/
def lower (position : Nat) : Nat → Except Breach Nat
  | 0 => .error (.depth position)
  | depth + 1 => .ok depth

/-- Where the last of `depth` open braces closes, in bytes that stand from a position on. -/
def closing (depth position : Nat) : List UInt8 → Except Breach (Option Nat)
  | [] => return none
  | b :: rest => do
    if b == Mention.openBrace then closing (depth + 1) (position + 1) rest
    else if b == Mention.closeBrace then
      let depth ← lower position depth
      if depth = 0 then return some position else closing depth (position + 1) rest
    else closing depth (position + 1) rest

def holds (text : List UInt8) (i : Nat) (b : UInt8) : Except Breach Bool := do
  if i < text.length then return (← byteAt text i) == b else return false

/-- `Mention.Turn`, with the position at which the scan goes on. -/
inductive Turn
  | ended (unclosed : Option Span)
  | onward (found : Option Mention) (next : Nat)

/-- The text between the brace at a position and the one that closes it, and where the text after them begins. -/
def bracesAt (text : Cursor) (i : Nat) : Except Breach (Option (Cursor × Nat)) := do
  match ← closing 0 i (text.rest.drop i) with
  | none => return none
  | some close =>
    let inside ← slice text.rest ⟨i + 1, close⟩
    return some (⟨text.pos + (i + 1), inside⟩, close + 1)

/-- What the position after a tag's name comes to: a type stands there between braces, or none does. -/
def typeAt (text : Cursor) (name : String) (i : Nat) : Except Breach Turn := do
  if ← holds text.rest i Mention.openBrace then
    match ← bracesAt text i with
    | none => return .ended (some ⟨text.pos + i, text.pos + text.rest.length⟩)
    | some (inside, next) => return .onward (some ⟨name, some inside⟩) next
  else return .onward (some ⟨name, none⟩) i

/-- The tag whose `@` stands at the position. -/
def tagAt (text : Cursor) (i : Nat) : Except Breach Turn := do
  let nameEnd ← skipWhile Byte.isLetter text.rest (i + 1)
  let name ← slice text.rest ⟨i + 1, nameEnd⟩
  let headEnd ← skipWhile (ascii " \t").contains text.rest nameEnd
  typeAt text (Utf8.decode name) headEnd

/-- Whether a word may start at the position. -/
def wordAt (text : List UInt8) (i : Nat) : Except Breach Bool := do
  if i = 0 then return true else return Mention.startsWord (← byteAt text (i - 1))

def turn (text : Cursor) (i : Nat) : Except Breach Turn := do
  if i < text.rest.length then
    let startsWord ← wordAt text.rest i
    let b ← byteAt text.rest i
    if b == '@'.toUInt8 && startsWord then tagAt text i else return .onward none (i + 1)
  else return .ended none

/-! ### Braces -/

theorem map_shift (position : Nat) (r : Option Nat) :
    r.map (position + 1 + ·) = (r.map (· + 1)).map (position + ·) := by
  rw [Option.map_map]
  congr 1
  funext n
  exact Nat.add_right_comm ..

theorem closing_eq (depth position : Nat) (bytes : List UInt8) :
    closing (depth + 1) position bytes = .ok ((Mention.closing? depth bytes).map (position + ·)) := by
  fun_induction Mention.closing? depth bytes generalizing position with
  | case1 => rfl
  | case2 b rest hclose =>
    rw [closing, if_neg (by rw [beq_iff_eq.1 hclose]; decide), if_pos hclose]
    rfl
  | case3 b rest hclose depth ih =>
    rw [closing, if_neg (by rw [beq_iff_eq.1 hclose]; decide), if_pos hclose]
    rw [← map_shift]
    exact ih (position + 1)
  | case4 depth b rest hclose ih =>
    rw [closing, if_neg hclose, ← map_shift, ← ih]
    split
    · rfl
    · rfl

/-- From the brace that opens a type, the one that closes it. -/
theorem closing_open (position : Nat) (bytes : List UInt8) :
    closing 0 position (Mention.openBrace :: bytes) =
      .ok ((Mention.closing? 0 bytes).map (position + 1 + ·)) := by
  exact closing_eq 0 (position + 1) bytes

/-- Without the brace that it closes, a brace would be a breach. -/
example : closing 0 7 [Mention.closeBrace] = .error (.depth 7) := rfl

theorem closing?_closes {depth n : Nat} {bytes : List UInt8} (h : Mention.closing? depth bytes = some n) :
    bytes[n]? = some Mention.closeBrace := by
  fun_induction Mention.closing? depth bytes generalizing n with
  | case1 => cases h
  | case2 b rest hclose =>
    cases h
    exact congrArg some (beq_iff_eq.1 hclose)
  | case3 b rest hclose depth ih | case4 depth b rest hclose ih =>
    obtain ⟨k, hk, rfl⟩ := Option.map_eq_some_iff.1 h
    exact ih hk

/-! ### Turns -/

variable {text : Cursor} {i : Nat} {b : UInt8} {rest : List UInt8}

theorem holds_eq (text : List UInt8) (i : Nat) (b : UInt8) : holds text i b = .ok ((text.drop i).head? == some b) := by
  unfold holds
  split
  · next h =>
    obtain ⟨c, rest, hdrop⟩ := exists_drop_eq_cons h
    rw [byteAt_of_drop hdrop, hdrop]
    rfl
  · next h =>
    rw [List.drop_eq_nil_of_le (Nat.not_lt.1 h)]
    rfl

/-- The byte before a position. -/
def before (text : List UInt8) : Nat → Option UInt8
  | 0 => none
  | i + 1 => text[i]?

/-- A turn goes as the other one, at the byte before the position, and on from a later position of the text. -/
inductive Goes (text : Cursor) (i : Nat) : Except Breach Turn → Mention.Turn → Prop
  | ended (unclosed : Option Span) : Goes text i (.ok (.ended unclosed)) (.ended unclosed)
  | onward (found : Option Mention) {b : UInt8} {next : Nat} (h : i < text.rest.length) (hnext : i < next)
      (hb : before text.rest next = some b) :
      Goes text i (.ok (.onward found next)) (.onward found b (text.advance next))

theorem bracesAt_eq (h : text.rest.drop i = Mention.openBrace :: rest) : bracesAt text i =
    .ok ((Mention.closing? 0 rest).map fun n => (⟨text.pos + (i + 1), rest.take n⟩, i + n + 2)) := by
  unfold bracesAt
  rw [h, closing_open]
  cases hclosing : Mention.closing? 0 rest with
  | none => rfl
  | some n =>
    have hlength : (rest.take n).length = n := List.length_take_of_le (Nat.le_of_lt (Mention.closing?_lt hclosing))
    have hsplit : text.rest.drop (i + 1) = rest.take n ++ rest.drop n := by
      rw [drop_succ_of_drop h, List.take_append_drop]
    have hcut := slice_of_drop (lt_of_drop h) hsplit
    rw [hlength] at hcut
    have hnext : i + 1 + n + 1 = i + n + 2 := by omega
    simp only [Option.map_some, ← hnext]
    show (slice text.rest ⟨i + 1, i + 1 + n⟩ >>= _) = _
    rw [hcut]
    rfl

theorem drop_takeWhile (p : UInt8 → Bool) (bytes : List UInt8) :
    bytes.drop (bytes.takeWhile p).length = bytes.dropWhile p :=
  (congrArg (List.drop (bytes.takeWhile p).length) List.takeWhile_append_dropWhile.symm).trans List.drop_left

/-- The head of a tag is an `@` with a run of bytes after it. -/
theorem head_run (rest : List UInt8) : ∃ run tail, rest = run ++ tail ∧ (Mention.head rest).length = run.length + 1 ∧
    (Mention.head rest).last = run.getLast?.getD '@'.toUInt8 := by
  have hname : rest.drop (rest.takeWhile Byte.isLetter).length = rest.dropWhile Byte.isLetter := drop_takeWhile _ _
  refine ⟨rest.takeWhile Byte.isLetter ++ (rest.dropWhile Byte.isLetter).takeWhile (ascii " \t").contains,
    (rest.dropWhile Byte.isLetter).dropWhile (ascii " \t").contains, ?_, ?_, ?_⟩
  · rw [List.append_assoc, List.takeWhile_append_dropWhile, List.takeWhile_append_dropWhile]
  · simp only [Mention.head, hname, List.length_append]
    omega
  · simp only [Mention.head, hname]

theorem before_head (h : text.rest.drop i = '@'.toUInt8 :: rest) :
    before text.rest (i + (Mention.head rest).length) = some (Mention.head rest).last := by
  obtain ⟨run, tail, rfl, hlength, hlast⟩ := head_run rest
  have hget : ('@'.toUInt8 :: (run ++ tail))[run.length]? = ('@'.toUInt8 :: run).getLast? := by
    rw [← List.cons_append, List.getElem?_append_left (Nat.lt_succ_self _), List.getLast?_eq_getElem?]
    rfl
  rw [hlength, hlast, ← Nat.add_assoc, before, ← List.getElem?_drop, h, hget, List.getLast?_cons]

/-- A tag is read up to its type as its head is. -/
theorem tagAt_eq (h : text.rest.drop i = '@'.toUInt8 :: rest) :
    tagAt text i = typeAt text (Utf8.decode (Mention.head rest).name) (i + (Mention.head rest).length) := by
  have hname : text.rest.drop (i + 1) = rest.takeWhile Byte.isLetter ++ rest.dropWhile Byte.isLetter := by
    rw [drop_succ_of_drop h, List.takeWhile_append_dropWhile]
  have hafter : text.rest.drop (i + 1 + (rest.takeWhile Byte.isLetter).length) =
      rest.drop (rest.takeWhile Byte.isLetter).length := by
    rw [← List.drop_drop, drop_succ_of_drop h]
  have hend : i + 1 + (rest.takeWhile Byte.isLetter).length +
      ((rest.drop (rest.takeWhile Byte.isLetter).length).takeWhile (ascii " \t").contains).length =
        i + (Mention.head rest).length := by
    simp only [Mention.head]
    omega
  simp only [tagAt, skipWhile_eq, drop_succ_of_drop h]
  show (slice text.rest ⟨i + 1, i + 1 + (rest.takeWhile Byte.isLetter).length⟩ >>= _) = _
  rw [slice_of_drop (lt_of_drop h) hname]
  simp only [hafter, hend]
  rfl

theorem typeAt_goes (name : String) {next : Nat} {last : UInt8} (hi : i < text.rest.length) (hnext : i < next)
    (hlast : before text.rest next = some last) : Goes text i (typeAt text name next)
      (if (text.rest.drop next).head? == some Mention.openBrace then
        match Mention.closing? 0 (text.rest.drop (next + 1)) with
        | none => .ended (some ⟨text.pos + next, text.pos + next + (text.rest.drop next).length⟩)
        | some n => .onward (some ⟨name, some ⟨text.pos + (next + 1), (text.rest.drop (next + 1)).take n⟩⟩)
            Mention.closeBrace (text.advance (next + n + 2))
      else .onward (some ⟨name, none⟩) last (text.advance next)) := by
  rw [typeAt, holds_eq]
  show Goes text i (if ((text.rest.drop next).head? == some Mention.openBrace) = true then _ else _) _
  split
  · next hopen =>
    obtain ⟨rest, hrest⟩ := List.head?_eq_some_iff.1 (beq_iff_eq.1 hopen)
    rw [bracesAt_eq hrest, drop_succ_of_drop hrest]
    cases hclosing : Mention.closing? 0 rest with
    | none =>
      have hend : text.pos + next + (text.rest.drop next).length = text.pos + text.rest.length := by
        have hlt := lt_of_drop hrest
        rw [List.length_drop]
        omega
      rw [hend]
      exact .ended _
    | some n =>
      refine .onward _ hi (by omega) ?_
      show text.rest[next + n + 1]? = _
      rw [Nat.add_right_comm, ← List.getElem?_drop, drop_succ_of_drop hrest, closing?_closes hclosing]
  · exact .onward _ hi hnext hlast

theorem tagAt_goes (h : text.rest.drop i = '@'.toUInt8 :: rest) {b : Option UInt8} (hb : b.all Mention.startsWord) :
    Goes text i (tagAt text i) (Mention.turn b (text.advance i)) := by
  have hrest : (text.advance i).rest = '@'.toUInt8 :: rest := h
  have hat : ('@'.toUInt8 == '@'.toUInt8 && b.all Mention.startsWord) = true := by rw [hb]; rfl
  have hadvance (n : Nat) : (text.advance n).rest = text.rest.drop n := rfl
  have hsum (n : Nat) : i + ((Mention.head rest).length + n + 2) = i + (Mention.head rest).length + n + 2 := by omega
  have hnext : i < i + (Mention.head rest).length := Nat.lt_add_of_pos_right (Mention.head_length_pos rest)
  rw [tagAt_eq h]
  simp only [Mention.turn, hrest]
  rw [if_pos hat]
  simp only [Cursor.advance_advance, hadvance, hsum]
  exact typeAt_goes _ (lt_of_drop h) hnext (before_head h)

theorem wordAt_eq {text : List UInt8} (h : i ≤ text.length) :
    wordAt text i = .ok ((before text i).all Mention.startsWord) := by
  cases i with
  | zero => rfl
  | succ i =>
    obtain ⟨b, rest, hdrop⟩ := exists_drop_eq_cons h
    rw [wordAt, if_neg (Nat.succ_ne_zero i), Nat.add_sub_cancel, byteAt_of_drop hdrop, before, getElem?_of_drop hdrop]
    rfl

theorem turn_goes (text : Cursor) (i : Nat) :
    Goes text i (turn text i) (Mention.turn (before text.rest i) (text.advance i)) := by
  unfold turn
  split
  · next hi =>
    obtain ⟨b, rest, hdrop⟩ := exists_drop_eq_cons hi
    have hrest : (text.advance i).rest = b :: rest := hdrop
    rw [wordAt_eq (Nat.le_of_lt hi), byteAt_of_drop hdrop]
    show Goes text i (if (b == '@'.toUInt8 && (before text.rest i).all Mention.startsWord) = true then _ else _) _
    split
    · next hat =>
      obtain ⟨hb, hword⟩ := Bool.and_eq_true_iff.1 hat
      rw [beq_iff_eq.1 hb] at hdrop
      exact tagAt_goes hdrop hword
    · next hat =>
      simp only [Mention.turn, hrest]
      rw [if_neg hat, Cursor.advance_advance]
      exact .onward none hi (Nat.lt_succ_self i) (getElem?_of_drop hdrop)
  · next hi =>
    have hnil : (text.advance i).rest = [] := List.drop_eq_nil_of_le (Nat.not_lt.1 hi)
    simp only [Mention.turn, hnil]
    exact .ended none

/-! ### Scans -/

theorem turn_onward {found : Option Mention} {next : Nat} (h : turn text i = .ok (.onward found next)) :
    text.rest.length - next < text.rest.length - i := by
  have hgoes := turn_goes text i
  rw [h] at hgoes
  generalize Mention.turn _ _ = turn' at hgoes
  cases hgoes with
  | onward _ hi hnext => omega

/-- The tags from a position on, as `Mention.scan`. -/
def scan (text : Cursor) (i : Nat) : Except Breach (List Mention × Option Span) :=
  match _h : turn text i with
  | .error breach => .error breach
  | .ok (.ended unclosed) => .ok ([], unclosed)
  | .ok (.onward found next) =>
    (scan text next).map fun (mentions, unclosed) => (found.toList ++ mentions, unclosed)
termination_by text.rest.length - i
decreasing_by exact turn_onward _h

theorem scan_eq (text : Cursor) (i : Nat) :
    scan text i = .ok (Mention.scan (before text.rest i) (text.advance i)) := by
  fun_induction scan text i with
  | case1 i breach h =>
    have hgoes := turn_goes text i
    rw [h] at hgoes
    cases hgoes
  | case2 i unclosed h =>
    have hgoes := turn_goes text i
    rw [h] at hgoes
    rw [Mention.scan_eq_turn]
    generalize Mention.turn _ _ = turn' at hgoes ⊢
    cases hgoes
    rfl
  | case3 i found next h ih =>
    have hgoes := turn_goes text i
    rw [h] at hgoes
    rw [Mention.scan_eq_turn, ih]
    generalize Mention.turn _ _ = turn' at hgoes ⊢
    cases hgoes with
    | onward _ _ _ hb =>
      rw [hb]
      rfl

end Checked

end ScriptIndex
