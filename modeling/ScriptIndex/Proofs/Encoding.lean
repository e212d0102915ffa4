import Mathlib.Tactic.Common
import ScriptIndex.Text.Escape
import ScriptIndex.Text.Utf8

/-! # Texts as bytes

The bytes of a text read as the text (`Utf8.decode_encode`), and a text without backslashes stands for
itself in a string literal. -/

namespace ScriptIndex

namespace Utf8

def encode (text : String) : List UInt8 :=
  text.toList.flatMap String.utf8EncodeChar

theorem toNat_byte {n : Nat} (h : n < 0x100) : (UInt8.ofNat n).toNat = n := by
  simp [Nat.mod_eq_of_lt h]

theorem lead?_two : ∀ k < 0x20, 2 ≤ k → lead? (UInt8.ofNat (k + 0xC0)) = some ⟨k, 0x80, 0xBF, 0⟩ := by
  decide

theorem lead?_three : ∀ k < 0x10, lead? (UInt8.ofNat (k + 0xE0)) =
    some ⟨k, if k = 0 then 0xA0 else 0x80, if k = 0xD then 0x9F else 0xBF, 1⟩ := by
  decide

theorem lead?_four : ∀ k < 5, lead? (UInt8.ofNat (k + 0xF0)) =
    some ⟨k, if k = 0 then 0x90 else 0x80, if k = 4 then 0x8F else 0xBF, 2⟩ := by
  decide

variable {b : UInt8} {p : Partial} {k more : Nat} (rest : List UInt8)

/-- The first of several bytes of a character. -/
theorem decodeFrom_lead (hb : 0x80 ≤ b.toNat) (hp : lead? b = some p) :
    decodeFrom none (b :: rest) = decodeFrom (some p) rest := by
  have hlt : ¬ b.toNat < 0x80 := Nat.not_lt.2 hb
  simp [decodeFrom, step, start, UInt8.lt_iff_toNat_lt, hlt, hp]

/-- A byte in the middle of a character. -/
theorem decodeFrom_middle (hb : b.toNat = k + 0x80) (hk : k < 0x40) (hlow : p.low.toNat ≤ k + 0x80)
    (hhigh : k + 0x80 ≤ p.high.toNat) (hmore : p.more = more + 1) :
    decodeFrom (some p) (b :: rest) = decodeFrom (some ⟨p.value * 0x40 + k, 0x80, 0xBF, more⟩) rest := by
  have hvalue : (k + 0x80) % 0x40 = k := by omega
  simp [decodeFrom, step, UInt8.le_iff_toNat_le, hb, hlow, hhigh, hmore, hvalue]

/-- The last byte of a character. -/
theorem decodeFrom_last {value : Nat} (hb : b.toNat = k + 0x80) (hk : k < 0x40) :
    decodeFrom (some ⟨value, 0x80, 0xBF, 0⟩) (b :: rest) = Char.ofNat (value * 0x40 + k) :: decodeFrom none rest := by
  have hvalue : (k + 0x80) % 0x40 = k := by omega
  have hhigh : k + 0x80 ≤ 0xBF := by omega
  simp [decodeFrom, step, UInt8.le_iff_toNat_le, hb, hhigh, hvalue]

theorem decodeFrom_two {x y : Nat} (hx : 2 ≤ x) (hx' : x < 0x20) (hy : y < 0x40) :
    decodeFrom none (UInt8.ofNat (x + 0xC0) :: UInt8.ofNat (y + 0x80) :: rest) =
      Char.ofNat (x * 0x40 + y) :: decodeFrom none rest := by
  have h := toNat_byte (show x + 0xC0 < 0x100 by omega)
  rw [decodeFrom_lead _ (by omega) (lead?_two x hx' hx), decodeFrom_last _ (toNat_byte (by omega)) hy]

theorem decodeFrom_three {x y z : Nat} (hx : x < 0x10) (hy : y < 0x40) (hz : z < 0x40)
    (hlow : x = 0 → 0x20 ≤ y) (hhigh : x = 0xD → y < 0x20) :
    decodeFrom none (UInt8.ofNat (x + 0xE0) :: UInt8.ofNat (y + 0x80) :: UInt8.ofNat (z + 0x80) :: rest) =
      Char.ofNat ((x * 0x40 + y) * 0x40 + z) :: decodeFrom none rest := by
  have h := toNat_byte (show x + 0xE0 < 0x100 by omega)
  have hlow : (if x = 0 then 0xA0 else 0x80 : UInt8).toNat ≤ y + 0x80 := by
    split_ifs with h0
    · exact Nat.add_le_add_right (hlow h0) 0x80
    · exact Nat.le_add_left 0x80 y
  have hhigh : y + 0x80 ≤ (if x = 0xD then 0x9F else 0xBF : UInt8).toNat := by
    split_ifs with hd
    · exact Nat.add_le_add_right (Nat.le_of_lt_succ (hhigh hd)) 0x80
    · exact Nat.add_le_add_right (Nat.le_of_lt_succ hy) 0x80
  rw [decodeFrom_lead _ (by omega) (lead?_three x hx),
    decodeFrom_middle _ (toNat_byte (by omega)) hy hlow hhigh rfl, decodeFrom_last _ (toNat_byte (by omega)) hz]

theorem decodeFrom_four {w x y z : Nat} (hw : w < 5) (hx : x < 0x40) (hy : y < 0x40) (hz : z < 0x40)
    (hlow : w = 0 → 0x10 ≤ x) (hhigh : w = 4 → x < 0x10) :
    decodeFrom none (UInt8.ofNat (w + 0xF0) :: UInt8.ofNat (x + 0x80) :: UInt8.ofNat (y + 0x80) ::
      UInt8.ofNat (z + 0x80) :: rest) =
      Char.ofNat (((w * 0x40 + x) * 0x40 + y) * 0x40 + z) :: decodeFrom none rest := by
  have h := toNat_byte (show w + 0xF0 < 0x100 by omega)
  have hlow : (if w = 0 then 0x90 else 0x80 : UInt8).toNat ≤ x + 0x80 := by
    split_ifs with h0
    · exact Nat.add_le_add_right (hlow h0) 0x80
    · exact Nat.le_add_left 0x80 x
  have hhigh : x + 0x80 ≤ (if w = 4 then 0x8F else 0xBF : UInt8).toNat := by
    split_ifs with h4
    · exact Nat.add_le_add_right (Nat.le_of_lt_succ (hhigh h4)) 0x80
    · exact Nat.add_le_add_right (Nat.le_of_lt_succ hx) 0x80
  have hy' : y + 0x80 ≤ (0xBF : UInt8).toNat := Nat.add_le_add_right (Nat.le_of_lt_succ hy) 0x80
  rw [decodeFrom_lead _ (by omega) (lead?_four w hw),
    decodeFrom_middle _ (toNat_byte (by omega)) hx hlow hhigh rfl,
    decodeFrom_middle (p := ⟨_, 0x80, 0xBF, 1⟩) _ (toNat_byte (by omega)) hy (Nat.le_add_left 0x80 y) hy'
      rfl,
    decodeFrom_last _ (toNat_byte (by omega)) hz]

theorem decodeFrom_encodeChar (c : Char) :
    decodeFrom none (String.utf8EncodeChar c ++ rest) = c :: decodeFrom none rest := by
  have hc : Char.ofNat c.val.toNat = c := Char.ofNat_toNat c
  have hvalid : c.val.toNat < 0xD800 ∨ 0xDFFF < c.val.toNat ∧ c.val.toNat < 0x110000 := c.valid
  rw [String.utf8EncodeChar]
  generalize c.val.toNat = v at hc hvalid
  split_ifs with h1 h2 h3
  · have hb := toNat_byte (show v < 0x100 by omega)
    have hlt : v < 0x80 := by omega
    simp [decodeFrom, step, start, UInt8.lt_iff_toNat_lt, hb, hlt, hc]
  · rw [Nat.mod_eq_of_lt (show v / 64 < 32 by omega)]
    refine (decodeFrom_two rest (by omega) (by omega) (by omega)).trans ?_
    rw [Nat.div_add_mod', hc]
  · rw [Nat.mod_eq_of_lt (show v / 4096 < 16 by omega)]
    refine (decodeFrom_three rest (by omega) (by omega) (by omega) (by omega) (by omega)).trans ?_
    rw [show (v / 4096 * 64 + v / 64 % 64) * 64 + v % 64 = v by omega, hc]
  · rw [Nat.mod_eq_of_lt (show v / 262144 < 8 by omega)]
    refine (decodeFrom_four rest (by omega) (by omega) (by omega) (by omega) (by omega) (by omega)).trans ?_
    rw [show ((v / 262144 * 64 + v / 4096 % 64) * 64 + v / 64 % 64) * 64 + v % 64 = v by omega, hc]

theorem decode_encode (text : String) : decode (encode text) = text := by
  have h (chars : List Char) : decodeFrom none (chars.flatMap String.utf8EncodeChar) = chars := by
    induction chars with
    | nil => rfl
    | cons c chars ih => rw [List.flatMap_cons, decodeFrom_encodeChar, ih]
  rw [decode, encode, h, String.ofList_toList]

/-- ASCII bytes are the bytes of their text. -/
theorem encode_decode {bytes : List UInt8} (h : ∀ b ∈ bytes, b.toNat < 0x80) : encode (decode bytes) = bytes := by
  rw [encode, decode, String.toList_ofList]
  induction bytes with
  | nil => rfl
  | cons b bytes ih =>
    obtain ⟨hb, hbytes⟩ := List.forall_mem_cons.1 h
    have hdecode : decodeFrom none (b :: bytes) = Char.ofNat b.toNat :: decodeFrom none bytes := by
      simp [decodeFrom, step, start, UInt8.lt_iff_toNat_lt, hb]
    have hencode : ∀ n < 0x80, String.utf8EncodeChar (Char.ofNat n) = [UInt8.ofNat n] := by decide
    rw [hdecode, List.flatMap_cons, ih hbytes, hencode _ hb, UInt8.ofNat_toNat]
    rfl

theorem encode_injective {text text' : String} (h : encode text = encode text') : text = text' := by
  rw [← decode_encode text, h, decode_encode]

/-- An ASCII byte is a character of its own. -/
theorem mem_of_mem_encode {text : String} (h : b ∈ encode text) (hb : b.toNat < 0x80) :
    Char.ofNat b.toNat ∈ text.toList := by
  obtain ⟨c, hc, hmem⟩ := List.mem_flatMap.1 h
  have hlarge (k m : Nat) (hm : 0x80 ≤ m) (hk : k + m < 0x100) : b ≠ UInt8.ofNat (k + m) := by
    rintro rfl
    rw [toNat_byte hk] at hb
    omega
  rw [String.utf8EncodeChar] at hmem
  split_ifs at hmem with h1 h2 h3
  · rw [List.mem_singleton.1 hmem, toNat_byte (by omega)]
    exact (Char.ofNat_toNat c).symm ▸ hc
  all_goals
    simp only [List.mem_cons, List.not_mem_nil, or_false] at hmem
    exfalso
  · rcases hmem with hmem | hmem <;> exact hlarge _ _ (by omega) (by omega) hmem
  · rcases hmem with hmem | hmem | hmem <;> exact hlarge _ _ (by omega) (by omega) hmem
  · rcases hmem with hmem | hmem | hmem | hmem <;> exact hlarge _ _ (by omega) (by omega) hmem

end Utf8

/-- Without backslashes nothing is escaped. -/
theorem Escape.decode_plain : ∀ {chars : List Char}, '\\' ∉ chars → decode chars = chars
  | [], _ => rfl
  | [c], h => by
    rw [decode, if_neg (fun hc => h (by simp [hc]))]
  | c :: d :: rest, h => by
    have hc : c ≠ '\\' := fun hc => h (by simp [hc])
    rw [decode, if_neg hc, decode_plain (fun hd => h (List.mem_cons_of_mem _ hd))]

end ScriptIndex
