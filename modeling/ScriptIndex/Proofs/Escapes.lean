import ScriptIndex.Proofs.Lexemes

/-! # Escapes and the bytes they are read from

The lexer takes a backslash together with the byte after it, and the decoder together with the character after it,
once the bytes are read as UTF-8. The two pair up the same backslashes: what may stand inside a literal decodes to
the end without a backslash that has nothing after it (`Quoted.Inside.complete`), whatever the bytes are. -/

namespace ScriptIndex

namespace Escape

variable {c : Char} {chars : List Char}

/-! ### Escaping -/

/-- How a character is written between quotes of the given kind. -/
def written (quote c : Char) : List Char :=
  if c = '\n' then ['\\', 'n'] else if c = '\\' ∨ c = quote then ['\\', c] else [c]

def encode (quote : Char) (chars : List Char) : List Char := chars.flatMap (written quote)

theorem decode_plain_cons (h : c ≠ '\\') (chars : List Char) : decode (c :: chars) = c :: decode chars := by
  cases chars <;> simp [decode, h]

theorem decode_escape (c : Char) (chars : List Char) : decode ('\\' :: c :: chars) = meaning c :: decode chars := by
  simp [decode]

/-- Escaped characters stand for the characters that they were. -/
theorem decode_encode {quote : Char} (h : meaning quote = quote) (chars : List Char) :
    decode (encode quote chars) = chars := by
  induction chars with
  | nil => rfl
  | cons c chars ih =>
    unfold encode at ih ⊢
    rw [List.flatMap_cons, written]
    split_ifs with hn hc
    · rw [List.cons_append, List.cons_append, List.nil_append, decode_escape, ih, hn]
      rfl
    · have hmeaning : meaning c = c := by
        rcases hc with rfl | rfl
        · rfl
        · exact h
      rw [List.cons_append, List.cons_append, List.nil_append, decode_escape, ih, hmeaning]
    · rw [List.singleton_append, decode_plain_cons (not_or.1 hc).1, ih]

/-! ### Complete texts -/

/-- Every backslash that begins an escape has a character after it. -/
inductive Complete : List Char → Prop
  | nil : Complete []
  | plain {c : Char} {rest : List Char} (hc : c ≠ '\\') (h : Complete rest) : Complete (c :: rest)
  | escape (c : Char) {rest : List Char} (h : Complete rest) : Complete ('\\' :: c :: rest)

theorem Complete.decode_append (h : Complete chars) (more : List Char) :
    decode (chars ++ more) = decode chars ++ decode more := by
  induction h with
  | nil => rfl
  | plain hc _ ih => rw [List.cons_append, decode_plain_cons hc, ih, decode_plain_cons hc, List.cons_append]
  | escape c _ ih =>
    rw [List.cons_append, List.cons_append, decode_escape, ih, decode_escape, List.cons_append]

/-- The texts that are complete are those whose decoding does not depend on what comes after them: a backslash
at the end would take the next character. -/
theorem complete_iff : Complete chars ↔ ∀ more, decode (chars ++ more) = decode chars ++ decode more := by
  refine ⟨fun h => h.decode_append, fun h => ?_⟩
  fun_induction decode chars with
  | case1 => exact .nil
  | case2 =>
    have hn := h ['n']
    simp [decode, meaning] at hn
  | case3 c hc => exact .plain hc .nil
  | case4 d rest ih =>
    refine .escape d (ih fun more => ?_)
    simpa [decode_escape] using h more
  | case5 c d rest hc ih =>
    refine .plain hc (ih fun more => ?_)
    simpa [decode_plain_cons hc] using h more

end Escape

/-! ### Characters that have begun -/

namespace Utf8
variable {b : UInt8} {p : Partial} {rest : List UInt8}

/-- A character that takes more than one byte has begun: its other bytes are no ASCII bytes, and its value is
going to be greater than that of any ASCII character. -/
structure Partial.Begun (p : Partial) : Prop where
  low : 0x80 ≤ p.low.toNat
  high : p.high.toNat ≤ 0xBF
  value : 2 ≤ p.value ∨ 0 < p.more ∧ (0 < p.value ∨ 0x90 ≤ p.low.toNat)

theorem begun_of_lead? (h : lead? b = some p) : p.Begun := by
  have hall : ∀ n < 0x100, ∀ p ∈ lead? (UInt8.ofNat n), 0x80 ≤ p.low.toNat ∧ p.high.toNat ≤ 0xBF ∧
      (2 ≤ p.value ∨ 0 < p.more ∧ (0 < p.value ∨ 0x90 ≤ p.low.toNat)) := by
    decide +kernel
  obtain ⟨hlow, hhigh, hvalue⟩ := hall b.toNat b.toNat_lt p (by rwa [UInt8.ofNat_toNat])
  exact ⟨hlow, hhigh, hvalue⟩

theorem ofNat_ne_backslash {n : Nat} (h : 0x80 ≤ n) : Char.ofNat n ≠ '\\' := by
  by_cases hvalid : n.isValidChar
  · rw [Char.ofNat, dif_pos hvalid]
    intro heq
    have hn : n = 0x5C := congrArg Char.toNat heq
    omega
  · rw [Char.ofNat, dif_neg hvalid]
    decide

theorem decodeFrom_cons (pending : Option Partial) (b : UInt8) (rest : List UInt8) :
    decodeFrom pending (b :: rest) = (step pending b).1 ++ decodeFrom (step pending b).2 rest := by
  cases pending <;> rfl

/-- A byte that does not go on with a character reads as after that character was given up. -/
theorem decodeFrom_outside (h : ¬ (p.low ≤ b ∧ b ≤ p.high)) (rest : List UInt8) :
    decodeFrom (some p) (b :: rest) = replacement :: decodeFrom none (b :: rest) := by
  simp [decodeFrom, step, h]

/-- A byte that goes on with a character completes it, or leaves it begun. -/
theorem Partial.Begun.step (h : p.Begun) (hlow : p.low ≤ b) (hhigh : b ≤ p.high) :
    (∃ c, c ≠ '\\' ∧ Utf8.step (some p) b = ([c], none)) ∨
      ∃ q : Partial, q.Begun ∧ Utf8.step (some p) b = ([], some q) := by
  obtain ⟨hlow', hhigh', hvalue⟩ := h
  rw [UInt8.le_iff_toNat_le] at hlow hhigh
  have hb : b.toNat % 0x40 + 0x80 = b.toNat := by omega
  have hnext : 2 ≤ p.value * 0x40 + b.toNat % 0x40 := by omega
  obtain ⟨value, low, high, more⟩ := p
  cases more with
  | zero =>
    have hvalue : 2 ≤ value := hvalue.resolve_right fun h => absurd h.1 (Nat.lt_irrefl 0)
    refine .inl ⟨Char.ofNat (value * 0x40 + b.toNat % 0x40), ofNat_ne_backslash (by omega), ?_⟩
    simp only [Utf8.step, UInt8.le_iff_toNat_le, hlow, hhigh]
    rfl
  | succ more =>
    have hbegun : Partial.Begun ⟨value * 0x40 + b.toNat % 0x40, 0x80, 0xBF, more⟩ :=
      ⟨Nat.le_refl 0x80, Nat.le_refl 0xBF, .inl hnext⟩
    refine .inr ⟨_, hbegun, ?_⟩
    simp only [Utf8.step, UInt8.le_iff_toNat_le, hlow, hhigh]
    rfl

end Utf8

/-! ### Bytes inside a literal -/

open Escape (Complete)

/-- The text of the bytes is complete, and so is what is read of them after a character that has begun: first that
character, which is no backslash, and then the rest. -/
structure ReadsComplete (bytes : List UInt8) : Prop where
  fresh : Complete (Utf8.decodeFrom none bytes)
  pending (p : Utf8.Partial) (h : p.Begun) :
    ∃ c chars, Utf8.decodeFrom (some p) bytes = c :: chars ∧ c ≠ '\\' ∧ Complete chars

namespace ReadsComplete
open Utf8

variable {b : UInt8} {rest : List UInt8}

theorem nil : ReadsComplete [] :=
  ⟨.nil, fun _ _ => ⟨replacement, [], rfl, by decide, .nil⟩⟩

/-- Before such bytes, a byte begins one character, which is a backslash only if the byte is. -/
theorem first (h : ReadsComplete rest) (b : UInt8) : ∃ c chars, decodeFrom none (b :: rest) = c :: chars ∧
    (c = '\\' → b = Byte.backslash) ∧ Complete chars := by
  rw [decodeFrom_cons]
  simp only [step, start]
  split_ifs with hascii
  · refine ⟨Char.ofNat b.toNat, _, rfl, fun hc => ?_, h.fresh⟩
    have hall : ∀ n < 0x80, Char.ofNat n = '\\' → n = 0x5C := by decide
    exact UInt8.toNat_inj.1 (hall b.toNat (UInt8.lt_iff_toNat_lt.1 hascii) hc)
  · cases hlead : lead? b with
    | none => exact ⟨replacement, _, rfl, fun hc => absurd hc (by decide), h.fresh⟩
    | some p =>
      obtain ⟨c, chars, hchars, hc, hcomplete⟩ := h.pending p (begun_of_lead? hlead)
      exact ⟨c, chars, hchars, fun hb => absurd hb hc, hcomplete⟩

theorem plain (h : ReadsComplete rest) (hb : b ≠ Byte.backslash) : ReadsComplete (b :: rest) := by
  have hfresh : Complete (decodeFrom none (b :: rest)) := by
    obtain ⟨c, chars, hchars, hc, hcomplete⟩ := h.first b
    rw [hchars]
    exact .plain (fun heq => hb (hc heq)) hcomplete
  refine ⟨hfresh, fun p hp => ?_⟩
  by_cases hin : p.low ≤ b ∧ b ≤ p.high
  · rw [decodeFrom_cons]
    rcases hp.step hin.1 hin.2 with ⟨c, hc, hstep⟩ | ⟨q, hq, hstep⟩ <;> rw [hstep]
    · exact ⟨c, _, rfl, hc, h.fresh⟩
    · exact h.pending q hq
  · exact ⟨replacement, _, decodeFrom_outside hin rest, by decide, hfresh⟩

theorem escape (h : ReadsComplete rest) (b : UInt8) : ReadsComplete (Byte.backslash :: b :: rest) := by
  obtain ⟨c, chars, hchars, -, hcomplete⟩ := h.first b
  have hfresh : Complete (decodeFrom none (Byte.backslash :: b :: rest)) := by
    show Complete ('\\' :: decodeFrom none (b :: rest))
    rw [hchars]
    exact .escape c hcomplete
  refine ⟨hfresh, fun p hp => ?_⟩
  -- no character goes on with a backslash
  have hout : ¬ (p.low ≤ Byte.backslash ∧ Byte.backslash ≤ p.high) := fun hin =>
    absurd (Nat.le_trans hp.low (UInt8.le_iff_toNat_le.1 hin.1)) (by decide)
  exact ⟨replacement, _, decodeFrom_outside hout _, by decide, hfresh⟩

end ReadsComplete

theorem Quoted.Inside.readsComplete {quote : UInt8} {inside : List UInt8} (h : Inside quote inside) :
    ReadsComplete inside := by
  induction h with
  | nil => exact .nil
  | plain _ hb _ _ ih => exact ih.plain hb
  | escape b _ ih => exact ih.escape b

/-- The inside of a literal, which need not be valid UTF-8, leaves no backslash without a character. -/
theorem Quoted.Inside.complete {quote : UInt8} {inside : List UInt8} (h : Inside quote inside) :
    Complete (Utf8.decode inside).toList := by
  rw [Utf8.decode, String.toList_ofList]
  exact h.readsComplete.fresh

end ScriptIndex
