import ScriptIndex.Proofs.Spelling
import ScriptIndex.Proofs.Tiling

/-! # Tokens of a respaced source

Every token is found again from its own text, before a blank or the end (`Lexeme.Spelled.reads`). So a source
may be written anew from its tokens with any blanks between them: it has the same tokens
(`Stream.ofBytes_respaced`). -/

namespace ScriptIndex

theorem Cursor.stream_reads (c : Cursor) : ∀ t ∈ c.stream.tokens, t.lexeme.Reads := fun t ht =>
  (c.stream_spelled t ht).reads

/-! ### Writing tokens anew -/

/-- The texts one after the other, and between them the gaps. -/
def interleave : List (List UInt8) → List (List UInt8) → List UInt8
  | text :: texts, gap :: gaps => text ++ (gap ++ interleave texts gaps)
  | texts, _ => texts.flatten

theorem Delimits.blanks {blanks tail : List UInt8} (h : ∀ b ∈ blanks, Byte.isBlank b = true)
    (hempty : blanks = [] → tail = []) : Delimits (blanks ++ tail) := by
  cases blanks with
  | nil =>
    rw [hempty rfl]
    exact .nil
  | cons b blanks => exact .cons (h b (List.mem_cons_self ..)) _

/-- Lexemes with gaps of blanks between them, after blanks and before blanks. -/
theorem Written.interleave {trail : List UInt8} (htrail : ∀ b ∈ trail, Byte.isBlank b = true) :
    ∀ {ws : List Lexeme} {gaps : List (List UInt8)} {lead : List UInt8}, (∀ w ∈ ws, w.Reads) →
      gaps.length = ws.length - 1 → (∀ gap ∈ gaps, gap ≠ [] ∧ ∀ b ∈ gap, Byte.isBlank b = true) →
      (∀ b ∈ lead, Byte.isBlank b = true) →
        Written ws (lead ++ (ScriptIndex.interleave (ws.map Lexeme.bytes) gaps ++ trail))
  | [], gaps, lead, _, _, _, hlead => .nil (List.forall_mem_append.2 ⟨hlead, htrail⟩)
  | [w], [], lead, hws, _, _, hlead => by
    have hw : Written [w] (lead ++ (w.bytes ++ (trail ++ []))) := by
      refine .cons hlead (hws w (List.mem_singleton_self w)) (.blanks htrail fun _ => rfl) ?_
      rw [List.append_nil]
      exact .nil htrail
    simpa [ScriptIndex.interleave] using hw
  | w :: v :: ws, gap :: gaps, lead, hws, hlength, hgaps, hlead => by
    obtain ⟨⟨hne, hgap⟩, hgaps⟩ := List.forall_mem_cons.1 hgaps
    obtain ⟨hw, hws⟩ := List.forall_mem_cons.1 hws
    have hrest := interleave htrail hws (Nat.succ.inj hlength) hgaps hgap
    rw [List.map_cons, ScriptIndex.interleave, List.append_assoc, List.append_assoc]
    exact .cons hlead hw (.blanks hgap fun h => absurd h hne) hrest

namespace Stream

/-- The tokens of a source, up to an error if there is one, written with any blanks between them are read as the
same tokens: no error comes after them, and no documentation is before any of them. -/
theorem ofBytes_respaced {source lead trail : List UInt8} {gaps : List (List UInt8)}
    (hlength : gaps.length = (ofBytes source).tokens.length - 1)
    (hgaps : ∀ gap ∈ gaps, gap ≠ [] ∧ ∀ b ∈ gap, Byte.isBlank b = true)
    (hlead : ∀ b ∈ lead, Byte.isBlank b = true) (htrail : ∀ b ∈ trail, Byte.isBlank b = true) :
    (ofBytes (lead ++ (interleave ((ofBytes source).tokens.map Token.bytes) gaps ++ trail))).Shows
      ((ofBytes source).tokens.map Token.lexeme) := by
  have hreads : ∀ w ∈ (ofBytes source).tokens.map Token.lexeme, w.Reads :=
    List.forall_mem_map.2 (Cursor.ofBytes source).stream_reads
  have hwritten := Written.interleave htrail hreads (by rwa [List.length_map]) hgaps hlead
  rw [List.map_map] at hwritten
  exact hwritten.stream _ rfl

/-- A call with a number that ends in a dot and with an escaped quote, then marks that begin longer ones. -/
theorem ofBytes_respaced_marks :
    (ofBytes (ascii "\tf ( 1. , \"\\\"\" ) == = a\n")).Shows
      [⟨.identifier, ascii "f"⟩, ⟨.parenOpen, ascii "("⟩, ⟨.numberLiteral, ascii "1."⟩, ⟨.comma, ascii ","⟩,
        ⟨.stringLiteral, ascii "\"\\\"\""⟩, ⟨.parenClose, ascii ")"⟩, ⟨.equalsEquals, ascii "=="⟩,
        ⟨.equals, ascii "="⟩, ⟨.identifier, ascii "a"⟩] := by
  let source := ascii "f(1.,\"\\\"\")/**d*/==/**/=a"
  have hblank : ∀ b ∈ ascii " ", Byte.isBlank b = true := List.all_eq_true.1 (by decide)
  have hlead : ∀ b ∈ ascii "\t", Byte.isBlank b = true := List.all_eq_true.1 (by decide)
  have htrail : ∀ b ∈ ascii "\n", Byte.isBlank b = true := List.all_eq_true.1 (by decide)
  have hgaps : ∀ gap ∈ List.replicate 8 (ascii " "), gap ≠ [] ∧ ∀ b ∈ gap, Byte.isBlank b = true := fun gap hgap =>
    List.eq_of_mem_replicate hgap ▸ ⟨by decide, hblank⟩
  have hshows := @ofBytes_respaced source (ascii "\t") (ascii "\n") _ (by decide +kernel) hgaps hlead htrail
  have htext : ascii "\t" ++ (interleave ((ofBytes source).tokens.map Token.bytes) (List.replicate 8 (ascii " ")) ++
      ascii "\n") = ascii "\tf ( 1. , \"\\\"\" ) == = a\n" := by
    decide +kernel
  have htokens : (ofBytes source).tokens.map Token.lexeme =
      [⟨.identifier, ascii "f"⟩, ⟨.parenOpen, ascii "("⟩, ⟨.numberLiteral, ascii "1."⟩, ⟨.comma, ascii ","⟩,
        ⟨.stringLiteral, ascii "\"\\\"\""⟩, ⟨.parenClose, ascii ")"⟩, ⟨.equalsEquals, ascii "=="⟩,
        ⟨.equals, ascii "="⟩, ⟨.identifier, ascii "a"⟩] := by
    decide +kernel
  rwa [htext, htokens] at hshows

end Stream

end ScriptIndex
