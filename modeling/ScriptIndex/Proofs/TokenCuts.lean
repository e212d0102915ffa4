import ScriptIndex.Proofs.CheckedAccess
import ScriptIndex.Proofs.ScriptUnrolled

/-! # Tokens cut out of their source

What a parser cuts out of a source lies in it: the text of a token, the inside of a string literal and the contents of
the comment before a token (`Token.Cut`). So it is for every token that a parser can look at (`Options.cut_stream`). -/

namespace ScriptIndex
open Checked Piece

theorem Span.slice_split {source : List UInt8} (span : Span) (h : span.start ≤ span.stop)
    (hstop : span.stop ≤ source.length) :
    source = source.take span.start ++ (span.slice source ++ source.drop span.stop) ∧
      (source.take span.start).length = span.start := by
  refine ⟨?_, List.length_take_of_le (Nat.le_trans h hstop)⟩
  have hfront : source.take span.start = (source.take span.stop).take span.start := by
    rw [List.take_take, Nat.min_eq_left h]
  rw [slice, ← List.append_assoc, hfront, List.take_append_drop, List.take_append_drop]

/-- The slices at a token are no breach, and give what the token holds. -/
structure Token.Cut (source : List UInt8) (t : Token) : Prop where
  text : slice source t.span = .ok t.bytes
  inside : t.kind = .stringLiteral →
    slice source ⟨t.span.start + 1, t.span.stop - 1⟩ = .ok (t.bytes.drop 1).dropLast
  doc : ∀ text, t.doc = some text → slice source text.span = .ok text.bytes

namespace Token
variable {source : List UInt8} {start : Nat} {t : Token}

theorem Follows.cut_inside (h : t.Follows source start) (hle : t.span.start ≤ t.span.stop) {quote : UInt8}
    {inside : List UInt8} (hbytes : t.bytes = quote :: (inside ++ [quote])) :
    slice source ⟨t.span.start + 1, t.span.stop - 1⟩ = .ok inside := by
  obtain ⟨hsource, hstart⟩ := Span.slice_split t.span hle h.stop_le
  have hstop : t.span.stop = t.span.start + (inside.length + 2) := by
    have hlength := congrArg List.length hbytes
    rw [h.bytes, Span.slice, List.length_drop, List.length_take_of_le h.stop_le] at hlength
    simp only [List.length_cons, List.length_append, List.length_nil] at hlength
    omega
  rw [← h.bytes, hbytes] at hsource
  have hsplit : source = (source.take t.span.start ++ [quote]) ++ (inside ++ (quote :: source.drop t.span.stop)) := by
    conv_lhs => rw [hsource]
    simp
  have hcut := slice_of_append hsplit
  rw [List.length_append, hstart, List.length_singleton] at hcut
  rw [hstop, show t.span.start + (inside.length + 2) - 1 = t.span.start + 1 + inside.length by omega]
  exact hcut

theorem Follows.cut_doc (h : t.Follows source start) (hle : t.span.start ≤ t.span.stop) {text : DocText}
    (hdoc : t.doc = some text) : slice source text.span = .ok text.bytes := by
  obtain ⟨pieces, hbytes, -, hlast, -⟩ := h.gap
  rw [hdoc] at hlast
  obtain ⟨before, after, rfl, -, hspan⟩ := hlast
  obtain ⟨hsource, hstart⟩ := Span.slice_split ⟨start, t.span.start⟩ h.start_le
    (Nat.le_trans hle h.stop_le)
  have hsplit : source = (source.take start ++ bytesOf before ++ ascii "/**") ++
      (text.bytes ++ (ascii "*/" ++ (bytesOf after ++ source.drop t.span.start))) := by
    conv_lhs => rw [hsource, ← hbytes]
    simp [bytesOf, Piece.bytes]
  have hcut := slice_of_append hsplit
  rw [List.length_append, List.length_append, hstart] at hcut
  rw [hspan]
  exact hcut

theorem Follows.cut (h : t.Follows source start) (hle : t.span.start ≤ t.span.stop)
    (hstring : t.kind = .stringLiteral → t.lexeme.Spelled) : t.Cut source where
  text := by rw [slice_eq hle h.stop_le, h.bytes]
  inside hk := by
    obtain ⟨quote, inside, -, -, hbytes⟩ := (hstring hk).inside hk
    have hbytes : t.bytes = quote :: (inside ++ [quote]) := hbytes
    rw [h.cut_inside hle hbytes, hbytes, List.drop_one, List.tail_cons, List.dropLast_concat]
  doc _ hdoc := h.cut_doc hle hdoc

theorem Cut.shown {options : Options} (h : t.Cut source) : (options.shownToken t).Cut source := by
  unfold Options.shownToken
  split
  · exact h
  · exact ⟨h.text, h.inside, nofun⟩

end Token

/-- Each token that is left, and the one that ends them, can be cut out of the source. -/
structure Stream.Cut (source : List UInt8) (stream : Stream) : Prop where
  tokens : ∀ t ∈ stream.tokens, t.Cut source
  last : ∀ t, stream.last = .ok t → t.Cut source

namespace Stream
variable {source : List UInt8}

theorem Tiles.cut {last : Except SyntaxError Token} : ∀ {start : Nat} {tokens : List Token},
    Tiles source start tokens last → (∀ t ∈ tokens, t.lexeme.Spelled) → Cut source ⟨tokens, last⟩
  | start, [], h, _ => by
    refine ⟨List.forall_mem_nil _, fun t hlast => ?_⟩
    have hlast : last = .ok t := hlast
    subst hlast
    obtain ⟨heof, hspan, hfollows⟩ := h
    refine hfollows.cut (by rw [hspan]) fun hk => ?_
    cases heof.symm.trans hk
  | _, t :: tokens, ⟨_, hlt, hfollows, htiles⟩, hspelled => by
    obtain ⟨ht, htokens⟩ := List.forall_mem_cons.1 hspelled
    have hcut := htiles.cut htokens
    exact ⟨List.forall_mem_cons.2 ⟨hfollows.cut (Nat.le_of_lt hlt) fun _ => ht, hcut.tokens⟩, hcut.last⟩

theorem cut_ofBytes (source : List UInt8) : Cut source (ofBytes source) :=
  (Stream.ofBytes_tiles source).1.cut (Cursor.ofBytes source).stream_spelled

theorem Cut.shown {stream : Stream} (h : stream.Cut source) (options : Options) : (options.shown stream).Cut source := by
  rw [options.shown_eq]
  refine ⟨fun t ht => ?_, fun t ht => ?_⟩
  · obtain ⟨u, hu, rfl⟩ := List.mem_map.1 ht
    exact (h.tokens u hu).shown
  · cases hlast : stream.last with
    | error e =>
      rw [hlast] at ht
      cases ht
    | ok u =>
      rw [hlast] at ht
      cases ht
      exact (h.last u hlast).shown

end Stream

/-- Whatever the options show of a source can be cut out of it. -/
theorem Options.cut_stream (options : Options) (source : List UInt8) : (options.stream source).Cut source :=
  (Stream.cut_ofBytes source).shown options

end ScriptIndex
