import ScriptIndex.Proofs.LexicalErrors
import ScriptIndex.Proofs.ScriptUnrolled

/-! # What a source is refused for

Reading a source ends, with a node or with an error (`Build.Ends`). The error is about a place of the source
(`SyntaxError.Placed`), and it agrees with the tokens of the source (`SyntaxError.Consistent`). -/

namespace ScriptIndex

/-! ### Runs that end -/

namespace Build

/-- The run gives a result, or it refuses the text with an error that satisfies `E`: it is never cut short, and it
asks for no node that is not there. -/
inductive Ends {α : Type} (E : SyntaxError → Prop) : EStateM.Result Failure Arena α → Prop
  | ok (a : α) (arena : Arena) : Ends E (.ok a arena)
  | rejected {e : SyntaxError} (h : E e) (arena : Arena) : Ends E (.error (.rejected e) arena)

variable {α : Type} {E : SyntaxError → Prop}

theorem Ends.imp {E' : SyntaxError → Prop} {r : EStateM.Result Failure Arena α} (h : Ends E r)
    (hE : ∀ e, E e → E' e) : Ends E' r := by
  cases h with
  | ok a arena => exact .ok a arena
  | rejected h arena => exact .rejected (hE _ h) arena

open Relocation

/-- What goes on alike beside itself asks for no node that is not there. -/
theorem Finishes.ends {x : Build α} {Q : α → Prop} {R : Nat → α → α → Prop} (h : Finishes E x Q) {arena : Arena}
    (hx : Relocates anywhere arena.size x x R) : Ends E (x arena) := by
  have hruns := hx arena arena (anywhere_arenas.2 rfl) (Nat.le_refl _)
  have h := h arena
  generalize x arena = r at hruns h
  cases hruns with
  | ok => exact .ok _ _
  | error _ hfail =>
    cases hfail with
    | rejected =>
      cases h with
      | rejected h => exact .rejected h _
    | exhausted => cases h

theorem run'_ends {x : ScriptReader NodeId} {source : List UInt8} {options : Options} {Q : NodeId → Input → Prop}
    (h : Reader.Finishes E x (.ofStream (options.stream source)) Q) (hmoves : Reader.Moves anywhere anywhere.Inputs x)
    (arena : Arena) : Ends E (x.run' (.ofStream (options.stream source)) arena) := by
  have hinputs : anywhere.Inputs (.ofStream (options.stream source)) (.ofStream (options.stream source)) :=
    ⟨(@anywhere_streams source source rfl).shown options, trivial⟩
  have hends := Finishes.ends h (hmoves arena.size _ _ hinputs)
  show Ends E (EStateM.map Prod.fst (x _) arena)
  unfold EStateM.map
  generalize x _ arena = r at hends ⊢
  cases hends with
  | ok r arena => exact .ok r.1 arena
  | rejected h arena => exact .rejected h arena

theorem script_ends (source : List UInt8) (options : Options) (arena : Arena) :
    Ends (options.stream source).Explains (script source options arena) :=
  run'_ends (ScriptReader.script_finishes (options.stream_legible source) options.module)
    (ScriptReader.script_moves anywhere trivial options.module) arena

theorem expression_ends (source : List UInt8) (options : Options) (arena : Arena) :
    Ends (options.stream source).Explains (expression source options arena) :=
  run'_ends (ScriptReader.expression_finishes (options.stream_legible source))
    (ScriptReader.expression_moves anywhere) arena

/-- Reading documentation ends, and only a malformed type in it is refused. -/
theorem doc_ends (text : Cursor) (arena : Arena) :
    Ends (SyntaxError.MalformedType text.pos (text.pos + text.rest.length)) (doc text arena) :=
  (doc_finishes text).ends (doc_relocates ⟨trivial, rfl⟩)

end Build

/-! ### Tokens in their source -/

theorem Span.length_slice_le (span : Span) (source : List UInt8) :
    (span.slice source).length ≤ span.stop - span.start := by
  rw [slice, List.length_drop, List.length_take]
  exact Nat.sub_le_sub_right (Nat.min_le_left _ _) _

namespace Token
variable {source : List UInt8} {start : Nat} {t : Token}

/-- The comment before a token ends before it. -/
theorem Follows.doc_le (h : t.Follows source start) {text : DocText} (hdoc : t.doc = some text) :
    text.span.start + text.bytes.length ≤ t.span.start := by
  obtain ⟨pieces, hbytes, -, hlast, -⟩ := h.gap
  rw [hdoc] at hlast
  obtain ⟨before, after, rfl, -, hspan⟩ := hlast
  have hstart := h.start_le
  have hlength := Span.length_slice_le ⟨start, t.span.start⟩ source
  simp only [← hbytes, Piece.bytesOf, Piece.bytes, List.flatMap_append, List.flatMap_cons,
    List.length_append] at hlength
  have hmark : (ascii "/**").length = 3 := rfl
  simp only [hspan, Piece.bytesOf]
  omega

/-- The token and the comment before it lie in the source. -/
structure Inside (source : List UInt8) (t : Token) : Prop where
  start_le : t.span.start ≤ t.span.stop
  stop_le : t.span.stop ≤ source.length
  doc_le : ∀ text, t.doc = some text → text.span.start + text.bytes.length ≤ source.length

theorem Follows.inside (h : t.Follows source start) (hlt : t.span.start < t.span.stop) : t.Inside source := by
  refine ⟨Nat.le_of_lt hlt, h.stop_le, fun text hdoc => ?_⟩
  have hle := h.stop_le
  have hdoc := h.doc_le hdoc
  omega

end Token

theorem Stream.Tiles.inside {source : List UInt8} {last : Except SyntaxError Token} : ∀ {start : Nat}
    {tokens : List Token}, Tiles source start tokens last → ∀ t ∈ tokens, t.Inside source
  | _, [], _ => List.forall_mem_nil _
  | _, _ :: _, ⟨_, hlt, hfollows, htiles⟩ => List.forall_mem_cons.2 ⟨hfollows.inside hlt, htiles.inside⟩

theorem Stream.inside_ofBytes {source : List UInt8} {t : Token} (h : t ∈ (ofBytes source).tokens) : t.Inside source :=
  (Cursor.stream_tiles (c := .ofBytes source) ⟨[], rfl, rfl⟩).inside t h

namespace Options
variable {options : Options} {source : List UInt8} {t : Token}

theorem doc_shownToken {text : DocText} (h : (options.shownToken t).doc = some text) : t.doc = some text := by
  unfold shownToken at h
  split at h
  · exact h
  · cases h

theorem bytes_shownToken : (options.shownToken t).bytes = t.bytes := by
  unfold shownToken
  split <;> rfl

theorem mem_stream (h : t ∈ (options.stream source).tokens) :
    ∃ u ∈ (Stream.ofBytes source).tokens, options.shownToken u = t := by
  change t ∈ (options.shown (Stream.ofBytes source)).tokens at h
  rw [shown_eq] at h
  exact List.mem_map.1 h

theorem inside_of_mem (h : t ∈ (options.stream source).tokens) : t.Inside source := by
  obtain ⟨u, hu, rfl⟩ := mem_stream h
  obtain ⟨hstart, hstop, hdoc⟩ := Stream.inside_ofBytes hu
  rw [← options.span_shownToken] at hstart hstop
  exact ⟨hstart, hstop, fun text htext => hdoc text (doc_shownToken htext)⟩

theorem lexical_of_last {e : SyntaxError} (h : (options.stream source).last = .error e) : e.Lexical source := by
  change (options.shown (Stream.ofBytes source)).last = .error e at h
  rw [shown_eq] at h
  cases hlast : (Stream.ofBytes source).last with
  | ok t =>
    rw [hlast] at h
    cases h
  | error e' =>
    rw [hlast] at h
    cases h
    exact Cursor.stream_lexical ⟨[], rfl, rfl⟩ hlast

end Options

/-! ### Places of errors -/

/-- The error is about bytes of the source, or about a string literal that lacks even the byte which its last
backslash escapes: that byte is counted. -/
structure SyntaxError.Placed (source : List UInt8) (e : SyntaxError) : Prop where
  start_le : e.span.start ≤ e.span.stop
  stop_le : e.span.stop ≤ source.length + 1
  beyond : source.length < e.span.stop ↔ e.cause = .unterminatedString ∧ DanglingString (source.drop e.span.start)

namespace SyntaxError
variable {source : List UInt8} {options : Options} {e : SyntaxError}

theorem Lexical.placed (h : e.Lexical source) : e.Placed source := by
  obtain ⟨c, hc, fault, hfault, rfl⟩ := h
  have hlength := hc.length
  have hextent := hfault.extent_le
  refine ⟨Nat.le_add_right _ _, ?_, ?_⟩
  · show c.pos + fault.extent ≤ source.length + 1
    omega
  · show source.length < c.pos + fault.extent ↔ fault.cause = .unterminatedString ∧ DanglingString (source.drop c.pos)
    rw [hc.drop, ← hfault.beyond, hlength]
    omega

theorem placed_of_stop_le (hstart : e.span.start ≤ e.span.stop) (hstop : e.span.stop ≤ source.length)
    (hcause : e.cause ≠ .unterminatedString) : e.Placed source :=
  ⟨hstart, Nat.le_succ_of_le hstop, iff_of_false (Nat.not_lt.2 hstop) fun h => hcause h.1⟩

theorem placed_of_explains (h : (options.stream source).Explains e) : e.Placed source := by
  cases h with
  | lexical hlast => exact (Options.lexical_of_last hlast).placed
  | ended hlast =>
    rw [Options.span_of_last hlast]
    exact placed_of_stop_le (Nat.le_refl _) (Nat.le_refl _) Cause.noConfusion
  | refused hmem hcause =>
    have hinside := Options.inside_of_mem hmem
    refine placed_of_stop_le hinside.start_le hinside.stop_le ?_
    rintro rfl
    cases hcause
  | malformedType hmem hdoc he =>
    refine placed_of_stop_le he.le (Nat.le_trans he.le_stop ((Options.inside_of_mem hmem).doc_le _ hdoc)) ?_
    rw [he.cause]
    exact Cause.noConfusion

end SyntaxError

namespace Build

/-- Reading a script or an expression ends, and what it refuses lies in the source, but for a string literal that
ends with the source in a backslash: its error reaches one byte further. -/
theorem refusals_placed (source : List UInt8) (options : Options) (arena : Arena) :
    Ends (·.Placed source) (script source options arena) ∧ Ends (·.Placed source) (expression source options arena) :=
  ⟨(script_ends source options arena).imp fun _ => SyntaxError.placed_of_explains,
    (expression_ends source options arena).imp fun _ => SyntaxError.placed_of_explains⟩

/-- What a run refuses the text for, if it does. -/
def refusal? : EStateM.Result Failure Arena NodeId → Option SyntaxError
  | .error (.rejected e) _ => some e
  | .error _ _ | .ok _ _ => none

/-- A quote and a backslash, two bytes, are refused as three. -/
theorem not_refusals_inside : ¬ ∀ (source : List UInt8) (options : Options) (arena : Arena),
    Ends (fun e => e.span.start ≤ e.span.stop ∧ e.span.stop ≤ source.length) (script source options arena) := by
  intro h
  have hinside := h [Byte.doubleQuote, Byte.backslash] .standard .empty
  have hrefused : refusal? (script [Byte.doubleQuote, Byte.backslash] .standard .empty) =
      some ⟨.unterminatedString, ⟨0, 3⟩, none⟩ := by decide +kernel
  generalize script [Byte.doubleQuote, Byte.backslash] .standard .empty = r at hinside hrefused
  cases hinside with
  | ok => cases hrefused
  | rejected hspan =>
    cases hrefused
    exact absurd hspan.2 (by decide)

end Build

/-! ### Errors and tokens -/

/-- What a token of the kind may be refused for. -/
inductive Cause.Refuses (kind : TokenKind) : Cause → Prop
  | invalidAssignmentTarget (h : kind = .equals) : Refuses kind .invalidAssignmentTarget
  | expected (construct : Construct) : Refuses kind (.expected construct)
  | missingToken {required : TokenKind} (h : required ≠ kind) : Refuses kind (.missingToken required)

/-- The error agrees with the tokens of the source: it is about a text that is no token, or about the end of the
source, or about one of its tokens. -/
def SyntaxError.Consistent (source : List UInt8) (e : SyntaxError) : Prop :=
  match e.token with
  | none => e.cause ∈ [.invalidCharacter, .unterminatedComment, .unterminatedString, .malformedNumber, .malformedType]
  | some .eof => e.cause = .unexpectedEnd ∧ e.span = ⟨source.length, source.length⟩
  | some kind => e.cause.Refuses kind ∧ ∃ t ∈ (Stream.ofBytes source).tokens, t.kind = kind ∧ t.span = e.span

namespace SyntaxError
variable {source : List UInt8} {options : Options} {e : SyntaxError}

theorem consistent_of_none (h : e.token = none) (hcause : e.cause ∈
    [.invalidCharacter, .unterminatedComment, .unterminatedString, .malformedNumber, .malformedType]) :
    e.Consistent source := by
  unfold Consistent
  rw [h]
  exact hcause

theorem consistent_of_token {t : Token} {cause : Cause} (h : t ∈ (Stream.ofBytes source).tokens)
    (hcause : cause.Refuses t.kind) : (⟨cause, t.span, some t.kind⟩ : SyntaxError).Consistent source := by
  have hlegible : (Stream.ofBytes source).Legible := Cursor.stream_legible _
  have hne := hlegible.tokens t h
  have hmem : ∃ u ∈ (Stream.ofBytes source).tokens, u.kind = t.kind ∧ u.span = t.span := ⟨t, h, rfl, rfl⟩
  unfold Consistent
  split
  · next heq => cases heq
  · next heq => exact absurd (Option.some.inj heq) hne
  · next heq =>
    cases heq
    exact ⟨hcause, hmem⟩

theorem consistent_of_explains (h : (options.stream source).Explains e) : e.Consistent source := by
  cases h with
  | lexical hlast =>
    have hlexical := Options.lexical_of_last hlast
    refine consistent_of_none hlexical.token ?_
    have hcause := hlexical.cause
    simp only [List.mem_cons, List.not_mem_nil, or_false] at hcause ⊢
    tauto
  | ended hlast => exact ⟨rfl, Options.span_of_last hlast⟩
  | @refused t cause hmem hcause =>
    obtain ⟨u, hu, rfl⟩ := Options.mem_stream hmem
    rw [Options.kind_shownToken, Options.span_shownToken]
    refine consistent_of_token hu ?_
    cases hcause with
    | expected construct => exact .expected construct
    | missingToken hne => exact .missingToken (by rwa [Options.kind_shownToken, ne_comm] at hne)
    | invalidAssignmentTarget hk => exact .invalidAssignmentTarget (by rwa [Options.kind_shownToken] at hk)
    | malformedNumber hk hnone =>
      -- the lexer has let the number pass, so it has a value
      rw [Options.kind_shownToken] at hk
      rw [Options.bytes_shownToken] at hnone
      obtain ⟨x, hx⟩ := Cursor.stream_numbers _ u hu hk
      cases hnone.symm.trans hx
  | malformedType _ _ he =>
    refine consistent_of_none he.token ?_
    rw [he.cause]
    decide

end SyntaxError

namespace Build

/-- An error of a script agrees with the tokens of its source, and none is about a number among them: each of those
has a value. -/
theorem refusals_consistent (source : List UInt8) (options : Options) (arena : Arena) :
    Ends (·.Consistent source) (script source options arena) ∧
      ∀ t ∈ (Stream.ofBytes source).tokens, t.kind = .numberLiteral → ∃ x, Numeral.ofBytes? t.bytes = some x :=
  ⟨(script_ends source options arena).imp fun _ => SyntaxError.consistent_of_explains, Cursor.stream_numbers _⟩

end Build

end ScriptIndex
