import ScriptIndex.Program
import ScriptIndex.Proofs.Spelling

/-! # What comes next

A rule sees of its input the token that comes next (`Input.head`), and a token that is read leaves `Input.read`.
The tokens of a source are legible (`Options.stream_legible`): each of them is spelled as its kind is, and the end of
the source is not among them. -/

namespace ScriptIndex

/-! ### Legible streams -/

/-- A token is spelled as its kind is, unless it is the end of the text. -/
def Token.Legible (t : Token) : Prop := t.kind ≠ .eof → t.lexeme.Spelled

/-- The tokens of the stream are spelled as their kinds are, and the end of the text comes after them all. -/
structure Stream.Legible (stream : Stream) : Prop where
  spelled : ∀ t ∈ stream.tokens, t.lexeme.Spelled
  last : ∀ t, stream.last = .ok t → t.kind = .eof

theorem Stream.Legible.tokens {stream : Stream} (h : stream.Legible) : ∀ t ∈ stream.tokens, t.kind ≠ .eof :=
  fun t ht => (h.spelled t ht).reads.kind

theorem Cursor.stream_legible (c : Cursor) : c.stream.Legible := by
  refine ⟨c.stream_spelled, ?_⟩
  fun_induction stream c with
  | case1 c e c' h => simp
  | case2 c t c' h ht => simpa using ht
  | case3 c t c' h ht s ih => exact ih

theorem Stream.Legible.withoutDocs {stream : Stream} (h : stream.Legible) : stream.withoutDocs.Legible := by
  refine ⟨List.forall_mem_map.2 h.spelled, fun t ht => ?_⟩
  obtain ⟨tokens, last⟩ := stream
  cases last with
  | error e => cases ht
  | ok t' =>
    cases ht
    exact h.last t' rfl

theorem Options.stream_legible (options : Options) (source : List UInt8) : (options.stream source).Legible := by
  have h : (Stream.ofBytes source).Legible := Cursor.stream_legible _
  unfold Options.stream
  split
  · exact h
  · exact h.withoutDocs

/-! ### The next token -/

/-- What comes next. -/
def Input.head (s : Input) : Except SyntaxError Token :=
  match s.stream.tokens with
  | t :: _ => .ok t
  | [] => s.stream.last

/-- The input after the token that comes next. -/
def Input.read (s : Input) (t : Token) : Input := ⟨{ s.stream with tokens := s.stream.tokens.tail }, t.span.stop⟩

namespace Input
variable {s : Input} {t : Token}

theorem legible_head (hs : s.stream.Legible) (h : s.head = .ok t) : t.Legible := by
  intro hk
  unfold head at h
  split at h
  · next t' rest htokens =>
    cases h
    exact hs.spelled t (htokens ▸ List.mem_cons_self)
  · exact absurd (hs.last t h) hk

theorem legible_read (hs : s.stream.Legible) (t : Token) : (s.read t).stream.Legible :=
  ⟨fun t' ht' => hs.spelled t' (List.mem_of_mem_tail ht'), hs.last⟩

end Input

theorem Token.Legible.isIdentifier {t : Token} (h : t.Legible) (hk : t.kind = .identifier) : IsIdentifier t.text :=
  (h (by rw [hk]; decide)).isIdentifier hk

theorem Token.Legible.isWordText {t : Token} (h : t.Legible) (hk : ScriptReader.isPropertyName t = true) :
    IsWordText t.text := by
  rw [ScriptReader.isPropertyName, Bool.or_eq_true, decide_eq_true_iff] at hk
  refine (h ?_).isWordText hk
  rintro heof
  rw [heof] at hk
  exact absurd hk (by decide)

namespace ScriptReader

variable {s : Input} {t : Token} {e : SyntaxError} {α : Type}

theorem peek_of_head (h : s.head = .ok t) : peek s = pure (t, s) := by
  obtain ⟨⟨tokens, last⟩, lastEnd⟩ := s
  cases tokens with
  | cons => cases h; rfl
  | nil =>
    cases last with
    | ok => cases h; rfl
    | error => cases h

theorem peek_of_error (h : s.head = .error e) : peek s = throw (.rejected e) := by
  obtain ⟨⟨tokens, last⟩, lastEnd⟩ := s
  cases tokens with
  | cons => cases h
  | nil =>
    cases last with
    | ok => cases h
    | error => cases h; rfl

theorem peek_bind_of_head (h : s.head = .ok t) (f : Token → ScriptReader α) : (peek >>= f) s = f t s := by
  show peek s >>= (fun r => f r.1 r.2) = _
  rw [peek_of_head h]
  rfl

theorem peek_bind_of_error (h : s.head = .error e) (f : Token → ScriptReader α) :
    (peek >>= f) s = throw (.rejected e) := by
  show peek s >>= (fun r => f r.1 r.2) = _
  rw [peek_of_error h]
  rfl

theorem consume_of_head (h : s.head = .ok t) : consume s = pure (t, s.read t) :=
  peek_bind_of_head h _

theorem consume_bind_of_head (h : s.head = .ok t) (f : Token → ScriptReader α) :
    (consume >>= f) s = f t (s.read t) := by
  show consume s >>= (fun r => f r.1 r.2) = _
  rw [consume_of_head h]
  rfl

theorem accept_of_head (kind : TokenKind) (h : s.head = .ok t) :
    accept kind s = if t.kind = kind then pure (some t, s.read t) else pure (none, s) := by
  refine (peek_bind_of_head h _).trans ?_
  split
  · exact consume_bind_of_head h _
  · rfl

theorem accept_bind_of_head {kind : TokenKind} (h : s.head = .ok t) (f : Option Token → ScriptReader α) :
    (accept kind >>= f) s = if t.kind = kind then f (some t) (s.read t) else f none s := by
  show accept kind s >>= (fun r => f r.1 r.2) = _
  rw [accept_of_head kind h]
  split <;> rfl

end ScriptReader

end ScriptIndex
