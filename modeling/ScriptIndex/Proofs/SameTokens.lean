import ScriptIndex.Proofs.ScriptProgress
import ScriptIndex.Proofs.ScriptRelocation
import ScriptIndex.Proofs.Tiling

/-! # Reading sees only tokens

Two sources whose tokens differ in nothing but their places read as the same tree, whatever blanks and
comments stand between the tokens. This is relocation by nothing: both runs start from one arena, and any two
positions are near. -/

namespace ScriptIndex

/-! ### What is seen of a source -/

/-- A token without its place. -/
structure Content where
  kind : TokenKind
  bytes : List UInt8
  doc : Option (List UInt8)
deriving Repr, DecidableEq

/-- What comes after the tokens: the end of the text, perhaps with documentation before it, or an error. -/
inductive Ending
  | text (doc : Option (List UInt8))
  | error (cause : Cause)
deriving Repr, DecidableEq

structure Contents where
  tokens : List Content
  ending : Ending
deriving Repr, DecidableEq

def Token.content (t : Token) : Content := ⟨t.kind, t.bytes, t.doc.map (·.bytes)⟩

def Stream.contents (s : Stream) : Contents where
  tokens := s.tokens.map Token.content
  ending := match s.last with
    | .ok t => .text (t.doc.map (·.bytes))
    | .error e => .error e.cause

/-- The stream as the options show it. -/
def Options.shown (options : Options) (stream : Stream) : Stream :=
  if options.docs then stream else stream.withoutDocs

def Node.withoutSpan (x : Node) : Node := { x with span := default }

/-- All that an arena holds but the spans of its nodes. -/
def Arena.withoutSpans (arena : Arena) : Arena := ⟨arena.nodes.map Node.withoutSpan⟩

/-! ### The ends of streams -/

namespace Cursor

theorem skipGaps_error {c c' : Cursor} {doc : Option DocText} {e : SyntaxError} (h : c.skipGaps doc = .error e c') :
    e.token = none := by
  fun_induction skipGaps c doc with
  | case1 c doc fault hgap =>
    cases h
    rfl
  | case2 => cases h
  | case3 c doc gap hgap ih => exact ih h

/-- An error of the lexer is about no token. -/
theorem next_error {c c' : Cursor} {e : SyntaxError} (h : c.next = .error e c') : e.token = none := by
  unfold next at h
  split at h
  · next hskip =>
    cases h
    exact skipGaps_error hskip
  · split at h
    · cases h
      rfl
    · cases h

theorem next_eof {c c' : Cursor} {t : Token} (h : c.next = .ok t c') (ht : t.kind = .eof) : t.bytes = [] := by
  unfold next at h
  split at h
  · cases h
  · next doc c₁ hskip =>
    split at h
    · cases h
    · next kind length hlex =>
      cases h
      show c₁.rest.take length = []
      rw [(lexeme_le hlex).2 ht, List.take_nil]

theorem stream_last (c : Cursor) : match c.stream.last with
    | .ok t => t.bytes = []
    | .error e => e.token = none := by
  fun_induction stream c with
  | case1 c e c' h => exact next_error h
  | case2 c t c' h ht => exact next_eof h ht
  | case3 c t c' h ht s ih => exact ih

end Cursor

namespace Relocation

/-- One arena, and any positions. -/
def anywhere : Relocation where
  base := .empty
  near _ _ := True
  near_add _ _ := trivial
  near_max _ _ := trivial

theorem anywhere_spans (a b : Span) : anywhere.Spans a b := ⟨trivial, trivial⟩

theorem anywhere_docs {d d' : Option DocText} (h : d.map (·.bytes) = d'.map (·.bytes)) :
    Option.Rel anywhere.DocTexts d d' := by
  cases d with
  | none =>
    cases d' with
    | none => exact .none
    | some => cases h
  | some text =>
    cases d' with
    | none => cases h
    | some text' => exact .some ⟨trivial, (Option.some.inj h).symm⟩

theorem anywhere_tokens {t t' : Token} (h : t.content = t'.content) : anywhere.Tokens t t' :=
  ⟨(congrArg Content.kind h).symm, anywhere_spans _ _, (congrArg Content.bytes h).symm,
    anywhere_docs (congrArg Content.doc h)⟩

theorem anywhere_forall₂ : ∀ {l l' : List Token}, l.map Token.content = l'.map Token.content →
    List.Forall₂ anywhere.Tokens l l'
  | [], [], _ => .nil
  | _ :: _, _ :: _, h => .cons (anywhere_tokens (List.cons.inj h).1) (anywhere_forall₂ (List.cons.inj h).2)

/-- Sources of the same contents are read alike. -/
theorem anywhere_streams {source source' : List UInt8}
    (h : (Stream.ofBytes source).contents = (Stream.ofBytes source').contents) :
    anywhere.Streams (.ofBytes source) (.ofBytes source') := by
  refine ⟨anywhere_forall₂ (congrArg Contents.tokens h), ?_⟩
  have hend := congrArg Contents.ending h
  have honce := (Cursor.ofBytes source).stream_legible.last
  have honce' := (Cursor.ofBytes source').stream_legible.last
  have hlast := (Cursor.ofBytes source).stream_last
  have hlast' := (Cursor.ofBytes source').stream_last
  unfold Stream.contents Stream.ofBytes at hend
  unfold Stream.ofBytes
  cases hl : (Cursor.ofBytes source).stream.last with
  | ok t =>
    cases hr : (Cursor.ofBytes source').stream.last with
    | ok t' =>
      rw [hl] at hend honce hlast
      rw [hr] at hend honce' hlast'
      refine .ok ⟨?_, anywhere_spans _ _, ?_, anywhere_docs (Ending.text.inj hend)⟩
      · rw [honce t rfl, honce' t' rfl]
      · exact Eq.trans hlast' (Eq.symm hlast)
    | error e' =>
      rw [hl, hr] at hend
      cases hend
  | error e =>
    cases hr : (Cursor.ofBytes source').stream.last with
    | ok t' =>
      rw [hl, hr] at hend
      cases hend
    | error e' =>
      rw [hl] at hend hlast
      rw [hr] at hend hlast'
      refine .error ⟨(Ending.error.inj hend).symm, anywhere_spans _ _, ?_⟩
      exact Eq.trans hlast' (Eq.symm hlast)

theorem Streams.withoutDocs {m : Relocation} {s s' : Stream} (h : m.Streams s s') :
    m.Streams s.withoutDocs s'.withoutDocs := by
  have strip {t t' : Token} (ht : m.Tokens t t') : m.Tokens { t with doc := none } { t' with doc := none } :=
    ⟨ht.kind, ht.span, ht.bytes, .none⟩
  obtain ⟨tokens, last⟩ := s
  obtain ⟨tokens', last'⟩ := s'
  obtain ⟨htokens, hlast⟩ := h
  refine ⟨List.forall₂_map_left_iff.2 (List.forall₂_map_right_iff.2 (htokens.imp fun _ _ => strip)), ?_⟩
  cases hlast with
  | ok ht => exact .ok (strip ht)
  | error he => exact .error he

theorem Streams.shown {m : Relocation} (options : Options) {s s' : Stream} (h : m.Streams s s') :
    m.Streams (options.shown s) (options.shown s') := by
  unfold Options.shown
  split
  · exact h
  · exact h.withoutDocs

/-! ### Arenas in which nothing has moved -/

theorem node_anywhere : anywhere.node = id :=
  funext Nat.zero_add

theorem renamed_id (doc : Doc) : doc.renamed id = doc := by
  have htag : (Tag.renamed id : Tag → Tag) = id := funext fun tag => by simp [Tag.renamed]
  simp [Doc.renamed, htag]

theorem anywhere_nodes {x y : Node} : anywhere.Nodes x y ↔ x.withoutSpan = y.withoutSpan := by
  obtain ⟨kind, span, parent, children, doc⟩ := x
  obtain ⟨kind', span', parent', children', doc'⟩ := y
  have hdoc : doc.map (·.renamed id) = doc := by
    cases doc with
    | none => rfl
    | some doc => exact congrArg some (renamed_id doc)
  constructor
  · rintro ⟨hkind, -, hparent, hchildren, hdoc'⟩
    simp only [node_anywhere, Option.map_id, List.map_id, id, hdoc] at hkind hparent hchildren hdoc'
    rw [hkind, hparent, hchildren, hdoc']
    rfl
  · intro h
    cases h
    refine ⟨rfl, anywhere_spans _ _, ?_, ?_, ?_⟩ <;> simp [node_anywhere, hdoc]

theorem anywhere_arenas {left right : Arena} :
    anywhere.Arenas left right ↔ left.withoutSpans = right.withoutSpans := by
  have hnode (arena : Arena) (n : NodeId) :
      arena.withoutSpans.node? n = (arena.node? n).map Node.withoutSpan := Array.getElem?_map
  constructor
  · intro h
    have hsize : right.size = left.size := h.size.trans (Nat.zero_add _)
    refine congrArg Arena.mk (Array.ext_getElem? fun n => ?_)
    show left.withoutSpans.node? n = right.withoutSpans.node? n
    rw [hnode, hnode]
    cases hn : left.node? n with
    | some x =>
      obtain ⟨y, hy, hxy⟩ := h.new n x hn
      rw [node_anywhere] at hy
      rw [show right.node? n = some y from hy]
      exact congrArg some (anywhere_nodes.1 hxy)
    | none => rw [Arena.node?_eq_none (hsize ▸ Arena.le_of_node?_eq_none hn)]
  · intro h
    have hsize : left.size = right.size := by
      have := congrArg Arena.size h
      simpa [Arena.withoutSpans, Arena.size] using this
    refine ⟨?_, fun n hn => absurd hn (Nat.not_lt_zero n), fun n x hx => ?_⟩
    · rw [hsize]
      exact (Nat.zero_add _).symm
    · have hn := congrArg (·.node? n) h
      simp only [hnode, hx, Option.map_some] at hn
      obtain ⟨y, hy, hxy⟩ := Option.map_eq_some_iff.1 hn.symm
      rw [node_anywhere]
      exact ⟨y, hy, anywhere_nodes.2 hxy.symm⟩

end Relocation

namespace Build
open Relocation

/-- Both runs make the same node, or both refuse the text for the same cause at a token of the same kind. The
arenas that they leave differ at most in spans. -/
inductive SameOutcome :
    EStateM.Result Failure Arena NodeId → EStateM.Result Failure Arena NodeId → Prop
  | ok {n : NodeId} {left right : Arena} (arenas : left.withoutSpans = right.withoutSpans) :
      SameOutcome (.ok n left) (.ok n right)
  | rejected {e e' : SyntaxError} {left right : Arena} (cause : e.cause = e'.cause) (token : e.token = e'.token)
      (arenas : left.withoutSpans = right.withoutSpans) :
      SameOutcome (.error (.rejected e) left) (.error (.rejected e') right)

/-- Sources with the same tokens and the same documentation before them are read alike. -/
theorem script_sees_contents (source source' : List UInt8)
    (h : (Stream.ofBytes source).contents = (Stream.ofBytes source').contents) (options : Options) (arena : Arena) :
    SameOutcome (script source options arena) (script source' options arena) := by
  have hinputs : anywhere.Inputs (.ofStream (options.stream source)) (.ofStream (options.stream source')) :=
    ⟨(anywhere_streams h).shown options, trivial⟩
  have hmoves := ScriptReader.script_moves anywhere trivial options.module 0 _ _ hinputs
  have hruns := (hmoves.map (S := anywhere.Ids) fun _ _ _ hn => hn.1) arena arena (anywhere_arenas.2 rfl)
    (Nat.zero_le _)
  have hfinishes := script_finishes source options arena
  change anywhere.Outcomes anywhere.Ids arena.size (script source options arena) (script source' options arena)
    at hruns
  generalize script source options arena = r at hruns hfinishes
  generalize script source' options arena = r' at hruns
  cases hruns with
  | @ok n n' left right harenas _ hids =>
    obtain rfl : n' = n := hids.eq.trans (Nat.zero_add n)
    exact .ok (anywhere_arenas.1 harenas)
  | error harenas hfail =>
    cases hfail with
    | rejected he => exact .rejected he.cause.symm he.token.symm (anywhere_arenas.1 harenas)
    -- two runs that are cut short would be alike too, but reading is never cut short
    | exhausted => cases hfinishes

theorem script_sees_contents_spaced :
    let source := ascii "/** @type \x7b!a\x7d */ var a = b;"
    let source' := ascii "\n/** x *//** @type \x7b!a\x7d */\n\tvar/**/a=b // y\n;\n"
    (Stream.ofBytes source).contents = (Stream.ofBytes source').contents ∧
      SameOutcome (script source .standard Program.empty) (script source' .standard Program.empty) := by
  intro source source'
  have h : (Stream.ofBytes source).contents = (Stream.ofBytes source').contents := by
    unfold source source'
    decide +kernel
  exact ⟨h, script_sees_contents source source' h .standard Program.empty⟩

end Build

end ScriptIndex
