import Mathlib.Data.List.Chain
import ScriptIndex.Proofs.AssemblyInv
import ScriptIndex.Proofs.ScriptAppend
import ScriptIndex.Proofs.ScriptNesting

/-! # Spans nest

Reading a script puts nodes after those that an arena has. Whether the script is read or refused, their spans lie
in the source and nest like the nodes do, and the types of documentation stand in the comment before the first
token of the statement that they were written for (`Build.script_nested`). -/

namespace ScriptIndex

namespace Arena

/-- The statement that documentation on a node was written before. On the expression of an expression statement it
is that statement. -/
def statementOf (arena : Arena) (node : NodeId) : NodeId :=
  match arena.parent? node with
  | some p => if arena.isExpressionStatement p then p else node
  | none => node

/-- The spans of an arena lie in the source and nest like the nodes do. -/
structure Nested (source : List UInt8) (options : Options) (arena : Arena) : Prop where
  inside : ∀ n span, arena.span? n = some span → span.start ≤ span.stop ∧ span.stop ≤ source.length
  children : ∀ p, ∀ c ∈ arena.children p, ∃ outer inner, arena.span? p = some outer ∧ arena.span? c = some inner ∧
    outer.start ≤ inner.start ∧ inner.stop ≤ outer.stop
  siblings : ∀ p, (arena.children p).IsChain fun c d =>
    ∃ left right, arena.span? c = some left ∧ arena.span? d = some right ∧ left.stop ≤ right.start
  types : ∀ d, ∀ type ∈ arena.typeRoots d, ∃ t ∈ (options.stream source).tokens, ∃ text outer inner,
    t.doc = some text ∧ arena.span? (arena.statementOf d) = some outer ∧ outer.start = t.span.start ∧
    arena.span? type = some inner ∧ text.span.start ≤ inner.start ∧ inner.stop ≤ text.span.stop

variable {arena : Arena} {stop : Nat}

namespace Row

theorem mem : ∀ {start : Nat} {ns : List NodeId}, arena.Row start ns stop → ∀ n ∈ ns,
    ∃ span, arena.span? n = some span ∧ start ≤ span.start ∧ span.stop ≤ stop
  | _, [], _ => List.forall_mem_nil _
  | _, _ :: _, ⟨span, hspan, hstart, hle, hrest⟩ => by
    refine List.forall_mem_cons.2 ⟨⟨span, hspan, hstart, hrest.le⟩, fun n hn => ?_⟩
    obtain ⟨inner, hinner, hlow, hhigh⟩ := hrest.mem n hn
    exact ⟨inner, hinner, Nat.le_trans hstart (Nat.le_trans hle hlow), hhigh⟩

theorem isChain : ∀ {start : Nat} {ns : List NodeId}, arena.Row start ns stop → ns.IsChain fun c d =>
    ∃ left right, arena.span? c = some left ∧ arena.span? d = some right ∧ left.stop ≤ right.start
  | _, [], _ => .nil
  | _, [n], _ => .singleton n
  | _, _ :: _ :: _, ⟨left, hleft, _, _, hrest⟩ => by
    have hchain := hrest.isChain
    obtain ⟨right, hright, hle, -⟩ := hrest
    exact .cons_cons ⟨left, right, hleft, hright, hle⟩ hchain

end Row

/-- Each node has one parent, so that documentation was written before one statement. -/
theorem Aims.statementOf_eq {d st start : Nat} (h : arena.Aims d st start)
    (hmem : ∀ n c, c ∈ arena.children n ↔ arena.parent? c = some n) : arena.statementOf d = st := by
  unfold statementOf
  split
  · next p hp =>
    split
    · next hk => exact h.only p (beq_iff_eq.1 hk) ((hmem p d).2 hp)
    · next hk =>
      rcases h.self_or with heq | ⟨hst, hd⟩
      · exact heq
      · cases hp.symm.trans ((hmem st d).1 hd)
        exact absurd (beq_iff_eq.2 hst) hk
  · next hp =>
    rcases h.self_or with heq | ⟨-, hd⟩
    · exact heq
    · cases hp.symm.trans ((hmem st d).1 hd)

end Arena

/-! ### The tokens of a source -/

namespace Stream.Tiles
variable {source : List UInt8} {last : Except SyntaxError Token}

theorem row : ∀ {start : Nat} {tokens : List Token}, Tiles source start tokens last → start ≤ source.length →
    Token.Row start tokens source.length
  | _, [], _, h => h
  | _, _ :: _, ⟨_, hlt, hfollows, htiles⟩, _ => ⟨hfollows.start_le, Nat.le_of_lt hlt, htiles.row hfollows.stop_le⟩

theorem follows : ∀ {start : Nat} {tokens : List Token}, Tiles source start tokens last →
    ∀ t ∈ tokens, ∃ start, t.Follows source start
  | _, [], _ => List.forall_mem_nil _
  | _, _ :: _, ⟨_, _, hfollows, htiles⟩ => List.forall_mem_cons.2 ⟨⟨_, hfollows⟩, htiles.follows⟩

end Stream.Tiles

theorem Token.Follows.doc_stop {source : List UInt8} {start : Nat} {t : Token} (h : t.Follows source start)
    {text : DocText} (hdoc : t.doc = some text) : text.span.stop = text.span.start + text.bytes.length := by
  obtain ⟨pieces, -, -, hlast, -⟩ := h.gap
  rw [hdoc] at hlast
  obtain ⟨before, after, -, -, hspan⟩ := hlast
  rw [hspan]

namespace Options
variable (options : Options) (source : List UInt8)

theorem row_shownToken {stop : Nat} : ∀ {start : Nat} {tokens : List Token}, Token.Row start tokens stop →
    Token.Row start (tokens.map options.shownToken) stop
  | _, [], h => h
  | _, t :: _, ⟨hstart, hle, hrest⟩ => by
    rw [List.map_cons, Token.Row, span_shownToken]
    exact ⟨hstart, hle, row_shownToken hrest⟩

/-- A source as the options show it. -/
def extent : Extent where
  stream := options.stream source
  stop := source.length
  ends _ h := span_of_last h
  docs t ht text hdoc := by
    obtain ⟨u, hu, rfl⟩ := mem_stream ht
    obtain ⟨start, hfollows⟩ := (Stream.ofBytes_tiles source).1.follows u hu
    have hstop := hfollows.doc_stop (doc_shownToken hdoc)
    exact ⟨hstop, hstop ▸ (inside_of_mem ht).doc_le text hdoc⟩

theorem ordered : (Input.ofStream (options.stream source)).Ordered (options.extent source) := by
  refine ⟨⟨options.stream_legible source, List.suffix_rfl, rfl⟩, ?_⟩
  show Token.Row 0 (options.shown (Stream.ofBytes source)).tokens source.length
  rw [shown_eq]
  exact options.row_shownToken ((Stream.ofBytes_tiles source).1.row (Nat.zero_le _))

end Options

variable {source : List UInt8} {options : Options} {arena : Arena}

/-- In an arena of trees the order of spans is that of the nodes. -/
theorem Arena.Sound.nested (h : arena.Sound (options.extent source))
    (hmem : ∀ n c, c ∈ arena.children n ↔ arena.parent? c = some n) : arena.Nested source options := by
  have row {p c : NodeId} (hc : c ∈ arena.children p) :
      ∃ outer, arena.span? p = some outer ∧ arena.Row outer.start (arena.children p) outer.stop := by
    obtain ⟨x, hx⟩ := exists_node? (lt_of_mem_children hc)
    have hspan : arena.span? p = some x.span := span?_eq_some_iff.2 ⟨x, hx, rfl⟩
    exact ⟨x.span, hspan, (h.rows p x.span hspan).1⟩
  refine ⟨fun n span hspan => ?_, fun p c hc => ?_, fun p => ?_, fun d type htype => ?_⟩
  · obtain ⟨hrow, hstop⟩ := h.rows n span hspan
    exact ⟨hrow.le, hstop⟩
  · obtain ⟨outer, houter, hrow⟩ := row hc
    obtain ⟨inner, hinner, hstart, hstop⟩ := hrow.mem c hc
    exact ⟨outer, inner, houter, hinner, hstart, hstop⟩
  · cases hchildren : arena.children p with
    | nil => exact .nil
    | cons c rest =>
      obtain ⟨outer, -, hrow⟩ := row (hchildren ▸ List.mem_cons_self : c ∈ arena.children p)
      exact hchildren ▸ hrow.isChain
  · unfold typeRoots at htype
    split at htype
    · next doc hdoc =>
      obtain ⟨t, ht, ⟨statement, haims⟩, text, htext, htypes⟩ := h.docs d doc hdoc
      obtain ⟨outer, houter, hstart⟩ := haims.starts
      obtain ⟨inner, hinner, hlow, -, hhigh⟩ := htypes type htype
      refine ⟨t, ht, text, outer, inner, htext, ?_, hstart, hinner, hlow, hhigh⟩
      rw [haims.statementOf_eq hmem]
      exact houter
    · cases htype

namespace Build
open Assembly Relocation

theorem script_nested_empty (source : List UInt8) (options : Options) : match script source options .empty with
    | .ok _ fresh | .error _ fresh => fresh.Nested source options := by
  have hruns := script_runs (P := []) source options .empty (by simp [Bounded])
  have hnests : Nests (options.extent source) ScriptReader.anyKind (script source options) .empty fun _ _ => True :=
    .seq (ScriptReader.script_nests options.module (options.ordered source)) fun _ _ _ _ _ => .done trivial
  have hnests := hnests (Arena.sound_empty _)
  split at hruns
  · next hrun =>
    rw [hrun] at hnests ⊢
    exact hnests.1.nested (TreeInv.empty.steps hruns).mem_children
  · next hrun =>
    rw [hrun] at hnests ⊢
    obtain ⟨rest, hsteps⟩ := hruns
    exact hnests.nested (TreeInv.empty.steps hsteps).mem_children

/-- What reading a script puts after an arena nests, and so does what is left of a script that is refused. -/
theorem script_nested (source : List UInt8) (options : Options) (arena : Arena) :
    ∃ fresh, fresh.Nested source options ∧
      ((∃ n, script source options arena = .ok n (arena.followedBy fresh)) ∨
        ∃ e, script source options arena = .error e (arena.followedBy fresh)) := by
  have hnested := script_nested_empty source options
  have h := script_relocates arena source options .empty arena (.empty arena) (Nat.zero_le _)
  generalize script source options .empty = r at h hnested
  generalize script source options arena = r' at h
  cases h with
  | @ok n n' fresh right harenas _ _ => exact ⟨fresh, hnested, .inl ⟨n', by rw [harenas.eq]⟩⟩
  | @error e e' fresh right harenas _ => exact ⟨fresh, hnested, .inr ⟨e', by rw [harenas.eq]⟩⟩

end Build

end ScriptIndex
