import ScriptIndex.Proofs.Nesting
import ScriptIndex.Proofs.TypeProgress

/-! # Spans of types

Each rule of type expressions makes nodes in a row in what it reads of its text. The types of a comment therefore
stand in the comment. -/

namespace ScriptIndex

namespace TypeReader
open Reader Reader.Nests

/-- The places of a text. -/
def track (text : Cursor) : Track Cursor := ⟨text.Reaches, Cursor.pos⟩

/-- No rule of types makes an expression statement. -/
abbrev kinds (kind : Kind) : Prop := kind ≠ .expressionStatement

variable {e : Extent} {text c c' : Cursor} {arena : Arena} {α : Type} {Q : α → Cursor → Arena → Prop} {ns : List NodeId}

/-- The action only moves on. -/
abbrev Skips (e : Extent) (text : Cursor) (x : TypeReader α) : Prop :=
  Reader.Lays e kinds (track text) x fun _ => []

/-- The action makes a node over what it reads. -/
abbrev Lays (e : Extent) (text : Cursor) (x : TypeReader NodeId) : Prop :=
  Reader.Lays e kinds (track text) x fun n => [n]

theorem lays_advance (hc : text.Reaches c) {k : Nat} (hk : k ≤ c.rest.length) (arena : Arena) :
    (track text).Lays c [] (c.advance k) arena :=
  ⟨hc.advance hk, Nat.le_add_right _ _⟩

theorem fail_nests : Nests e kinds (fail : TypeReader α) c arena Q :=
  readSeq (rejects _ _ _)

theorem advanceSeq {β : Type} {R : β → Cursor → Arena → Prop} {f : PUnit → TypeReader β} {k : Nat}
    (h : (track text).Lays c ns c' arena) (hk : k ≤ c'.rest.length)
    (hf : (track text).Lays c ns (c'.advance k) arena → Nests e kinds (f ⟨⟩) (c'.advance k) arena R) :
    Nests e kinds (modify (·.advance k) >>= f) c' arena R := by
  have hon := h.trans (.refl kinds arena) (lays_advance h.proper hk arena)
  exact hf (ns.append_nil ▸ hon)

theorem skipBlanks_skips : Skips e text skipBlanks :=
  fun _ _ hc => updates (lays_advance hc (List.takeWhile_prefix _).length_le _)

theorem position_nests (hc : text.Reaches c) :
    Nests e kinds position c arena fun start c' after => (track text).Lays c [] c' after ∧ start = c'.pos :=
  skipSeq (.refl hc _) skipBlanks_skips fun _ _ _ h => readSeq (done ⟨h, rfl⟩)

theorem peek_nests (hc : text.Reaches c) :
    Nests e kinds peek c arena fun b c' after => (track text).Lays c [] c' after ∧ c'.rest.head? = b :=
  skipSeq (.refl hc _) skipBlanks_skips fun _ _ _ h => readSeq (done ⟨h, rfl⟩)

theorem peek_skips : Skips e text peek :=
  fun _ _ hc => (peek_nests hc).weaken fun _ _ _ _ _ h => h.1

theorem accept_skips (mark : Char) : Skips e text (accept mark) := by
  refine fun c arena hc => seq (peek_nests hc) fun b c' mid _ _ ⟨h, hhead⟩ => branch (fun hb => ?_) fun _ => done h
  obtain ⟨rest, hrest⟩ := List.head?_eq_some_iff.1 (hhead.trans (beq_iff_eq.1 hb))
  exact advanceSeq h (hrest ▸ Nat.succ_pos _) fun h => done h

theorem require_skips (mark : Char) : Skips e text (require mark) :=
  fun _ _ hc => skipSeq (.refl hc _) (accept_skips mark) fun _ _ _ h => branch (fun _ => done h) fun _ => fail_nests

theorem acceptWord_skips (word : String) : Skips e text (acceptWord word) := by
  refine fun c arena hc => skipSeq (.refl hc _) skipBlanks_skips fun _ c' mid h => readSeq ?_
  refine branch (fun hword => ?_) fun _ => done h
  have hprefix := (List.isPrefixOf_iff_prefix.1 (Bool.and_eq_true_iff.1 hword).1).length_le
  exact advanceSeq h hprefix fun h => done h

/-- A node over what was laid since a place. -/
theorem node_nests {kind : Kind} {R : NodeId → Cursor → Arena → Prop} (htext : text.pos + text.rest.length ≤ e.stop)
    (h : (track text).Lays c ns c' arena) (hk : kinds kind)
    (hR : ∀ n after, (track text).Lays c [n] c' after → R n c' after) :
    Nests e kinds (node kind c.pos ns) c' arena R := by
  have hstop : c'.pos ≤ e.stop := by
    have hreaches := h.proper.stop
    omega
  refine readSeq (lift (Build.Nests.node h.row hstop hk (fun heq => absurd heq hk) fun after hmade => ?_))
  refine hR _ after ⟨h.proper, ⟨c.pos, c'.pos⟩, ?_, Nat.le_refl _, h.row.le, Nat.le_refl _⟩
  rw [hmade.span?, if_pos rfl]

theorem separated_lays {mark : Char} {item : TypeReader NodeId} (h : Lays e text item) :
    Reader.Lays e kinds (track text) (separated mark item) id := by
  refine fun c arena hc => readSeq (collect (fun c arena hc => ?_) _ c arena hc)
  refine laySeq (.refl hc _) h fun n c₁ mid h₁ => skipSeq h₁ (accept_skips mark) fun more c₂ after h₂ => ?_
  cases more <;> exact done h₂

namespace Grammar

/-- Both rules make nodes over what they read. -/
structure Lays (e : Extent) (text : Cursor) (g : Grammar) : Prop where
  union : TypeReader.Lays e text g.union
  prefixed : TypeReader.Lays e text g.prefixed

variable {g : Grammar}

theorem skipLabel_skips (word : String) : Skips e text (skipLabel word) := by
  refine fun c arena hc => readSeq (skipSeq (.refl hc _) (acceptWord_skips word) fun b c₁ mid h₁ => ?_)
  refine branch (fun _ => skipSeq h₁ (accept_skips ':') fun colon c₂ after h₂ => ?_) fun _ => done h₁
  exact branch (fun _ => done h₂) fun _ => puts (.refl hc _)

namespace Lays
variable (htext : text.pos + text.rest.length ≤ e.stop)

theorem param (hg : g.Lays e text) : TypeReader.Lays e text g.param :=
  fun _ _ hc => skipSeq (.refl hc _) (skipLabel_skips "this") fun _ _ _ h₁ =>
    skipSeq h₁ (skipLabel_skips "new") fun _ c₂ mid h₂ => (hg.union c₂ mid h₂.proper).weaken fun _ _ _ _ _ h₃ =>
      h₃.since h₂

include htext

/-- The word `function` may have been passed before. -/
theorem function (hg : g.Lays e text) (h : (track text).Lays c [] c' arena) :
    Nests e kinds (g.function c.pos) c' arena fun n c'' => (track text).Lays c [n] c'' := by
  refine skipSeq h (require_skips '(') fun _ c₁ mid h₁ => readSeq ?_
  have rest {c₂ : Cursor} {mid' : Arena} (params : List NodeId) (h₂ : (track text).Lays c₁ params c₂ mid') :
      Nests e kinds (do
        let params ← node .params c₁.pos params
        if ← accept ':' then
          let result ← g.prefixed
          node .function c.pos [params, result]
        else node .function c.pos [params]) c₂ mid' fun n c'' => (track text).Lays c [n] c'' := by
    refine seq (node_nests htext h₂ Kind.noConfusion fun n after => id) fun n c₃ _ _ _ h₃ => ?_
    refine skipSeq (h₃.since h₁) (accept_skips ':') fun colon c₄ _ h₄ => branch (fun _ => ?_) fun _ => ?_
    · exact laySeq h₄ hg.prefixed fun result c₅ _ h₅ => node_nests htext h₅ Kind.noConfusion fun _ _ => id
    · exact node_nests htext h₄ Kind.noConfusion fun _ _ => id
  refine skipSeq (.refl h₁.proper _) (accept_skips ')') fun closed c₂ _ h₂ => branch (fun _ => rest [] h₂) fun _ => ?_
  refine laySeq h₂ (separated_lays (hg.param)) fun params c₃ _ h₃ => ?_
  exact skipSeq h₃ (require_skips ')') fun _ c₄ _ h₄ => rest params h₄

theorem named (hg : g.Lays e text) (h : (track text).Lays c [] c' arena) :
    Nests e kinds (g.named c.pos) c' arena fun n c'' => (track text).Lays c [n] c'' := by
  refine readSeq (advanceSeq h (List.takeWhile_prefix _).length_le fun h₁ => ?_)
  refine branch (fun _ => stops fail_nests) fun _ => ?_
  refine skipSeq h₁ (accept_skips '<') fun angle c₂ _ h₂ => branch (fun _ => ?_) fun _ => ?_
  · refine laySeq h₂ (separated_lays hg.union) fun arguments c₃ _ h₃ => ?_
    exact skipSeq h₃ (require_skips '>') fun _ c₄ _ h₄ => node_nests htext h₄ Kind.noConfusion fun _ _ => id
  · exact node_nests htext h₂ Kind.noConfusion fun _ _ => id

theorem basicRule (hg : g.Lays e text) : TypeReader.Lays e text g.basicRule := by
  refine fun c arena hc => seq (position_nests hc) fun start c₁ mid _ _ ⟨h₁, hstart⟩ => ?_
  subst hstart
  refine skipSeq (.refl h₁.proper _) (accept_skips '(') fun paren c₂ _ h₂ => branch (fun _ => ?_) fun _ => ?_
  · refine laySeq (h₂.since h₁) hg.union fun inner c₃ _ h₃ => ?_
    exact skipSeq h₃ (require_skips ')') fun _ c₄ _ h₄ => done h₄
  · refine skipSeq h₂ (acceptWord_skips "function") fun word c₃ _ h₃ => branch (fun _ => ?_) fun _ => ?_
    · exact (hg.function htext h₃).weaken fun _ _ _ _ _ h₄ => h₄.since h₁
    · exact (hg.named htext h₃).weaken fun _ _ _ _ _ h₄ => h₄.since h₁

theorem prefixedRule (hg : g.Lays e text) : TypeReader.Lays e text g.prefixedRule := by
  refine fun c arena hc => seq (position_nests hc) fun start c₁ mid _ _ ⟨h₁, hstart⟩ => ?_
  subst hstart
  have rest {type : NodeId} {c' : Cursor} {mid : Arena} (h : (track text).Lays c₁ [type] c' mid) :
      Nests e kinds (do
        let _ ← accept '='
        return type) c' mid fun n c'' => (track text).Lays c [n] c'' :=
    skipSeq (h.since h₁) (accept_skips '=') fun _ _ _ h' => done h'
  have above {kind : Kind} {ns : List NodeId} {c' : Cursor} {mid : Arena} (hk : kinds kind)
      (h : (track text).Lays c₁ ns c' mid) :
      Nests e kinds (do
        let type ← node kind c₁.pos ns
        let _ ← accept '='
        return type) c' mid fun n c'' => (track text).Lays c [n] c'' :=
    seq (node_nests htext h hk fun _ _ => id) fun _ _ _ _ _ h' => rest h'
  refine skipSeq (.refl h₁.proper _) (accept_skips '?') fun question c₂ _ h₂ => branch (fun _ => ?_) fun _ => ?_
  · refine skipSeq h₂ peek_skips fun _ c₃ _ h₃ => branch (fun _ => above Kind.noConfusion h₃) fun _ => ?_
    exact laySeq h₃ hg.prefixed fun _ _ _ h₄ => above Kind.noConfusion h₄
  refine skipSeq h₂ (accept_skips '!') fun bang c₃ _ h₃ => branch (fun _ => ?_) fun _ => ?_
  · exact laySeq h₃ hg.prefixed fun _ _ _ h₄ => above Kind.noConfusion h₄
  refine skipSeq h₃ (accept_skips '*') fun star c₄ _ h₄ => branch (fun _ => above Kind.noConfusion h₄) fun _ => ?_
  refine readSeq (branch (fun hdots => ?_) fun _ => laySeq h₄ (hg.basicRule htext) fun _ _ _ h₅ => rest h₅)
  have hlength : 3 ≤ c₄.rest.length := (List.isPrefixOf_iff_prefix.1 hdots).length_le
  exact advanceSeq h₄ hlength fun h₅ => laySeq h₅ hg.prefixed fun _ _ _ h₆ => rest h₆

theorem unionRule (hg : g.Lays e text) : TypeReader.Lays e text g.unionRule := by
  refine fun c arena hc => seq (position_nests hc) fun start c₁ mid _ _ ⟨h₁, hstart⟩ => ?_
  subst hstart
  refine laySeq (.refl h₁.proper _) (separated_lays (hg.prefixedRule htext)) fun types c₂ _ h₂ => ?_
  split
  · exact done (h₂.since h₁)
  · exact node_nests htext h₂ Kind.noConfusion fun _ _ h₃ => h₃.since h₁

theorem next (hg : g.Lays e text) : g.next.Lays e text := ⟨hg.unionRule htext, hg.prefixedRule htext⟩

end Lays

theorem within_lays (htext : text.pos + text.rest.length ≤ e.stop) : ∀ depth : Nat, (within depth).Lays e text
  | 0 => ⟨fun _ _ _ => fails _, fun _ _ _ => fails _⟩
  | depth + 1 => (within_lays htext depth).next htext

end Grammar

theorem whole_lays (htext : text.pos + text.rest.length ≤ e.stop) : Lays e text whole := by
  refine fun c arena hc => readSeq (laySeq (.refl hc _) ((Grammar.within_lays htext _).union) fun type c₁ _ h₁ => ?_)
  exact skipSeq h₁ peek_skips fun more c₂ _ h₂ => branch (fun _ => stops fail_nests) fun _ => done h₂

end TypeReader

namespace Build
open TypeReader Build.Nests

variable {e : Extent} {text : Cursor} {arena : Arena}

theorem typeExpression_nests (htext : text.pos + text.rest.length ≤ e.stop) :
    Nests e kinds (typeExpression text) arena fun n after => after.Row text.pos [n] (text.pos + text.rest.length) := by
  refine seq (whole_lays htext text arena (.refl text)) fun r mid _ _ h => done (h.row.mono_right ?_)
  rw [← h.proper.stop]
  exact Nat.le_add_right _ _

theorem tag_nests {start stop : Nat} {mention : Mention} (hstop : stop ≤ e.stop)
    (h : ∀ text ∈ mention.type, Mention.Inside start stop text) :
    Nests e kinds (tag mention) arena fun t after => ∀ n ∈ t.type, after.Row start [n] stop := by
  obtain ⟨name, type⟩ := mention
  cases type with
  | none => exact done (by simp)
  | some text =>
    obtain ⟨hstart, hlt⟩ := h text rfl
    have hle := Nat.le_of_lt hlt
    refine seq (typeExpression_nests (Nat.le_trans hle hstop)) fun n mid _ _ hrow => done ?_
    rintro _ ⟨⟩
    exact (hrow.mono_right hle).mono_left hstart

/-- The types of a comment stand in the comment. -/
theorem doc_nests (htext : text.pos + text.rest.length ≤ e.stop) :
    Nests e kinds (doc text) arena fun d after =>
      ∀ type ∈ d.typeRoots, after.Row text.pos [type] (text.pos + text.rest.length) := by
  obtain ⟨hmentions, -⟩ := Mention.scan_inside none text (.refl text)
  unfold doc
  generalize Mention.scan none text = r at hmentions
  obtain ⟨mentions, unclosed⟩ := r
  refine seq (mapM (p := fun t after => ∀ n ∈ t.type, after.Row text.pos [n] (text.pos + text.rest.length))
    (fun _ _ _ hgrows h n hn => (h n hn).grows hgrows)
    fun mention hm _ _ => tag_nests htext (hmentions mention hm)) fun tags mid _ _ htags => ?_
  cases unclosed with
  | some span => exact fails _
  | none =>
    refine done fun type htype => ?_
    obtain ⟨tag, htag, htype⟩ := List.mem_filterMap.1 htype
    exact htags tag (List.mem_filter.1 htag).1 type htype

/-- Documentation before a token is read onto what it describes. -/
theorem document_nests {t : Token} {comment : DocText} {described statement : NodeId} (ht : t ∈ e.stream.tokens)
    (hdoc : t.doc = some comment) (haims : arena.Aims described statement t.span.start) :
    Nests e kinds (document described ⟨comment.span.start, comment.bytes⟩) arena fun _ _ => True := by
  obtain ⟨hlength, hstop⟩ := e.docs t ht comment hdoc
  refine seq (doc_nests (hlength ▸ hstop)) fun d mid hsound hgrows htypes => ?_
  have haims := haims.grows hgrows fun p hp hk => absurd rfl (hgrows.new p _ hp hk)
  have hannotated : mid.Annotated t described d.typeRoots := ⟨⟨statement, haims⟩, comment, hdoc, hlength ▸ htypes⟩
  exact seq (setDoc ht (haims.lt_size hsound) hannotated) fun _ _ _ _ _ => done trivial

end Build

end ScriptIndex
