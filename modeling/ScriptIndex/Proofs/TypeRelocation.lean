import ScriptIndex.Comment.Reading
import ScriptIndex.Proofs.Relocation

/-! # Reading documentation elsewhere

The same bytes read as the same type wherever they stand in a source, and the same comment leaves the same
documentation but for the indexes of its types (`Build.document_relocates`). -/

namespace ScriptIndex
open Relocation

namespace Relocation
variable {m : Relocation}

variable (m) in
/-- The same bytes come next, at near positions. -/
structure Cursors (c c' : Cursor) : Prop where
  pos : m.near c.pos c'.pos
  rest : c'.rest = c.rest

variable (m) in
/-- The same tag, with the same text between its braces. -/
structure Mentions (a b : Mention) : Prop where
  name : b.name = a.name
  type : Option.Rel m.Cursors a.type b.type

theorem Cursors.advance {c c' : Cursor} (h : m.Cursors c c') (n : Nat) :
    m.Cursors (c.advance n) (c'.advance n) :=
  ⟨m.near_add n h.pos, by simp [Cursor.advance, h.rest]⟩

end Relocation

namespace TypeReader
open Reader.Relocates

variable {m : Relocation} {size : Nat} {α : Type}

theorem fail_relocates {R : Nat → α → α → Prop} :
    Reader.Relocates m m.Cursors size (fail : TypeReader α) fail R :=
  seq reads fun _ _ _ _ hc => lift (Build.Relocates.rejects ⟨hc.pos, m.near_add 1 hc.pos⟩ none)

theorem skipBlanks_relocates : Reader.Relocates m m.Cursors size skipBlanks skipBlanks Same :=
  updates fun c c' hc => by
    rw [hc.rest]
    exact hc.advance _

theorem position_relocates : Reader.Relocates m m.Cursors size position position fun _ => m.near :=
  seqSame skipBlanks_relocates fun _ _ _ => seq reads fun _ _ _ _ hc => done fun _ _ => hc.pos

theorem peek_relocates : Reader.Relocates m m.Cursors size peek peek Same :=
  seqSame skipBlanks_relocates fun _ _ _ => seq reads fun _ _ _ _ hc =>
    done fun _ _ => congrArg List.head? hc.rest

theorem advance_relocates (n : Nat) :
    Reader.Relocates m m.Cursors size (modify (·.advance n)) (modify (·.advance n)) Same :=
  updates fun _ _ hc => hc.advance n

theorem accept_relocates (mark : Char) :
    Reader.Relocates m m.Cursors size (accept mark) (accept mark) Same :=
  seqSame peek_relocates fun _ _ _ => branch Iff.rfl
    (seqSame (advance_relocates 1) fun _ _ _ => done fun _ _ => rfl) (done fun _ _ => rfl)

theorem require_relocates (mark : Char) :
    Reader.Relocates m m.Cursors size (require mark) (require mark) Same :=
  seqSame (accept_relocates mark) fun _ _ _ => branch Iff.rfl (done fun _ _ => rfl) fail_relocates

theorem acceptWord_relocates (word : String) :
    Reader.Relocates m m.Cursors size (acceptWord word) (acceptWord word) Same := by
  refine seqSame skipBlanks_relocates fun _ _ _ => seq reads fun _ c c' _ hc => ?_
  rw [hc.rest]
  exact branch Iff.rfl (seqSame (advance_relocates _) fun _ _ _ => done fun _ _ => rfl) (done fun _ _ => rfl)

theorem node_relocates {kind : Kind} {start start' : Nat} {children children' : List NodeId}
    (hs : m.near start start') (hc : m.Lists size children children') :
    Reader.Relocates m m.Cursors size (node kind start children) (node kind start' children') m.Ids :=
  seq reads fun _ _ _ hle hcur => lift (Build.Relocates.node ⟨hs, hcur.pos⟩ (hc.mono hle))

theorem turns_relocates : Reader.Relocates m m.Cursors size turns turns Same :=
  seq reads fun _ c c' _ hc => done fun _ _ => by rw [hc.rest]; rfl

theorem separated_relocates {mark : Char} {item : TypeReader NodeId} (h : Reader.Moves m m.Cursors item) :
    Reader.Relocates m m.Cursors size (separated mark item) (separated mark item) m.Lists := by
  refine seqSame turns_relocates fun size turns _ => collect (fun size => ?_) turns size
  refine seq (h size) fun _ n n' _ hn => seqSame (accept_relocates mark) fun _ b hle => ?_
  cases b
  · exact done fun _ hle' => .last (hn.mono (Nat.le_trans hle hle'))
  · exact done fun _ hle' => .more (hn.mono (Nat.le_trans hle hle'))

namespace Grammar

/-- Both rules make the same types elsewhere. -/
structure Moves (m : Relocation) (g : Grammar) : Prop where
  union : Reader.Moves m m.Cursors g.union
  prefixed : Reader.Moves m m.Cursors g.prefixed

variable {g : Grammar}

theorem skipLabel_relocates (word : String) :
    Reader.Relocates m m.Cursors size (skipLabel word) (skipLabel word) Same :=
  seq reads fun _ _ _ _ hstart => seqSame (acceptWord_relocates word) fun _ _ _ => branch Iff.rfl
    (seqSame (accept_relocates ':') fun _ _ _ => branch Iff.rfl (done fun _ _ => rfl) (puts hstart))
    (done fun _ _ => rfl)

namespace Moves

theorem param (hg : g.Moves m) : Reader.Moves m m.Cursors g.param :=
  fun _ => seqSame (skipLabel_relocates "this") fun _ _ _ => seqSame (skipLabel_relocates "new") fun _ _ _ =>
    hg.union _

theorem function (hg : g.Moves m) {start start' : Nat} (hs : m.near start start') :
    Reader.Relocates m m.Cursors size (g.function start) (g.function start') m.Ids := by
  refine seqSame (require_relocates '(') fun _ _ _ => seq reads fun _ c c' _ hc =>
    seqSame (accept_relocates ')') fun _ closed _ => ?_
  have rest {size : Nat} {params params' : List NodeId} (hp : m.Lists size params params') :
      Reader.Relocates m m.Cursors size (do
        let params ← node .params c.pos params
        if ← accept ':' then
          let result ← g.prefixed
          node .function start [params, result]
        else node .function start [params]) (do
        let params ← node .params c'.pos params'
        if ← accept ':' then
          let result ← g.prefixed
          node .function start' [params, result]
        else node .function start' [params]) m.Ids := by
    refine seq (node_relocates hc.pos hp) fun _ p p' _ hp => seqSame (accept_relocates ':') fun _ _ hle =>
      branch Iff.rfl ?_ ?_
    · exact seq (hg.prefixed _) fun _ t t' hle' ht =>
        node_relocates hs (.cons (hp.mono (Nat.le_trans hle hle')) (.cons ht .nil))
    · exact node_relocates hs (.cons (hp.mono hle) .nil)
  refine branch Iff.rfl (rest .nil) ?_
  exact seq (separated_relocates hg.param) fun _ _ _ _ hp => seqSame (require_relocates ')') fun _ _ hle =>
    rest (hp.mono hle)

theorem named (hg : g.Moves m) {start start' : Nat} (hs : m.near start start') :
    Reader.Relocates m m.Cursors size (g.named start) (g.named start') m.Ids := by
  refine seq reads fun _ c c' _ hc => ?_
  rw [hc.rest]
  refine seqSame (advance_relocates _) fun _ _ _ => ?_
  have rest {size : Nat} (text : String) : Reader.Relocates m m.Cursors size (do
      let arguments ← do
        if ← accept '<' then
          let arguments ← separated ',' g.union
          require '>'
          pure arguments
        else pure []
      node (.typeName text) start arguments) (do
      let arguments ← do
        if ← accept '<' then
          let arguments ← separated ',' g.union
          require '>'
          pure arguments
        else pure []
      node (.typeName text) start' arguments) m.Ids := by
    refine seqSame (accept_relocates '<') fun _ _ _ => branch Iff.rfl ?_ (node_relocates hs .nil)
    exact seq (separated_relocates hg.union) fun _ _ _ _ ha => seqSame (require_relocates '>') fun _ _ hle =>
      node_relocates hs (ha.mono hle)
  exact branch Iff.rfl (seqSame fail_relocates fun _ _ _ => rest _) (rest _)

theorem basicRule (hg : g.Moves m) : Reader.Moves m m.Cursors g.basicRule :=
  fun _ => seq position_relocates fun _ _ _ _ hs => seqSame (accept_relocates '(') fun _ _ _ => branch Iff.rfl
    (seq (hg.union _) fun _ _ _ _ hn => seqSame (require_relocates ')') fun _ _ hle => done fun _ hle' =>
      hn.mono (Nat.le_trans hle hle'))
    (seqSame (acceptWord_relocates "function") fun _ _ _ => branch Iff.rfl (hg.function hs) (hg.named hs))

theorem prefixedRule (hg : g.Moves m) : Reader.Moves m m.Cursors g.prefixedRule := by
  intro size
  have rest {size : Nat} {type type' : NodeId} (ht : m.Ids size type type') :
      Reader.Relocates m m.Cursors size (do
        let _ ← accept '='
        return type) (do
        let _ ← accept '='
        return type') m.Ids :=
    seqSame (accept_relocates '=') fun _ _ hle => done fun _ hle' => ht.mono (Nat.le_trans hle hle')
  have leaf {size start start' : Nat} (kind : Kind) (hs : m.near start start') :
      Reader.Relocates m m.Cursors size (node kind start []) (node kind start' []) m.Ids :=
    node_relocates hs .nil
  have above {size start start' : Nat} {t t' : NodeId} (kind : Kind) (hs : m.near start start')
      (ht : m.Ids size t t') :
      Reader.Relocates m m.Cursors size (node kind start [t]) (node kind start' [t']) m.Ids :=
    node_relocates hs (.cons ht .nil)
  refine seq position_relocates fun _ start start' _ hs => seqSame (accept_relocates '?') fun _ _ _ =>
    branch Iff.rfl ?_ ?_
  · refine seqSame peek_relocates fun _ _ _ => branch Iff.rfl
      (seq (leaf _ hs) fun _ _ _ _ ht => rest ht) ?_
    exact seq (hg.prefixed _) fun _ _ _ _ ht => seq (above _ hs ht) fun _ _ _ _ ht => rest ht
  refine seqSame (accept_relocates '!') fun _ _ _ => branch Iff.rfl ?_ ?_
  · exact seq (hg.prefixed _) fun _ _ _ _ ht => seq (above _ hs ht) fun _ _ _ _ ht => rest ht
  refine seqSame (accept_relocates '*') fun _ _ _ => branch Iff.rfl
    (seq (leaf _ hs) fun _ _ _ _ ht => rest ht) ?_
  refine seq reads fun _ c c' _ hc => ?_
  rw [hc.rest]
  refine branch Iff.rfl ?_ (seq (hg.basicRule _) fun _ _ _ _ ht => rest ht)
  exact seqSame (advance_relocates 3) fun _ _ _ => seq (hg.prefixed _) fun _ _ _ _ ht => rest ht

theorem unionRule (hg : g.Moves m) : Reader.Moves m m.Cursors g.unionRule := by
  refine fun _ => seq position_relocates fun _ _ _ _ hs =>
    seq (separated_relocates hg.prefixedRule) fun _ types types' _ ht => ?_
  split
  · cases ht with
    | cons ht hnil =>
      cases hnil
      exact done fun _ hle => ht.mono hle
  · rename_i hne
    split
    · cases ht with
      | cons ht hnil =>
        cases hnil
        exact absurd rfl (hne _)
    · exact node_relocates hs ht

theorem next (hg : g.Moves m) : g.next.Moves m := ⟨hg.unionRule, hg.prefixedRule⟩

end Moves

theorem within_moves (m : Relocation) : ∀ depth : Nat, (within depth).Moves m
  | 0 => ⟨fun _ => fails .exhausted, fun _ => fails .exhausted⟩
  | depth + 1 => (within_moves m depth).next

end Grammar

theorem whole_moves (m : Relocation) : Reader.Moves m m.Cursors whole := by
  refine fun _ => seqSame turns_relocates fun _ turns _ => seq ((Grammar.within_moves m turns).union _)
    fun _ type type' _ ht => seqSame peek_relocates fun _ _ hle => ?_
  exact branch Iff.rfl (seqSame fail_relocates fun _ _ hle' => done fun _ hle'' =>
    ht.mono (Nat.le_trans hle (Nat.le_trans hle' hle''))) (done fun _ hle' => ht.mono (Nat.le_trans hle hle'))

end TypeReader

namespace Mention

theorem scan_cons {before : Option UInt8} {c : Cursor} {b : UInt8} {rest : List UInt8} (h : c.rest = b :: rest) :
    scan before c =
      if b == '@'.toUInt8 && before.all startsWord then
        let head := head rest
        let next := c.advance head.length
        if next.rest.head? == some openBrace then
          let inside := next.advance 1
          match closing? 0 inside.rest with
          | none => ([], some ⟨next.pos, next.pos + next.rest.length⟩)
          | some length =>
            let (mentions, unclosed) := scan (some closeBrace) (c.advance (head.length + length + 2))
            (⟨Utf8.decode head.name, some ⟨inside.pos, inside.rest.take length⟩⟩ :: mentions, unclosed)
        else
          let (mentions, unclosed) := scan (some head.last) next
          (⟨Utf8.decode head.name, none⟩ :: mentions, unclosed)
      else scan (some b) (c.advance 1) := by
  rw [scan.eq_def]
  split
  · next hnil => cases hnil.symm.trans h
  · next hcons =>
    cases hcons.symm.trans h
    rfl

/-- The same tags are mentioned in the same bytes, and the same brace is left open. -/
theorem scan_relocates {m : Relocation} (before : Option UInt8) (c c' : Cursor) (hc : m.Cursors c c') :
    List.Forall₂ m.Mentions (scan before c).1 (scan before c').1 ∧
      Option.Rel m.Spans (scan before c).2 (scan before c').2 := by
  fun_induction scan before c generalizing c' with
  | case1 before c h =>
    rw [scan.eq_def before c']
    split
    · exact ⟨.nil, .none⟩
    · next hcons => cases hcons.symm.trans (hc.rest.trans h)
  | case2 before c b rest h hat head next hopen inside hclosing =>
    have hnext := hc.advance head.length
    rw [scan_cons (hc.rest.trans h), if_pos hat]
    dsimp only
    rw [hnext.rest, if_pos hopen, (hnext.advance 1).rest, hclosing]
    exact ⟨.nil, .some ⟨hnext.pos, m.near_add _ hnext.pos⟩⟩
  | case3 before c b rest h hat head name next hopen inside length hclosing mentions unclosed hscan ih =>
    have hnext := hc.advance head.length
    have ih := ih _ (hc.advance _)
    rw [hscan] at ih
    rw [scan_cons (hc.rest.trans h), if_pos hat]
    dsimp only
    rw [hnext.rest, if_pos hopen, (hnext.advance 1).rest, hclosing]
    exact ⟨.cons ⟨rfl, .some ⟨(hnext.advance 1).pos, rfl⟩⟩ ih.1, ih.2⟩
  | case4 before c b rest h hat head name next hopen mentions unclosed hscan ih =>
    have hnext := hc.advance head.length
    have ih := ih _ hnext
    rw [hscan] at ih
    rw [scan_cons (hc.rest.trans h), if_pos hat]
    dsimp only
    rw [hnext.rest, if_neg hopen]
    exact ⟨.cons ⟨rfl, .none⟩ ih.1, ih.2⟩
  | case5 before c b rest h hat ih =>
    rw [scan_cons (hc.rest.trans h), if_neg hat]
    exact ih _ (hc.advance 1)

end Mention

namespace Build
open Build.Relocates

variable {m : Relocation} {size : Nat}

theorem typeExpression_relocates {text text' : Cursor} (h : m.Cursors text text') :
    Relocates m size (typeExpression text) (typeExpression text') m.Ids :=
  (TypeReader.whole_moves m size text text' h).map fun _ _ _ hn => hn.1

theorem tag_relocates {mention mention' : Mention} (h : m.Mentions mention mention') :
    Relocates m size (tag mention) (tag mention') fun _ t t' => t' = t.renamed m.node := by
  obtain ⟨name, type⟩ := mention
  obtain ⟨name', type'⟩ := mention'
  obtain ⟨rfl, htype⟩ := h
  cases htype with
  | none => exact done fun _ _ => rfl
  | some htext =>
    refine seq (typeExpression_relocates htext) fun _ n n' _ hn => done fun _ _ => ?_
    rw [hn.eq]
    rfl

theorem doc_relocates {text text' : Cursor} (h : m.Cursors text text') :
    Relocates m size (doc text) (doc text') fun _ d d' => d' = d.renamed m.node := by
  obtain ⟨hmentions, hunclosed⟩ := Mention.scan_relocates none text text' h
  unfold doc
  generalize Mention.scan none text = r at hmentions hunclosed
  generalize Mention.scan none text' = r' at hmentions hunclosed
  obtain ⟨mentions, unclosed⟩ := r
  obtain ⟨mentions', unclosed'⟩ := r'
  refine seq (mapM (f := tag) (g := tag) (fun _ _ _ h => tag_relocates h) hmentions) fun _ tags tags' _ htags => ?_
  have hmap : tags' = tags.map (·.renamed m.node) := by
    induction htags with
    | nil => rfl
    | cons htag _ ih => rw [htag, ih]; rfl
  cases hunclosed with
  | none =>
    refine done fun _ _ => ?_
    rw [hmap, List.filter_map]
    rfl
  | some hspan => exact rejects hspan none

/-- The same comment leaves the same documentation on the same node. -/
theorem document_relocates {n n' : NodeId} (hn : m.Ids size n n') {text text' : Cursor}
    (h : m.Cursors text text') :
    Relocates m size (document n text) (document n' text') fun _ _ _ => True :=
  seq (doc_relocates h) fun _ _ _ hle hd => seq (setDoc (hn.mono hle) hd) fun _ _ _ _ _ =>
    done fun _ _ => trivial

end Build

end ScriptIndex
