import ScriptIndex.Comment.Reading
import ScriptIndex.Proofs.Progress

/-! # Reading documentation finishes

A rule of the grammar of types reads something before it calls a rule of a deeper level, so as many levels as
there are bytes suffice. What is refused in a comment is a malformed type, at a place of that comment
(`Build.document_finishes`). -/

namespace ScriptIndex

/-- `c` is a place of the text that begins at `text`. -/
structure Cursor.Reaches (text c : Cursor) : Prop where
  start : text.pos ≤ c.pos
  stop : c.pos + c.rest.length = text.pos + text.rest.length

theorem Cursor.Reaches.refl (text : Cursor) : text.Reaches text := ⟨Nat.le_refl _, rfl⟩

theorem Cursor.Reaches.advance {text c : Cursor} (h : text.Reaches c) {n : Nat} (hn : n ≤ c.rest.length) :
    text.Reaches (c.advance n) := by
  obtain ⟨hstart, hstop⟩ := h
  constructor
  · exact Nat.le_trans hstart (Nat.le_add_right _ _)
  · simp only [Cursor.advance, List.length_drop]
    omega

/-- A type is refused somewhere between two positions. -/
structure SyntaxError.MalformedType (start stop : Nat) (e : SyntaxError) : Prop where
  cause : e.cause = .malformedType
  token : e.token = none
  start_le : start ≤ e.span.start
  le : e.span.start ≤ e.span.stop
  le_stop : e.span.stop ≤ stop

theorem SyntaxError.MalformedType.widen {a b a' b' : Nat} {e : SyntaxError} (h : e.MalformedType a b)
    (ha : a' ≤ a) (hb : b ≤ b') : e.MalformedType a' b' :=
  ⟨h.cause, h.token, Nat.le_trans ha h.start_le, h.le, Nat.le_trans h.le_stop hb⟩

namespace TypeReader
open Reader Reader.Finishes

/-- The bytes left of a text. -/
def gauge (text : Cursor) : Gauge Cursor := ⟨fun c => c.rest.length, text.Reaches⟩

/-- What a text may be refused for: a fault lies at a byte of it or at the one after it. -/
def Refused (text : Cursor) (e : SyntaxError) : Prop :=
  e.MalformedType text.pos (text.pos + text.rest.length + 1)

/-- On less than `n` bytes of the text the rule finishes, and it reads one of them. -/
abbrev Consumes {α : Type} (text : Cursor) (n : Nat) (x : TypeReader α) : Prop :=
  Reader.Advances (gauge text) (Refused text) n x

variable {text c : Cursor} {n : Nat} {α : Type}

theorem reads_advance (hc : text.Reaches c) {k : Nat} (hk : k ≤ c.rest.length) :
    (gauge text).Reads k c (c.advance k) := by
  refine ⟨hc.advance hk, ?_⟩
  simp only [gauge, Cursor.advance, List.length_drop]
  omega

theorem fail_finishes (hc : text.Reaches c) {Q : α → Cursor → Prop} :
    Finishes (Refused text) (fail : TypeReader α) c Q := by
  have hstop : c.pos + 1 ≤ text.pos + text.rest.length + 1 := Nat.succ_le_succ (hc.stop ▸ Nat.le_add_right _ _)
  exact readSeq (rejects ⟨rfl, rfl, hc.start, Nat.le_succ _, hstop⟩)

theorem skipBlanks_finishes (hc : text.Reaches c) :
    Finishes (Refused text) skipBlanks c fun _ => (gauge text).Reads 0 c :=
  updates ((reads_advance hc (List.takeWhile_prefix _).length_le).mono (Nat.zero_le _))

theorem position_finishes (hc : text.Reaches c) :
    Finishes (Refused text) position c fun _ => (gauge text).Reads 0 c :=
  seq (skipBlanks_finishes hc) fun _ _ hread => readSeq (done hread)

theorem peek_finishes (hc : text.Reaches c) :
    Finishes (Refused text) peek c fun b c' => (gauge text).Reads 0 c c' ∧ c'.rest.head? = b :=
  seq (skipBlanks_finishes hc) fun _ _ hread => readSeq (done ⟨hread, rfl⟩)

theorem accept_finishes (mark : Char) (hc : text.Reaches c) :
    Finishes (Refused text) (accept mark) c fun b => (gauge text).Reads b.toNat c := by
  refine seq (peek_finishes hc) ?_
  rintro b c' ⟨hread, hhead⟩
  refine branch (fun hb => ?_) fun _ => done hread
  obtain ⟨rest, hrest⟩ := List.head?_eq_some_iff.1 (hhead.trans (beq_iff_eq.1 hb))
  have hpos : 1 ≤ c'.rest.length := by
    rw [hrest]
    exact Nat.succ_pos _
  refine seq (P := fun _ => (gauge text).Reads 1 c) (updates ?_) fun _ _ h => done h
  exact (reads_advance hread.proper hpos).since hread

theorem require_finishes (mark : Char) (hc : text.Reaches c) :
    Finishes (Refused text) (require mark) c fun _ => (gauge text).Reads 1 c := by
  refine seq (accept_finishes mark hc) fun b c' hread => ?_
  cases b with
  | true => exact done hread
  | false => exact fail_finishes hread.proper

theorem acceptWord_finishes (word : String) (hc : text.Reaches c) :
    Finishes (Refused text) (acceptWord word) c fun _ => (gauge text).Reads 0 c := by
  refine seq (skipBlanks_finishes hc) fun _ c' hread => readSeq (branch (fun hword => ?_) fun _ => done hread)
  have hprefix := (List.isPrefixOf_iff_prefix.1 (Bool.and_eq_true_iff.1 hword).1).length_le
  exact seq (P := fun _ => (gauge text).Reads 0 c) (updates (hread.on (reads_advance hread.proper hprefix)))
    fun _ _ h => done h

theorem node_finishes {kind : Kind} {start : Nat} {children : List NodeId} {Q : Cursor → Prop} (h : Q c) :
    Finishes (Refused text) (node kind start children) c fun _ => Q :=
  readSeq (lift Build.Finishes.node fun _ _ => h)

theorem separated_finishes {mark : Char} {item : TypeReader NodeId} (h : item.Consumes text n)
    (hc : (gauge text).Within n c) :
    Finishes (Refused text) (separated mark item) c fun _ => (gauge text).Reads 1 c := by
  refine readSeq (collect 1 _ _ (Gauge.within_left hc.proper) fun c₁ h₁ => ?_)
  refine seq (h c₁ (h₁.keeps hc)) fun a c₂ h₂ => seq (accept_finishes mark h₂.proper) fun more c₃ h₃ => ?_
  cases more with
  | true => exact done (h₂.trans h₃)
  | false => exact done (h₂.on h₃)

namespace Grammar

/-- Both rules finish on less than `n` bytes. -/
structure Ahead (text : Cursor) (n : Nat) (g : Grammar) : Prop where
  union : g.union.Consumes text n
  prefixed : g.prefixed.Consumes text n

variable {g : Grammar}

theorem skipLabel_finishes (word : String) (hc : text.Reaches c) :
    Finishes (Refused text) (skipLabel word) c fun _ => (gauge text).Reads 0 c := by
  refine readSeq (seq (acceptWord_finishes word hc) fun b c₁ h₁ => ?_)
  cases b with
  | false => exact done h₁
  | true =>
    refine seq (accept_finishes ':' h₁.proper) fun colon c₂ h₂ => ?_
    cases colon with
    | true => exact done (h₁.on h₂)
    | false => exact puts (.refl hc)

namespace Ahead

theorem param (hg : g.Ahead text n) : g.param.Consumes text n := by
  intro c hc
  refine seq (skipLabel_finishes "this" hc.proper) fun _ c₁ h₁ => ?_
  refine seq (skipLabel_finishes "new" h₁.proper) fun _ c₂ h₂ => ?_
  have h₂ := h₁.on h₂
  exact (hg.union c₂ (h₂.keeps hc)).weaken fun _ _ h₃ => h₃.since h₂

theorem function (hg : g.Ahead text n) (start : Nat) :
    (g.function start).Consumes text (n + 1) := by
  intro c hc
  refine seq (require_finishes '(' hc.proper) fun _ c₁ h₁ => readSeq ?_
  refine seq (accept_finishes ')' h₁.proper) fun closed c₂ h₂ => ?_
  have h₂ := h₁.on h₂
  have rest {c' : Cursor} (params : List NodeId) (h : (gauge text).Reads 1 c c') :
      Finishes (Refused text) (do
        let params ← node .params c₁.pos params
        if ← accept ':' then
          let result ← g.prefixed
          node .function start [params, result]
        else node .function start [params]) c' fun _ => (gauge text).Reads 1 c := by
    refine seq (node_finishes h) fun _ c₃ h₃ => seq (accept_finishes ':' h₃.proper) fun colon c₄ h₄ => ?_
    have h₄ := h₃.on h₄
    refine branch (fun _ => ?_) fun _ => node_finishes h₄
    exact seq (hg.prefixed c₄ (h₄.deeper hc)) fun _ _ h₅ => node_finishes (h₄.on h₅)
  refine branch (fun _ => rest [] h₂) fun _ => ?_
  refine seq (separated_finishes hg.param (h₂.deeper hc)) fun _ c₃ h₃ => ?_
  exact seq (require_finishes ')' h₃.proper) fun _ _ h₄ => rest _ ((h₂.on h₃).on h₄)

theorem named (hg : g.Ahead text n) (start : Nat) : (g.named start).Consumes text (n + 1) := by
  intro c hc
  refine readSeq (seq (P := fun _ => (gauge text).Reads (c.rest.takeWhile Byte.isTypeNamePart).length c)
    (updates (reads_advance hc.proper (List.takeWhile_prefix _).length_le)) fun _ c₁ h₁ => ?_)
  refine branch (fun _ => stops (fail_finishes h₁.proper)) fun hne => ?_
  -- a name that is not empty is part of a run that is not empty
  have hrun : 1 ≤ (c.rest.takeWhile Byte.isTypeNamePart).length := by
    refine Nat.one_le_iff_ne_zero.2 fun h => hne ?_
    rw [List.length_eq_zero_iff.1 h]
    rfl
  have h₁ := h₁.mono hrun
  refine seq (accept_finishes '<' h₁.proper) fun angle c₂ h₂ => ?_
  have h₂ := h₁.on h₂
  refine branch (fun _ => ?_) fun _ => seq (done h₂) fun _ _ h => node_finishes h
  refine seq (separated_finishes hg.union (h₂.deeper hc)) fun _ c₃ h₃ => ?_
  exact seq (require_finishes '>' h₃.proper) fun _ _ h₄ => node_finishes ((h₂.on h₃).on h₄)

theorem basicRule (hg : g.Ahead text n) : g.basicRule.Consumes text (n + 1) := by
  intro c hc
  refine seq (position_finishes hc.proper) fun start c₁ h₁ => seq (accept_finishes '(' h₁.proper) fun b c₂ h₂ => ?_
  cases b with
  | true =>
    have h₂ := h₂.since h₁
    refine seq (hg.union c₂ (h₂.deeper hc)) fun _ c₃ h₃ => ?_
    exact seq (require_finishes ')' h₃.proper) fun _ _ h₄ => done ((h₂.on h₃).on h₄)
  | false =>
    have h₂ := h₁.on h₂
    refine seq (acceptWord_finishes "function" h₂.proper) fun word c₃ h₃ => ?_
    have h₃ := h₂.on h₃
    refine branch (fun _ => ?_) fun _ => ?_
    · exact (hg.function start c₃ (h₃.keeps hc)).weaken fun _ _ h₄ => h₄.since h₃
    · exact (hg.named start c₃ (h₃.keeps hc)).weaken fun _ _ h₄ => h₄.since h₃

theorem prefixedRule (hg : g.Ahead text n) : g.prefixedRule.Consumes text (n + 1) := by
  intro c hc
  have rest {c' : Cursor} {type : NodeId} (h : (gauge text).Reads 1 c c') :
      Finishes (Refused text) (do
        let _ ← accept '='
        return type) c' fun _ => (gauge text).Reads 1 c :=
    seq (accept_finishes '=' h.proper) fun _ _ h' => done (h.on h')
  have leaf {c' : Cursor} {kind : Kind} {start : Nat} {children : List NodeId} (h : (gauge text).Reads 1 c c') :
      Finishes (Refused text) (do
        let type ← node kind start children
        let _ ← accept '='
        return type) c' fun _ => (gauge text).Reads 1 c :=
    seq (node_finishes h) fun _ _ h' => rest h'
  refine seq (position_finishes hc.proper) fun start c₁ h₁ => ?_
  refine seq (accept_finishes '?' h₁.proper) fun question c₂ h₂ => branch (fun hq => ?_) fun _ => ?_
  · subst hq
    have h₂ := h₂.since h₁
    refine seq (peek_finishes h₂.proper) fun _ c₃ h₃ => ?_
    have h₃ := h₂.on h₃.1
    refine branch (fun _ => leaf h₃) fun _ => ?_
    exact seq (hg.prefixed c₃ (h₃.deeper hc)) fun _ _ h₄ => leaf (h₃.on h₄)
  have h₂ := (h₁.on h₂)
  refine seq (accept_finishes '!' h₂.proper) fun bang c₃ h₃ => branch (fun hb => ?_) fun _ => ?_
  · subst hb
    have h₃ := h₃.since h₂
    exact seq (hg.prefixed c₃ (h₃.deeper hc)) fun _ _ h₄ => leaf (h₃.on h₄)
  have h₃ := h₂.on h₃
  refine seq (accept_finishes '*' h₃.proper) fun star c₄ h₄ => branch (fun hs => ?_) fun _ => ?_
  · subst hs
    exact leaf (h₄.since h₃)
  have h₄ := h₃.on h₄
  refine readSeq (branch (fun hdots => ?_) fun _ => ?_)
  · have hlength : 3 ≤ c₄.rest.length := (List.isPrefixOf_iff_prefix.1 hdots).length_le
    refine seq (P := fun _ => (gauge text).Reads 1 c) (updates ?_) fun _ c₅ h₅ => ?_
    · exact ((reads_advance h₄.proper hlength).since h₄).mono (by decide)
    · exact seq (hg.prefixed c₅ (h₅.deeper hc)) fun _ _ h₆ => rest (h₅.on h₆)
  · exact seq (hg.basicRule c₄ (h₄.keeps hc)) fun _ _ h₅ => rest (h₅.since h₄)

theorem unionRule (hg : g.Ahead text n) : g.unionRule.Consumes text (n + 1) := by
  intro c hc
  refine seq (position_finishes hc.proper) fun start c₁ h₁ => ?_
  refine seq (separated_finishes hg.prefixedRule (h₁.keeps hc)) fun types c₂ h₂ => ?_
  have h₂ := h₂.since h₁
  split
  · exact done h₂
  · exact node_finishes h₂

theorem next (hg : g.Ahead text n) : g.next.Ahead text (n + 1) := ⟨hg.unionRule, hg.prefixedRule⟩

end Ahead

theorem within_ahead (text : Cursor) : ∀ depth : Nat, (within depth).Ahead text depth
  | 0 => ⟨fun _ hc => absurd hc.lt (Nat.not_lt_zero _), fun _ hc => absurd hc.lt (Nat.not_lt_zero _)⟩
  | depth + 1 => (within_ahead text depth).next

end Grammar

theorem whole_finishes (text : Cursor) : Finishes (Refused text) whole text fun _ => (gauge text).Reads 1 text := by
  have hproper : text.Reaches text := .refl text
  refine readSeq (seq ((Grammar.within_ahead text _).union text (Gauge.within_left hproper)) fun type c₁ h₁ => ?_)
  refine seq (peek_finishes h₁.proper) fun more c₂ h₂ => ?_
  have h₂ := h₁.on h₂.1
  exact branch (fun _ => stops (fail_finishes h₂.proper)) fun _ => done h₂

end TypeReader

namespace Mention

/-- The text of a type and the brace after it lie between two positions. -/
structure Inside (start stop : Nat) (text : Cursor) : Prop where
  start_le : start ≤ text.pos
  lt_stop : text.pos + text.rest.length < stop

theorem closing?_lt {bytes : List UInt8} {depth n : Nat} (h : closing? depth bytes = some n) : n < bytes.length := by
  have later {rest : List UInt8} {b : UInt8} {r : Option Nat} {n : Nat}
      (ih : ∀ {k : Nat}, r = some k → k < rest.length) (h : r.map (· + 1) = some n) : n < (b :: rest).length := by
    obtain ⟨k, hk, rfl⟩ := Option.map_eq_some_iff.1 h
    exact Nat.succ_lt_succ (ih hk)
  fun_induction closing? depth bytes generalizing n with
  | case1 => cases h
  | case2 b rest hclose =>
    cases h
    exact Nat.succ_pos _
  | case3 b rest hclose depth ih => exact later ih h
  | case4 depth b rest hclose ih => exact later ih h

/-- A brace that is opened in a text is closed in that text. -/
theorem closing?_advance_lt {c : Cursor} {n length : Nat}
    (h : closing? 0 ((c.advance n).advance 1).rest = some length) : n + length + 1 < c.rest.length := by
  have hlt := closing?_lt h
  simp only [Cursor.advance, List.length_drop] at hlt
  omega

theorem head_length_le (b : UInt8) (rest : List UInt8) : (head rest).length ≤ (b :: rest).length := by
  have hname := (List.takeWhile_prefix Byte.isLetter (l := rest)).length_le
  have hspaces := (List.takeWhile_prefix (ascii " \t").contains
    (l := rest.drop (rest.takeWhile Byte.isLetter).length)).length_le
  rw [List.length_drop] at hspaces
  simp only [head, List.length_cons]
  omega

/-- What is mentioned lies in the text, and so does a brace that is left open. -/
theorem scan_inside {text : Cursor} (before : Option UInt8) (c : Cursor) (hc : text.Reaches c) :
    (∀ mention ∈ (scan before c).1, ∀ inside ∈ mention.type,
        Inside text.pos (text.pos + text.rest.length) inside) ∧
      ∀ span ∈ (scan before c).2,
        text.pos ≤ span.start ∧ span.start ≤ span.stop ∧ span.stop ≤ text.pos + text.rest.length := by
  fun_induction scan before c with
  | case1 => simp
  | case2 before c b rest h hat head next hopen inside hclosing =>
    have hnext : text.Reaches next := hc.advance (h ▸ head_length_le b rest)
    refine ⟨by simp, fun span hspan => ?_⟩
    cases hspan
    exact ⟨hnext.start, Nat.le_add_right _ _, Nat.le_of_eq hnext.stop⟩
  | case3 before c b rest h hat head name next hopen inside length hclosing mentions unclosed hscan ih =>
    have hnext : text.Reaches next := hc.advance (h ▸ head_length_le b rest)
    obtain ⟨tail, htail⟩ := List.head?_eq_some_iff.1 (beq_iff_eq.1 hopen)
    have hinside : text.Reaches inside := hnext.advance (htail ▸ Nat.succ_pos _)
    have hlength : length < inside.rest.length := closing?_lt hclosing
    have ih := ih (hc.advance (closing?_advance_lt hclosing))
    rw [hscan] at ih
    refine ⟨List.forall_mem_cons.2 ⟨fun text' htext => ?_, ih.1⟩, ih.2⟩
    cases htext
    refine ⟨hinside.start, ?_⟩
    rw [List.length_take_of_le (Nat.le_of_lt hlength), ← hinside.stop]
    exact Nat.add_lt_add_left hlength _
  | case4 before c b rest h hat head name next hopen mentions unclosed hscan ih =>
    have hnext : text.Reaches next := hc.advance (h ▸ head_length_le b rest)
    have ih := ih hnext
    rw [hscan] at ih
    exact ⟨List.forall_mem_cons.2 ⟨by simp, ih.1⟩, ih.2⟩
  | case5 before c b rest h hat ih =>
    exact ih (hc.advance (h ▸ Nat.succ_pos _))

end Mention

namespace Build
open Build.Finishes

theorem typeExpression_finishes (text : Cursor) :
    Finishes (TypeReader.Refused text) (typeExpression text) fun _ => True :=
  seq (TypeReader.whole_finishes text) fun _ _ => done trivial

theorem tag_finishes {start stop : Nat} {mention : Mention}
    (h : ∀ text ∈ mention.type, Mention.Inside start stop text) :
    Finishes (SyntaxError.MalformedType start stop) (tag mention) fun _ => True := by
  obtain ⟨name, type⟩ := mention
  cases type with
  | none => exact done trivial
  | some text =>
    obtain ⟨hstart, hstop⟩ := h text rfl
    have htype := (typeExpression_finishes text).imp (fun e he => he.widen hstart hstop) fun _ => id
    exact seq htype fun _ _ => done trivial

theorem doc_finishes (text : Cursor) :
    Finishes (SyntaxError.MalformedType text.pos (text.pos + text.rest.length)) (doc text) fun _ => True := by
  obtain ⟨hmentions, hunclosed⟩ := Mention.scan_inside none text (.refl text)
  unfold doc
  generalize Mention.scan none text = r at hmentions hunclosed
  obtain ⟨mentions, unclosed⟩ := r
  refine seq (mapM fun mention hm => tag_finishes (hmentions mention hm)) fun tags _ => ?_
  cases unclosed with
  | none => exact done trivial
  | some span =>
    obtain ⟨hstart, hle, hstop⟩ := hunclosed span rfl
    exact rejects ⟨rfl, rfl, hstart, hle, hstop⟩

/-- Reading a comment onto a node comes to an end, and only a malformed type in the comment is refused. -/
theorem document_finishes (node : NodeId) (text : Cursor) :
    Finishes (SyntaxError.MalformedType text.pos (text.pos + text.rest.length)) (document node text)
      fun _ => True :=
  seq (doc_finishes text) fun _ _ => seq setDoc fun _ _ => done trivial

end Build

end ScriptIndex
