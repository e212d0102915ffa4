import ScriptIndex.Proofs.CheckedComments
import ScriptIndex.Proofs.CheckedRuns

/-! # Types read by position

The grammar of types over positions in the text of a type, every access checked. Spans are positions in the whole
source, and slices are positions in the text: a rule knows where it began in the text. Each rule reads what the rule
over cursors reads. -/

namespace ScriptIndex.CheckedTypes
open Checked

/-- Reads the text of a type, at positions in that text. -/
abbrev PositionReader := CheckedReader Nat

variable (text : Cursor)

def fail {α : Type} : PositionReader α := do
  let pos := text.pos + (← get)
  Build.reject .malformedType ⟨pos, pos + 1⟩ none

def skipBlanks : PositionReader Unit := do
  set (← skipWhile Byte.isBlank text.rest (← get))

def position : PositionReader Nat := do
  skipBlanks text
  get

def peek : PositionReader (Option UInt8) := do
  skipBlanks text
  return text.rest[← get]?

def accept (mark : Char) : PositionReader Bool := do
  if (← peek text) == some mark.toUInt8 then
    modify (· + 1)
    return true
  else return false

def require (mark : Char) : PositionReader Unit := do
  unless ← accept text mark do fail text

/-- The text may be too short for the word, which is no breach. -/
def acceptWord (word : String) : PositionReader Bool := do
  skipBlanks text
  let start ← get
  let stop := start + (ascii word).length
  if (slice text.rest ⟨start, stop⟩).toOption == some (ascii word) &&
      !text.rest[stop]?.any Byte.isTypeNamePart then
    set stop
    return true
  else return false

def node (kind : Kind) (start : Nat) (children : List NodeId) : PositionReader NodeId := do
  Build.node kind ⟨text.pos + start, text.pos + (← get)⟩ children

def turns : PositionReader Nat := return text.rest.length - (← get) + 1

def separated (mark : Char) (item : PositionReader NodeId) : PositionReader (List NodeId) := do
  let turn := do
    let node ← item
    return if ← accept text mark then .more node else .last node
  CheckedReader.collect turn (← turns text)

structure Grammar where
  union : PositionReader NodeId
  prefixed : PositionReader NodeId

namespace Grammar

def skipLabel (word : String) : PositionReader Unit := do
  let start ← get
  if ← acceptWord text word then
    unless ← accept text ':' do set start

variable (g : Grammar)

def param : PositionReader NodeId := do
  skipLabel text "this"
  skipLabel text "new"
  g.union

def function (start : Nat) : PositionReader NodeId := do
  require text '('
  let paramsStart ← get
  let params ← do
    if ← accept text ')' then pure []
    else
      let params ← separated text ',' (g.param text)
      require text ')'
      pure params
  let params ← node text .params paramsStart params
  if ← accept text ':' then
    let result ← g.prefixed
    node text .function start [params, result]
  else node text .function start [params]

/-- Where the name ends that goes from `start` to `stop`, but for a dot at its end. -/
def nameEnd (start stop : Nat) : Except Breach Nat := do
  if start < stop then
    return if (← byteAt text.rest (stop - 1)) == '.'.toUInt8 then stop - 1 else stop
  else return stop

def named (start : Nat) : PositionReader NodeId := do
  let stop ← skipWhile Byte.isTypeNamePart text.rest (← get)
  set stop
  let nameStop ← nameEnd text start stop
  if nameStop = start then fail text
  let name ← slice text.rest ⟨start, nameStop⟩
  let arguments ← do
    if ← accept text '<' then
      let arguments ← separated text ',' g.union
      require text '>'
      pure arguments
    else pure []
  node text (.typeName (Utf8.decode name)) start arguments

def basicRule : PositionReader NodeId := do
  let start ← position text
  if ← accept text '(' then
    let inner ← g.union
    require text ')'
    return inner
  else if ← acceptWord text "function" then g.function text start
  else g.named text start

/-- Whether dots come next. The rest of the text is cut out only where a dot does. -/
def dotsNext : PositionReader Bool := do
  let start ← get
  if text.rest[start]? == some '.'.toUInt8 then
    return (ascii "...").isPrefixOf (← slice text.rest ⟨start, text.rest.length⟩)
  else return false

def prefixedRule : PositionReader NodeId := do
  let start ← position text
  let type ← do
    if ← accept text '?' then
      if TypeReader.Grammar.endsType (← peek text) then node text .typeUnknown start []
      else
        let inner ← g.prefixed
        node text .typeNullable start [inner]
    else if ← accept text '!' then
      let inner ← g.prefixed
      node text .typeNonNull start [inner]
    else if ← accept text '*' then node text .typeAll start []
    else if ← dotsNext text then
      modify (· + 3)
      g.prefixed
    else g.basicRule text
  let _ ← accept text '='
  return type

def unionRule : PositionReader NodeId := do
  let start ← position text
  match ← separated text '|' (g.prefixedRule text) with
  | [type] => return type
  | types => node text .typeUnion start types

def next : Grammar := ⟨g.unionRule text, g.prefixedRule text⟩

def within : Nat → Grammar
  | 0 => ⟨throw (.failed .exhausted), throw (.failed .exhausted)⟩
  | depth + 1 => (within depth).next text

end Grammar

def whole : PositionReader NodeId := do
  let type ← (Grammar.within text (← turns text)).union
  if (← peek text).isSome then fail text
  return type

/-! ### Rules in step -/

variable {text} {t : Nat} {α β : Type}

open CheckedReader CheckedReader.Mirrors

/-- From each position in the text both readers give the same, at the same position in the text. -/
def Agrees (text : Cursor) (y : PositionReader α) (x : TypeReader α) : Prop :=
  ∀ t ≤ text.rest.length, Mirrors text.advance y x t fun a b t' => a = b ∧ t' ≤ text.rest.length

theorem add_length_le {bytes run : List UInt8} (ht : t ≤ bytes.length) (hrun : run <+: bytes.drop t) :
    t + run.length ≤ bytes.length := by
  have hlength := hrun.length_le
  rw [List.length_drop] at hlength
  omega

/-- Where the blanks at a position end. -/
def afterBlanks (text : Cursor) (t : Nat) : Nat := t + ((text.rest.drop t).takeWhile Byte.isBlank).length

theorem afterBlanks_le (h : t ≤ text.rest.length) : afterBlanks text t ≤ text.rest.length :=
  add_length_le h (List.takeWhile_prefix Byte.isBlank)

theorem takeWhile_dropWhile (p : UInt8 → Bool) : ∀ bytes : List UInt8, (bytes.dropWhile p).takeWhile p = []
  | [] => rfl
  | b :: bytes => by
    rw [List.dropWhile_cons]
    split
    · exact takeWhile_dropWhile p bytes
    · next hb => rw [List.takeWhile_cons_of_neg hb]

theorem afterBlanks_idem (text : Cursor) (t : Nat) : afterBlanks text (afterBlanks text t) = afterBlanks text t := by
  have hdrop : text.rest.drop (afterBlanks text t) = (text.rest.drop t).dropWhile Byte.isBlank := by
    rw [afterBlanks, ← List.drop_drop, drop_takeWhile]
  rw [afterBlanks, hdrop, takeWhile_dropWhile, List.length_nil, Nat.add_zero]

theorem skipBlanks_mirrors (t : Nat) :
    Mirrors text.advance (skipBlanks text) TypeReader.skipBlanks t fun _ _ t' => t' = afterBlanks text t := by
  have hrun : skipBlanks text t = pure ((), afterBlanks text t) := by
    show ((liftM (skipWhile Byte.isBlank text.rest t) : PositionReader Nat) >>= set) t = _
    rw [skipWhile_eq]
    rfl
  show CheckedBuild.Mirrors (skipBlanks text t) _ _
  rw [hrun]
  exact CheckedBuild.Mirrors.done ⟨Cursor.advance_advance .., rfl⟩

theorem position_mirrors (t : Nat) : Mirrors text.advance (position text) TypeReader.position t fun a b t' =>
    a = afterBlanks text t ∧ b = text.pos + a ∧ t' = a := by
  refine seq (skipBlanks_mirrors t) ?_
  rintro _ _ t' rfl
  exact CheckedBuild.Mirrors.done ⟨rfl, rfl, rfl, rfl⟩

theorem peek_mirrors (t : Nat) : Mirrors text.advance (peek text) TypeReader.peek t fun a b t' =>
    a = b ∧ a = text.rest[t']? ∧ t' = afterBlanks text t := by
  refine seq (skipBlanks_mirrors t) ?_
  rintro _ _ t' rfl
  exact readSeq (done ⟨List.head?_drop.symm, rfl, rfl⟩)

theorem fail_mirrors {Q : α → β → Nat → Prop} : Mirrors text.advance (fail text) TypeReader.fail t Q :=
  readSeq (rejects _ _ _)

theorem fail_seq {γ δ : Type} {Q : γ → δ → Nat → Prop} {g : α → PositionReader γ} {f : β → TypeReader δ} :
    Mirrors text.advance (fail text >>= g) (TypeReader.fail >>= f) t Q :=
  seq (P := fun _ _ _ => False) fail_mirrors fun _ _ _ h => h.elim

theorem accept_mirrors (mark : Char) (ht : t ≤ text.rest.length) :
    Mirrors text.advance (accept text mark) (TypeReader.accept mark) t fun a b t' =>
      a = b ∧ t' ≤ text.rest.length ∧ (a = false → t' = afterBlanks text t) := by
  refine seq (peek_mirrors t) ?_
  rintro b _ t' ⟨rfl, hb, rfl⟩
  refine branch Iff.rfl (fun hmark => ?_) fun _ => done ⟨rfl, afterBlanks_le ht, fun _ => rfl⟩
  have hlt : afterBlanks text t < text.rest.length :=
    (List.getElem?_eq_some_iff.1 (hb.symm.trans (beq_iff_eq.1 hmark))).1
  refine seq (P := fun _ _ t' => t' = afterBlanks text t + 1) (updates (Cursor.advance_advance ..) rfl) ?_
  rintro _ _ t' rfl
  exact done ⟨rfl, hlt, nofun⟩

theorem require_mirrors (mark : Char) (ht : t ≤ text.rest.length) :
    Mirrors text.advance (require text mark) (TypeReader.require mark) t fun _ _ t' => t' ≤ text.rest.length := by
  refine seq (accept_mirrors mark ht) ?_
  rintro b _ t' ⟨rfl, ht', -⟩
  cases b with
  | true => exact done ht'
  | false => exact fail_mirrors

/-- A word that does not fit in the rest of the text does not come next. -/
theorem toOption_slice {text : List UInt8} (ht : t ≤ text.length) (word : List UInt8) :
    ((slice text ⟨t, t + word.length⟩).toOption == some word) = word.isPrefixOf (text.drop t) := by
  rw [Bool.eq_iff_iff, List.isPrefixOf_iff_prefix]
  by_cases hfits : t + word.length ≤ text.length
  · have hcut : slice text ⟨t, t + word.length⟩ = .ok ((text.drop t).take word.length) := by
      rw [slice_eq (Nat.le_add_right _ _) hfits, Span.slice, List.drop_take, Nat.add_sub_cancel_left]
    rw [hcut, List.prefix_iff_eq_take, eq_comm (a := word)]
    exact beq_iff_eq.trans Option.some_inj
  · rw [slice, if_neg fun h => hfits h.2]
    exact iff_of_false Bool.false_ne_true fun hword => hfits (add_length_le ht hword)

theorem acceptWord_mirrors (word : String) (ht : t ≤ text.rest.length) :
    Mirrors text.advance (acceptWord text word) (TypeReader.acceptWord word) t fun a b t' =>
      a = b ∧ t' ≤ text.rest.length ∧ (a = false → t' = afterBlanks text t) := by
  refine seq (skipBlanks_mirrors t) ?_
  rintro _ _ t' rfl
  refine readSeq (branch ?_ (fun hword => ?_) fun _ => done ⟨rfl, afterBlanks_le ht, fun _ => rfl⟩)
  · rw [toOption_slice (afterBlanks_le ht), ← List.head?_drop, ← List.drop_drop]
    rfl
  · rw [toOption_slice (afterBlanks_le ht)] at hword
    have hle := add_length_le (afterBlanks_le ht) (List.isPrefixOf_iff_prefix.1 (Bool.and_eq_true_iff.1 hword).1)
    refine seq (P := fun _ _ t' => t' = afterBlanks text t + (ascii word).length)
      (CheckedBuild.Mirrors.done ⟨Cursor.advance_advance .., rfl⟩) ?_
    rintro _ _ t' rfl
    exact done ⟨rfl, hle, nofun⟩

theorem node_agrees (kind : Kind) (start : Nat) (children : List NodeId) :
    Agrees text (node text kind start children) (TypeReader.node kind (text.pos + start) children) :=
  fun _ ht => readSeq (lift fun _ => ⟨rfl, ht⟩)

theorem separated_agrees (mark : Char) {item : PositionReader NodeId} {item' : TypeReader NodeId}
    (h : Agrees text item item') : Agrees text (separated text mark item) (TypeReader.separated mark item') := by
  intro t ht
  have hturns : (text.advance t).rest.length = text.rest.length - t := List.length_drop
  refine readSeq ?_
  rw [hturns]
  refine collect (I := (· ≤ text.rest.length)) (fun t ht => ?_) _ ht
  refine seq (h t ht) ?_
  rintro node _ t₁ ⟨rfl, h₁⟩
  refine seq (accept_mirrors mark h₁) ?_
  rintro more _ t₂ ⟨rfl, h₂, -⟩
  exact done ⟨rfl, h₂⟩

namespace Grammar

/-- Both grammars agree on their rules. -/
structure Agrees (text : Cursor) (g : Grammar) (g' : TypeReader.Grammar) : Prop where
  union : CheckedTypes.Agrees text g.union g'.union
  prefixed : CheckedTypes.Agrees text g.prefixed g'.prefixed

variable {g : Grammar} {g' : TypeReader.Grammar}

theorem skipLabel_mirrors (word : String) (ht : t ≤ text.rest.length) :
    Mirrors text.advance (skipLabel text word) (TypeReader.Grammar.skipLabel word) t fun _ _ t' =>
      t' ≤ text.rest.length := by
  refine readSeq (seq (acceptWord_mirrors word ht) ?_)
  rintro b _ t₁ ⟨rfl, h₁, -⟩
  cases b with
  | false => exact done h₁
  | true =>
    refine seq (accept_mirrors ':' h₁) ?_
    rintro colon _ t₂ ⟨rfl, h₂, -⟩
    cases colon with
    | true => exact done h₂
    | false => exact CheckedBuild.Mirrors.done ⟨rfl, ht⟩

namespace Agrees

theorem param (hg : g.Agrees text g') : CheckedTypes.Agrees text (g.param text) g'.param := by
  intro t ht
  refine seq (skipLabel_mirrors "this" ht) fun _ _ t₁ h₁ => ?_
  exact seq (skipLabel_mirrors "new" h₁) fun _ _ t₂ h₂ => hg.union t₂ h₂

theorem function (hg : g.Agrees text g') (start : Nat) :
    CheckedTypes.Agrees text (g.function text start) (g'.function (text.pos + start)) := by
  intro t ht
  refine seq (require_mirrors '(' ht) fun _ _ t₁ h₁ => readSeq ?_
  refine seq (accept_mirrors ')' h₁) ?_
  rintro closed _ t₂ ⟨rfl, h₂, -⟩
  have rest {t' : Nat} (params : List NodeId) (h : t' ≤ text.rest.length) : Mirrors text.advance (do
        let params ← node text .params t₁ params
        if ← accept text ':' then
          let result ← g.prefixed
          node text .function start [params, result]
        else node text .function start [params]) (do
        let params ← TypeReader.node .params (text.pos + t₁) params
        if ← TypeReader.accept ':' then
          let result ← g'.prefixed
          TypeReader.node .function (text.pos + start) [params, result]
        else TypeReader.node .function (text.pos + start) [params]) t' fun a b t' => a = b ∧ t' ≤ text.rest.length := by
    refine seq (node_agrees _ _ _ _ h) ?_
    rintro params _ t₃ ⟨rfl, h₃⟩
    refine seq (accept_mirrors ':' h₃) ?_
    rintro colon _ t₄ ⟨rfl, h₄, -⟩
    refine branch Iff.rfl (fun _ => ?_) fun _ => node_agrees _ _ _ _ h₄
    refine seq (hg.prefixed _ h₄) ?_
    rintro result _ t₅ ⟨rfl, h₅⟩
    exact node_agrees _ _ _ _ h₅
  refine branch Iff.rfl (fun _ => rest [] h₂) fun _ => ?_
  refine seq (separated_agrees ',' hg.param _ h₂) ?_
  rintro params _ t₃ ⟨rfl, h₃⟩
  exact seq (require_mirrors ')' h₃) fun _ _ t₄ h₄ => rest params h₄

/-- A name ends where its bytes do. -/
theorem nameEnd_eq {run : List UInt8} (h : run <+: text.rest.drop t) :
    nameEnd text t (t + run.length) =
      .ok (t + (if run.getLast? == some '.'.toUInt8 then run.dropLast else run).length) := by
  obtain ⟨rest, hrest⟩ := h
  rcases List.eq_nil_or_concat' run with rfl | ⟨name, b, rfl⟩
  · exact if_neg (Nat.lt_irrefl t)
  · have hdrop : text.rest.drop (t + name.length) = b :: rest := by
      rw [← List.drop_drop, ← hrest, List.append_assoc, List.drop_left]
      rfl
    have hlast : t + (name ++ [b]).length - 1 = t + name.length := by
      rw [List.length_append, List.length_singleton]
      omega
    rw [nameEnd, if_pos (by simp), hlast, byteAt_of_drop hdrop, List.getLast?_concat, List.dropLast_concat]
    by_cases hdot : b = '.'.toUInt8
    · rw [hdot]
      rfl
    · rw [if_neg (mt (fun h => Option.some.inj (beq_iff_eq.1 h)) hdot)]
      exact congrArg Except.ok (if_neg (mt beq_iff_eq.1 hdot))

theorem named (hg : g.Agrees text g') (ht : t ≤ text.rest.length) :
    Mirrors text.advance (g.named text t) (g'.named (text.pos + t)) t fun a b t' => a = b ∧ t' ≤ text.rest.length := by
  have hrun : (text.rest.drop t).takeWhile Byte.isTypeNamePart <+: text.rest.drop t := List.takeWhile_prefix _
  have hrest : (text.advance t).rest = text.rest.drop t := rfl
  refine readSeq (access (skipWhile_eq ..) ?_)
  rw [hrest]
  generalize (text.rest.drop t).takeWhile Byte.isTypeNamePart = run at hrun ⊢
  refine seq (P := fun _ _ t' => t' = t + run.length) (CheckedBuild.Mirrors.done ⟨Cursor.advance_advance .., rfl⟩) ?_
  rintro _ _ t₁ rfl
  refine access (nameEnd_eq hrun) ?_
  have hname : (if run.getLast? == some '.'.toUInt8 then run.dropLast else run) <+: text.rest.drop t := by
    split
    · exact (List.dropLast_prefix run).trans hrun
    · exact hrun
  generalize (if run.getLast? == some '.'.toUInt8 then run.dropLast else run) = name at hname ⊢
  have h₁ := add_length_le ht hrun
  obtain ⟨rest, hname⟩ := hname
  refine branch (by simp) (fun _ => fail_seq) fun _ => ?_
  refine access (slice_of_drop ht hname.symm) (seq (accept_mirrors '<' h₁) ?_)
  rintro angle _ t₂ ⟨rfl, h₂, -⟩
  have rest (arguments : List NodeId) {t' : Nat} (h : t' ≤ text.rest.length) : Mirrors text.advance (do
        let arguments ← pure arguments
        node text (.typeName (Utf8.decode name)) t arguments) (do
        let arguments ← pure arguments
        TypeReader.node (.typeName (Utf8.decode name)) (text.pos + t) arguments) t' fun a b t' =>
          a = b ∧ t' ≤ text.rest.length :=
    node_agrees _ _ _ _ h
  refine branch Iff.rfl (fun _ => ?_) fun _ => rest [] h₂
  refine seq (separated_agrees ',' hg.union _ h₂) ?_
  rintro arguments _ t₃ ⟨rfl, h₃⟩
  exact seq (require_mirrors '>' h₃) fun _ _ _ h₄ => rest arguments h₄

theorem basicRule (hg : g.Agrees text g') : CheckedTypes.Agrees text (g.basicRule text) g'.basicRule := by
  intro t ht
  refine seq (position_mirrors t) ?_
  rintro start _ t₁ ⟨rfl, rfl, rfl⟩
  have h₁ := afterBlanks_le ht
  refine seq (accept_mirrors '(' h₁) ?_
  rintro b _ t₂ ⟨rfl, h₂, hb⟩
  cases b with
  | true =>
    refine seq (hg.union _ h₂) ?_
    rintro inner _ t₃ ⟨rfl, h₃⟩
    exact seq (require_mirrors ')' h₃) fun _ _ t₄ h₄ => done ⟨rfl, h₄⟩
  | false =>
    obtain rfl := (hb rfl).trans (afterBlanks_idem text t)
    refine seq (acceptWord_mirrors "function" h₂) ?_
    rintro word _ t₃ ⟨rfl, h₃, hword⟩
    cases word with
    | true => exact hg.function _ _ h₃
    | false =>
      obtain rfl := (hword rfl).trans (afterBlanks_idem text t)
      exact hg.named h₃

theorem dotsNext_mirrors (ht : t ≤ text.rest.length) :
    Mirrors text.advance (dotsNext text) (get : TypeReader Cursor) t fun a c t' =>
      a = (ascii "...").isPrefixOf c.rest ∧ c = text.advance t ∧ t' = t := by
  have hrun : dotsNext text t = pure ((ascii "...").isPrefixOf (text.rest.drop t), t) := by
    show (if text.rest[t]? == some '.'.toUInt8 then _ else _ : PositionReader Bool) t = _
    split
    · rw [slice_to_end ht]
      rfl
    · next hdot =>
      have hnot : (ascii "...").isPrefixOf (text.rest.drop t) = false := by
        refine Bool.eq_false_iff.2 fun hdots => hdot (beq_iff_eq.2 ?_)
        obtain ⟨rest, hrest⟩ := List.isPrefixOf_iff_prefix.1 hdots
        rw [← List.head?_drop, ← hrest]
        rfl
      rw [hnot]
      rfl
  show CheckedBuild.Mirrors (dotsNext text t) _ _
  rw [hrun]
  exact CheckedBuild.Mirrors.done ⟨rfl, rfl, rfl, rfl⟩

theorem prefixedRule (hg : g.Agrees text g') : CheckedTypes.Agrees text (g.prefixedRule text) g'.prefixedRule := by
  intro t ht
  have rest {t' : Nat} (type : NodeId) (h : t' ≤ text.rest.length) : Mirrors text.advance (do
        let _ ← accept text '='
        return type) (do
        let _ ← TypeReader.accept '='
        return type) t' fun a b t' => a = b ∧ t' ≤ text.rest.length := by
    refine seq (accept_mirrors '=' h) ?_
    rintro _ _ t'' ⟨rfl, h', -⟩
    exact done ⟨rfl, h'⟩
  have leaf {t' : Nat} (kind : Kind) (start : Nat) (children : List NodeId) (h : t' ≤ text.rest.length) :
      Mirrors text.advance (do
        let type ← node text kind start children
        let _ ← accept text '='
        return type) (do
        let type ← TypeReader.node kind (text.pos + start) children
        let _ ← TypeReader.accept '='
        return type) t' fun a b t' => a = b ∧ t' ≤ text.rest.length := by
    refine seq (node_agrees _ _ _ _ h) ?_
    rintro type _ t'' ⟨rfl, h'⟩
    exact rest type h'
  refine seq (position_mirrors t) ?_
  rintro start _ t₁ ⟨rfl, rfl, rfl⟩
  refine seq (accept_mirrors '?' (afterBlanks_le ht)) ?_
  rintro question _ t₂ ⟨rfl, h₂, -⟩
  refine branch Iff.rfl (fun _ => ?_) fun _ => ?_
  · refine seq (peek_mirrors t₂) ?_
    rintro b _ t₃ ⟨rfl, -, rfl⟩
    refine branch Iff.rfl (fun _ => leaf _ _ _ (afterBlanks_le h₂)) fun _ => ?_
    refine seq (hg.prefixed _ (afterBlanks_le h₂)) ?_
    rintro inner _ t₄ ⟨rfl, h₄⟩
    exact leaf _ _ _ h₄
  refine seq (accept_mirrors '!' h₂) ?_
  rintro bang _ t₃ ⟨rfl, h₃, -⟩
  refine branch Iff.rfl (fun _ => ?_) fun _ => ?_
  · refine seq (hg.prefixed _ h₃) ?_
    rintro inner _ t₄ ⟨rfl, h₄⟩
    exact leaf _ _ _ h₄
  refine seq (accept_mirrors '*' h₃) ?_
  rintro star _ t₄ ⟨rfl, h₄, -⟩
  refine branch Iff.rfl (fun _ => leaf _ _ _ h₄) fun _ => ?_
  refine seq (dotsNext_mirrors h₄) ?_
  rintro _ _ t₅ ⟨rfl, rfl, rfl⟩
  refine branch Iff.rfl (fun hdots => ?_) fun _ => ?_
  · have h₅ : t₅ + 3 ≤ text.rest.length := add_length_le h₄ (List.isPrefixOf_iff_prefix.1 hdots)
    refine seq (P := fun _ _ t' => t' = t₅ + 3) (updates (Cursor.advance_advance ..) rfl) ?_
    rintro _ _ _ rfl
    refine seq (hg.prefixed _ h₅) ?_
    rintro type _ t₆ ⟨rfl, h₆⟩
    exact rest type h₆
  · refine seq (hg.basicRule _ h₄) ?_
    rintro type _ t₆ ⟨rfl, h₆⟩
    exact rest type h₆

theorem unionRule (hg : g.Agrees text g') : CheckedTypes.Agrees text (g.unionRule text) g'.unionRule := by
  intro t ht
  refine seq (position_mirrors t) ?_
  rintro start _ t₁ ⟨rfl, rfl, rfl⟩
  refine seq (separated_agrees '|' hg.prefixedRule _ (afterBlanks_le ht)) ?_
  rintro types _ t₂ ⟨rfl, h₂⟩
  match types with
  | [type] => exact done ⟨rfl, h₂⟩
  | [] | _ :: _ :: _ => exact node_agrees _ _ _ _ h₂

theorem next (hg : g.Agrees text g') : (g.next text).Agrees text g'.next := ⟨hg.unionRule, hg.prefixedRule⟩

end Agrees

theorem within_agrees (text : Cursor) : ∀ depth : Nat, (within text depth).Agrees text (TypeReader.Grammar.within depth)
  | 0 => ⟨fun _ _ => fails .exhausted, fun _ _ => fails .exhausted⟩
  | depth + 1 => (within_agrees text depth).next

end Grammar

/-- A type is read by position as it is read from a cursor. -/
theorem whole_mirrors (text : Cursor) :
    Mirrors text.advance (whole text) TypeReader.whole 0 fun a b _ => a = b := by
  have hzero : 0 ≤ text.rest.length := Nat.zero_le _
  refine readSeq (seq ((Grammar.within_agrees text _).union 0 hzero) ?_)
  rintro type _ t₁ ⟨rfl, h₁⟩
  refine seq (peek_mirrors t₁) ?_
  rintro more _ t₂ ⟨rfl, -, -⟩
  exact branch Iff.rfl (fun _ => fail_seq) fun _ => done rfl

end ScriptIndex.CheckedTypes
