import ScriptIndex.Proofs.ReadOnce
import ScriptIndex.Proofs.Refusals

/-! # Reading goes on

Why reading comes to an end: no rule succeeds and no loop goes on before a token is read, or a byte in the text of a
type, and the end of the text is left alone. The scan for tags goes on at a later place each time
(`Mention.turn`). -/

namespace ScriptIndex

/-! ### The scan for tags -/

namespace Mention

/-- What the scan does at one place: it ends, perhaps before a brace that is never closed, or it goes on at another
place with what it has found. -/
inductive Turn
  | ended (unclosed : Option Span)
  | onward (found : Option Mention) (before : UInt8) (next : Cursor)

def turn (before : Option UInt8) (c : Cursor) : Turn :=
  match c.rest with
  | [] => .ended none
  | b :: rest =>
    if b == '@'.toUInt8 && before.all startsWord then
      let head := head rest
      let name := Utf8.decode head.name
      let next := c.advance head.length
      if next.rest.head? == some openBrace then
        let inside := next.advance 1
        match closing? 0 inside.rest with
        | none => .ended (some ⟨next.pos, next.pos + next.rest.length⟩)
        | some length =>
          let found : Mention := ⟨name, some ⟨inside.pos, inside.rest.take length⟩⟩
          .onward (some found) closeBrace (c.advance (head.length + length + 2))
      else .onward (some ⟨name, none⟩) head.last next
    else .onward none b (c.advance 1)

/-- The scan is one turn after the other. -/
theorem scan_eq_turn (before : Option UInt8) (c : Cursor) : scan before c =
    match turn before c with
    | .ended unclosed => ([], unclosed)
    | .onward found b next => (found.toList ++ (scan (some b) next).1, (scan (some b) next).2) := by
  fun_induction scan before c with
  | case1 before c h => simp only [turn, h]
  | case2 before c b rest h hat head next hopen inside hclosing =>
    have hturn : turn before c = .ended (some ⟨next.pos, next.pos + next.rest.length⟩) := by
      simp only [turn, h, hat, if_true]
      exact (if_pos hopen).trans (by rw [hclosing])
    rw [hturn]
  | case3 before c b rest h hat head name next hopen inside length hclosing mentions unclosed hscan ih =>
    have hturn : turn before c = .onward (some ⟨name, some ⟨inside.pos, inside.rest.take length⟩⟩) closeBrace
        (c.advance (head.length + length + 2)) := by
      simp only [turn, h, hat, if_true]
      exact (if_pos hopen).trans (by rw [hclosing])
    rw [hturn]
    dsimp only
    rw [hscan]
    rfl
  | case4 before c b rest h hat head name next hopen mentions unclosed hscan ih =>
    have hturn : turn before c = .onward (some ⟨name, none⟩) head.last next := by
      simp only [turn, h, hat, if_true]
      exact if_neg hopen
    rw [hturn]
    dsimp only
    rw [hscan]
    rfl
  | case5 before c b rest h hat ih =>
    have hturn : turn before c = .onward none b (c.advance 1) := by
      simp only [turn, h]
      exact if_neg hat
    rw [hturn]
    rfl

/-- Wherever the scan of a text goes on, it is at a later place of the text. -/
def Advances (text : Cursor) : Prop :=
  ∀ before c found b next, text.Reaches c → turn before c = .onward found b next →
    text.Reaches next ∧ c.pos < next.pos

theorem advances (text : Cursor) : Advances text := by
  intro before c found b next hc h
  have later {n : Nat} (hn : 0 < n) (hle : n ≤ c.rest.length) :
      text.Reaches (c.advance n) ∧ c.pos < (c.advance n).pos :=
    ⟨hc.advance hle, Nat.lt_add_of_pos_right hn⟩
  unfold turn at h
  split at h
  · cases h
  · next b' rest hrest =>
    dsimp only at h
    have hhead := head_length_le b' rest
    rw [← hrest] at hhead
    split_ifs at h with hat hopen
    · split at h
      · cases h
      · next length hclosing =>
        cases h
        exact later (Nat.succ_pos _) (closing?_advance_lt hclosing)
    · cases h
      exact later (head_length_pos rest) hhead
    · cases h
      exact later Nat.one_pos (hrest ▸ Nat.succ_pos _)

end Mention

/-! ### Rules and loops -/

namespace TypeReader.Grammar

/-- On less than `n` bytes each rule finishes, and where it succeeds it has read a byte and is still in the text. -/
structure Progresses (text : Cursor) (n : Nat) (g : Grammar) : Prop extends g.Ahead text n where
  basic : g.basicRule.Consumes text (n + 1)
  function (start : Nat) : (g.function start).Consumes text (n + 1)
  named (start : Nat) : (g.named start).Consumes text (n + 1)
  param : g.param.Consumes text n

theorem within_progresses (text : Cursor) (depth : Nat) : (within depth).Progresses text depth :=
  have hg := within_ahead text depth
  { toAhead := hg, basic := hg.basicRule, function := hg.function, named := hg.named, param := hg.param }

end TypeReader.Grammar

namespace ScriptReader.Grammar

/-- On less than `n` tokens each rule finishes, and where it succeeds it has read a token and not the end of the
text. No loop goes on before a token is read. -/
structure Progresses (stream : Stream) (n : Nat) (g : Grammar) : Prop extends g.Ahead stream n where
  statement_once : TakesOnce stream n g.statement
  assignment_once : TakesOnce stream n g.assignment
  statements : TurnConsumes stream n (statementTurn g)
  block : TurnConsumes stream n (itemTurn .braceClose g.statement)
  params : TurnConsumes stream n (separatedTurn .parenClose name)
  members : TurnConsumes stream n (separatedTurn .braceClose g.member)
  elements : TurnConsumes stream n (separatedTurn .bracketClose g.assignment)
  arguments : TurnConsumes stream n (separatedTurn .parenClose g.assignment)
  declared : TurnConsumes stream (n + 1) g.variableTurn
  suffixes (start : Token) : StepConsumes stream (n + 1) (g.suffix start)
  operations (least : Nat) (start : Token) : StepConsumes stream (n + 1) (g.operation least start)

theorem within_progresses (stream : Stream) (depth : Nat) : (within depth).Progresses stream depth :=
  have hg := within_ahead stream depth
  { toAhead := hg
    statement_once := (within_takesOnce stream depth).1
    assignment_once := (within_takesOnce stream depth).2
    statements := hg.statementTurn_consumes
    block := itemTurn_consumes (by decide) hg.statement
    params := separatedTurn_consumes (by decide) name_advances
    members := separatedTurn_consumes (by decide) hg.member
    elements := separatedTurn_consumes (by decide) hg.assignment
    arguments := separatedTurn_consumes (by decide) hg.assignment
    declared := hg.variableTurn_consumes
    suffixes := hg.suffix
    operations := hg.operation }

end ScriptReader.Grammar

namespace Build

/-- Reading a script ends. It asks for each item of its source at most once, so that what comes after the last
of them makes no difference. Every rule and every loop makes progress, at any depth, and so do the rules for
types and the scan for tags in documentation, whose reading ends as well. -/
theorem reading_progresses (source : List UInt8) (options : Options) (arena : Arena) :
    Ends (fun _ => True) (script source options arena) ∧
      (∀ beyond, (ScriptReader.script options.module).run'
        (.ofStream (options.shown (.ofItems beyond ((Cursor.ofBytes source).items 1)))) arena =
          script source options arena) ∧
      (∀ depth, (ScriptReader.Grammar.within depth).Progresses (options.stream source) depth) ∧
      ∀ text, Ends (fun _ => True) (doc text arena) ∧ Mention.Advances text ∧
        ∀ depth, (TypeReader.Grammar.within depth).Progresses text depth :=
  ⟨(script_ends source options arena).imp fun _ _ => trivial,
    fun beyond => congrFun (script_once beyond source options) arena,
    ScriptReader.Grammar.within_progresses (options.stream source),
    fun text => ⟨(doc_ends text arena).imp fun _ _ => trivial, Mention.advances text,
      TypeReader.Grammar.within_progresses text⟩⟩

end Build

end ScriptIndex
