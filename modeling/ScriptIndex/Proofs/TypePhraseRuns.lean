import ScriptIndex.Proofs.TypeLexemes
import ScriptIndex.Proofs.Yields
import ScriptIndex.Comment.TypeExpression

/-! # Reading printed types

Each rule of the grammar of types reads its construct as it is written, with any blanks between lexemes, and
plants the tree that the construct stands for. A rule of a deeper level is called on a part of what its caller
reads, so it is enough that the levels are as many as the lexemes. -/

namespace ScriptIndex

namespace TypeReader
open Reader Reader.Yields
open TypeLexeme (parens joined arguments functionWord)

variable {c : Cursor} {arena mid : Arena} {w : TypeLexeme} {ws rest : List TypeLexeme}

/-! ## Marks and words -/

theorem get_yields : Yields (get : TypeReader Cursor) c arena fun c' s' after => c' = c ∧ s' = c ∧ after = arena :=
  ⟨_, _, _, rfl, rfl, rfl, rfl⟩

theorem skipBlanks_yields (h : Spaced ws c.rest) :
    Yields skipBlanks c arena fun _ c' after => Faces ws c'.rest ∧ after = arena :=
  ⟨(), _, _, rfl, h.passed, rfl⟩

theorem position_yields (h : Spaced ws c.rest) :
    Yields position c arena fun _ c' after => Faces ws c'.rest ∧ after = arena :=
  ⟨_, _, _, rfl, h.passed, rfl⟩

theorem peek_yields (h : Spaced ws c.rest) :
    Yields peek c arena fun b c' after => b = nextByte ws ∧ Faces ws c'.rest ∧ after = arena :=
  ⟨_, _, _, rfl, h.passed.head?, h.passed, rfl⟩

theorem accept_yields {mark : Char} {hmark : mark ∈ typeSigns} (h : Spaced (.sign mark hmark :: ws) c.rest) :
    Yields (accept mark) c arena fun r c' after => r = true ∧ Spaced ws c'.rest ∧ after = arena := by
  refine (peek_yields h).seq ?_
  rintro _ c' _ ⟨rfl, ⟨tail, htail, hrest⟩, rfl⟩
  rw [show nextByte (.sign mark hmark :: ws) = some mark.toUInt8 from rfl, if_pos (beq_self_eq_true _)]
  refine ⟨_, _, _, rfl, rfl, ?_, rfl⟩
  simp only [Cursor.advance, htail]
  exact hrest

theorem accept_none {mark : Char} (h : Spaced ws c.rest) (hne : nextByte ws ≠ some mark.toUInt8) :
    Yields (accept mark) c arena fun r c' after => r = false ∧ Faces ws c'.rest ∧ after = arena := by
  refine (peek_yields h).seq ?_
  rintro _ c' _ ⟨rfl, hfaces, rfl⟩
  rw [if_neg (mt beq_iff_eq.1 hne)]
  exact done ⟨rfl, hfaces, rfl⟩

theorem require_yields {mark : Char} {hmark : mark ∈ typeSigns} (h : Spaced (.sign mark hmark :: ws) c.rest) :
    Yields (require mark) c arena fun _ c' after => Spaced ws c'.rest ∧ after = arena := by
  refine (accept_yields h).seq ?_
  rintro _ c' _ ⟨rfl, hrest, rfl⟩
  exact done ⟨hrest, rfl⟩

/-- A word is a whole word of the text if it is the longest run of bytes of its kind. -/
theorem isPrefixOf_whole {p : UInt8 → Bool} : ∀ {word : List UInt8}, (∀ b ∈ word, p b = true) →
    ∀ bytes : List UInt8,
      (word.isPrefixOf bytes && !(bytes.drop word.length).head?.any p) = (bytes.takeWhile p == word)
  | [], _, [] => rfl
  | [], _, b :: bytes => by
    cases hb : p b <;> simp [hb]
  | a :: word, _, [] => rfl
  | a :: word, h, b :: bytes => by
    obtain ⟨ha, hword⟩ := List.forall_mem_cons.1 h
    have ih := isPrefixOf_whole hword bytes
    by_cases hab : a = b
    · subst hab
      simpa [ha, List.isPrefixOf] using ih
    · have hne : ¬ b = a := fun h => hab h.symm
      have hba : (b == a) = false := by simpa using hne
      have hab : (a == b) = false := by simpa using hab
      cases hb : p b <;> simp [List.isPrefixOf, hab, hba, hb]

theorem acceptWord_yields {word : String} (hword : (ascii word).all Byte.isTypeNamePart = true)
    (h : Spaced ws c.rest) :
    Yields (acceptWord word) c arena fun r c' after =>
      (∃ text, Faces ws text ∧ r = (text.takeWhile Byte.isTypeNamePart == ascii word) ∧
        c'.rest = if r then text.drop (ascii word).length else text) ∧ after = arena := by
  refine (skipBlanks_yields h).seq ?_
  rintro _ c' _ ⟨hfaces, rfl⟩
  refine get_yields.seqSame ?_
  dsimp only
  rw [isPrefixOf_whole (List.all_eq_true.1 hword)]
  by_cases hw : (c'.rest.takeWhile Byte.isTypeNamePart == ascii word) = true
  · rw [if_pos hw]
    exact ⟨_, _, _, rfl, ⟨c'.rest, hfaces, hw.symm, rfl⟩, rfl⟩
  · rw [if_neg hw]
    exact done ⟨⟨c'.rest, hfaces, (Bool.eq_false_iff.2 hw).symm, rfl⟩, rfl⟩

theorem turns_yields (c : Cursor) (arena : Arena) :
    Yields turns c arena fun n s' after => n = c.rest.length + 1 ∧ s' = c ∧ after = arena :=
  ⟨_, _, _, rfl, rfl, rfl, rfl⟩

/-- A node over planted trees. -/
theorem node_plants {kind : Kind} {start : Nat} {ts : List Tree} {ns : List NodeId} (h : PlantedAll arena ts ns mid) :
    Yields (node kind start ns) c mid fun n c' after => c' = c ∧ Planted arena (.node kind ts) n after := by
  obtain ⟨after, hrun, hmade⟩ := Build.run_node kind ⟨start, c.pos⟩ fun n hn => (h.grown.2.1 n hn).2
  have hlift : (node kind start ns : TypeReader NodeId) c mid = .ok (mid.size, c) after := Build.run_bind_ok hrun
  exact ⟨_, _, _, hlift, rfl, .node h hmade⟩

/-! ## Lists -/

/-- Before what satisfies `ends`, the rule reads exactly the given lexemes and plants the tree. -/
def Plants (x : TypeReader NodeId) (ends : Option UInt8 → Prop) (ws : List TypeLexeme) (t : Tree) : Prop :=
  ∀ (c : Cursor) (arena : Arena) (rest : List TypeLexeme), ends (nextByte rest) → Spaced (ws ++ rest) c.rest →
    Yields x c arena fun n c' after => Spaced rest c'.rest ∧ Planted arena t n after

variable {item : TypeReader NodeId} {ends : Option UInt8 → Prop} {parts : List (List TypeLexeme)} {ts : List Tree}

theorem joined_cons_cons (mark : TypeLexeme) (p q : List TypeLexeme) :
    joined mark (p :: q :: parts) = p ++ mark :: joined mark (q :: parts) := by
  simp [joined, List.intercalate_cons_cons]

theorem length_le_joined (mark : TypeLexeme) : ∀ parts : List (List TypeLexeme),
    parts.length ≤ (joined mark parts).length + 1
  | [] => Nat.zero_le _
  | [p] => Nat.succ_le_succ (Nat.zero_le _)
  | p :: q :: parts => by
    have ih := length_le_joined mark (q :: parts)
    rw [joined_cons_cons, List.length_append]
    simp only [List.length_cons] at ih ⊢
    omega

theorem separated_yields {mark : Char} {hmark : mark ∈ typeSigns} (hends : ends (some mark.toUInt8))
    (items : List.Forall₂ (Plants item ends) parts ts) (hne : parts ≠ [])
    (h : Spaced (joined (.sign mark hmark) parts ++ rest) c.rest) (hstop : ends (nextByte rest))
    (hother : nextByte rest ≠ some mark.toUInt8) :
    Yields (separated mark item) c arena fun ns c' after => Spaced rest c'.rest ∧ PlantedAll arena ts ns after := by
  refine (turns_yields c arena).seqSame ?_
  have hturns : parts.length ≤ c.rest.length + 1 := by
    have hlength := h.length_le
    have hle := length_le_joined (.sign mark hmark) parts
    rw [List.length_append] at hlength
    omega
  generalize c.rest.length + 1 = turns at hturns
  induction items generalizing turns c arena with
  | nil => exact absurd rfl hne
  | @cons part t parts ts hitem items ih =>
    obtain ⟨turns, rfl⟩ := Nat.exists_eq_succ_of_ne_zero (Nat.ne_of_gt (Nat.lt_of_lt_of_le (Nat.succ_pos _) hturns))
    cases items with
    | nil =>
      have h : Spaced (part ++ rest) c.rest := by simpa [joined] using h
      refine ((hitem _ _ _ hstop h).seq (R := fun r c' after => ∃ n, r = .last n ∧ Spaced rest c'.rest ∧
        Planted arena t n after) ?_).seq ?_
      · rintro n c' mid ⟨h', hn⟩
        refine (accept_none h' hother).seq ?_
        rintro _ c'' _ ⟨rfl, h'', rfl⟩
        exact done ⟨n, rfl, h''.spaced, hn⟩
      · rintro _ c' mid ⟨n, rfl, h', hn⟩
        exact done ⟨h', .cons hn .nil⟩
    | @cons part' _ parts _ _ items =>
      rw [joined_cons_cons, List.append_assoc] at h
      refine ((hitem _ _ (.sign mark hmark :: _) hends h).seq (R := fun r c' after => ∃ n, r = .more n ∧
        Spaced (joined (.sign mark hmark) (part' :: parts) ++ rest) c'.rest ∧ Planted arena t n after) ?_).seq ?_
      · rintro n c' mid ⟨h', hn⟩
        refine (accept_yields h').seq ?_
        rintro _ c'' _ ⟨rfl, h'', rfl⟩
        exact done ⟨n, rfl, h'', hn⟩
      · rintro _ c' mid ⟨n, rfl, h', hn⟩
        refine (ih (List.cons_ne_nil _ _) h' _ (Nat.le_of_succ_le_succ hturns)).seq ?_
        rintro ns c'' after ⟨h'', hns⟩
        exact done ⟨h'', .cons hn hns⟩

/-! ## Types -/

/-- What may follow one of the types of a union. -/
structure EndsAlternative (b : Option UInt8) : Prop where
  ends : Grammar.endsType b = true
  sign : b ≠ some '='.toUInt8

structure EndsUnion (b : Option UInt8) : Prop extends EndsAlternative b where
  bar : b ≠ some '|'.toUInt8

theorem endsType_cases {b : Option UInt8} (h : Grammar.endsType b = true) :
    b.any Byte.isTypeNamePart = false ∧ b ≠ some '<'.toUInt8 ∧ b ≠ some ':'.toUInt8 := by
  cases b with
  | none => simp
  | some b =>
    have hall : ((ascii "|,>)=\x7d").all fun b => !Byte.isTypeNamePart b && b != '<'.toUInt8 &&
        b != ':'.toUInt8) = true := by decide
    have hb := List.all_eq_true.1 hall b (List.contains_iff_mem.1 h)
    simpa [and_assoc] using hb

theorem endsUnion_none : EndsUnion none := ⟨⟨rfl, nofun⟩, nofun⟩

theorem endsUnion_sign {mark : Char} (h : mark ∈ [')', ',', '>']) : EndsUnion (some mark.toUInt8) := by
  have hcases : mark = ')' ∨ mark = ',' ∨ mark = '>' := by simpa using h
  rcases hcases with rfl | rfl | rfl <;> exact ⟨⟨rfl, by decide⟩, by decide⟩

theorem parens_append (ws rest : List TypeLexeme) :
    parens ws ++ rest = .sign '(' :: (ws ++ .sign ')' :: rest) := by
  simp [parens]

theorem length_parens (ws : List TypeLexeme) : (parens ws).length = ws.length + 2 := by
  simp [parens]

namespace Grammar

/-- The rules read what has at most `depth` lexemes. -/
structure Reads (g : Grammar) (depth : Nat) : Prop where
  union (t : TypePhrase) (h : t.lexemes.length ≤ depth) : Plants g.union EndsUnion t.lexemes t.tree
  operand (t : TypePhrase) (h : (parens t.lexemes).length ≤ depth) :
    Plants g.union EndsUnion (parens t.lexemes) t.tree
  prefixed (t : TypePhrase) (h : (parens t.lexemes).length ≤ depth) :
    Plants g.prefixed EndsAlternative (parens t.lexemes) t.tree

variable {g : Grammar} {depth : Nat} {t : Tree}

/-- An optional equals sign after a type is not there. -/
theorem plants_equals {n : NodeId} (hrest : EndsAlternative (nextByte rest)) (h : Spaced rest c.rest)
    (hn : Planted arena t n mid) :
    Yields (do
      let _ ← accept '='
      return n) c mid fun n c' after => Spaced rest c'.rest ∧ Planted arena t n after := by
  refine (accept_none h hrest.sign).seq ?_
  rintro _ c' _ ⟨rfl, h', rfl⟩
  exact done ⟨h'.spaced, hn⟩

/-- A type that begins with none of the signs of a prefix. -/
theorem prefixedRule_of_basicRule (hbasic : Plants g.basicRule EndsAlternative (w :: ws) t)
    (hfirst : w.bytes.head? ∉ (ascii "?!*.").map some) :
    Plants g.prefixedRule EndsAlternative (w :: ws) t := by
  intro c arena rest hends h
  refine (position_yields h).seq ?_
  rintro start c _ ⟨h, rfl⟩
  have hfirst {b : UInt8} (hb : b ∈ ascii "?!*.") : w.bytes.head? ≠ some b := fun h =>
    hfirst (h ▸ List.mem_map_of_mem hb)
  refine (accept_none h.spaced (hfirst (by decide))).seq ?_
  rintro _ c _ ⟨rfl, h, rfl⟩
  refine (accept_none h.spaced (hfirst (by decide))).seq ?_
  rintro _ c _ ⟨rfl, h, rfl⟩
  refine (accept_none h.spaced (hfirst (by decide))).seq ?_
  rintro _ c _ ⟨rfl, h, rfl⟩
  refine get_yields.seqSame ?_
  have hdots : ¬ (ascii "...").isPrefixOf c.rest = true := by
    intro hpre
    obtain ⟨tail, htail⟩ := List.isPrefixOf_iff_prefix.1 hpre
    refine hfirst (by decide : '.'.toUInt8 ∈ _) (h.head?.symm.trans ?_)
    rw [← htail]
    rfl
  rw [if_neg hdots]
  refine (hbasic _ _ _ hends h.spaced).seq ?_
  rintro n c mid ⟨h, hn⟩
  exact plants_equals hends h hn

namespace Reads

/-- A type in parentheses. -/
theorem basicRule_parens (hg : g.Reads depth) {t : TypePhrase} (ht : t.lexemes.length ≤ depth) :
    Plants g.basicRule EndsAlternative (parens t.lexemes) t.tree := by
  intro c arena rest _ h
  refine (position_yields h).seq ?_
  rintro start c _ ⟨h, rfl⟩
  have h := h.spaced
  rw [parens_append] at h
  refine (accept_yields h).seq ?_
  rintro _ c _ ⟨rfl, h, rfl⟩
  refine (hg.union t ht _ _ (.sign ')' :: rest) (endsUnion_sign (by decide)) h).seq ?_
  rintro n c mid ⟨h, hn⟩
  refine (require_yields h).seq ?_
  rintro _ c _ ⟨h, rfl⟩
  exact done ⟨h, hn⟩

theorem prefixedRule_parens (hg : g.Reads depth) {t : TypePhrase} (ht : t.lexemes.length ≤ depth) :
    Plants g.prefixedRule EndsAlternative (parens t.lexemes) t.tree :=
  prefixedRule_of_basicRule (hg.basicRule_parens ht) (by decide)

/-- Types in parentheses, as the parts of a list. -/
theorem operands {item : TypeReader NodeId} {ends : Option UInt8 → Prop}
    (h : ∀ t : TypePhrase, (parens t.lexemes).length ≤ depth → Plants item ends (parens t.lexemes) t.tree) :
    ∀ {ts : List TypePhrase}, (∀ part ∈ typeOperands ts, part.length ≤ depth) →
      List.Forall₂ (Plants item ends) (typeOperands ts) (typeTrees ts)
  | [], _ => by
    rw [typeOperands, typeTrees]
    exact .nil
  | t :: ts, hparts => by
    rw [typeOperands, List.forall_mem_cons] at hparts
    rw [typeOperands, typeTrees]
    exact .cons (h t hparts.1) (operands h hparts.2)

theorem skipLabel_none {word : String} (hword : (ascii word).all Byte.isTypeNamePart = true)
    (hne : ascii word ≠ []) {hmark} (h : Spaced (.sign '(' hmark :: ws) c.rest) :
    Yields (skipLabel word) c arena fun _ c' after => Spaced (.sign '(' hmark :: ws) c'.rest ∧ after = arena := by
  refine get_yields.seqSame ((acceptWord_yields hword h).seq ?_)
  rintro r c' _ ⟨⟨text, hfaces, rfl, hrest⟩, rfl⟩
  have hr : (text.takeWhile Byte.isTypeNamePart == ascii word) = false := by
    rw [hfaces.takeWhile_sign]
    simpa using hne.symm
  rw [hr] at hrest ⊢
  exact done ⟨hrest ▸ hfaces.spaced, rfl⟩

theorem param (hg : g.Reads depth) (t : TypePhrase) (ht : (parens t.lexemes).length ≤ depth) :
    Plants g.param EndsUnion (parens t.lexemes) t.tree := by
  intro c arena rest hends h
  refine (skipLabel_none (by decide) (by decide) h).seq ?_
  rintro _ c _ ⟨h, rfl⟩
  refine (skipLabel_none (by decide) (by decide) h).seq ?_
  rintro _ c _ ⟨h, rfl⟩
  exact hg.operand t ht _ _ _ hends h

end Reads

/-- What follows the parameters of a function: nothing, or a colon and a type. -/
inductive Result (g : Grammar) : List TypeLexeme → List Tree → Prop
  | none : Result g [] []
  | some {ws : List TypeLexeme} {t : Tree} (h : Plants g.prefixed EndsAlternative ws t) :
      Result g (.sign ':' :: ws) [t]

/-- The end of a function, of which the parameters are planted, and what follows them is left. -/
theorem Result.plants (hmore : g.Result more ts) (hends : EndsAlternative (nextByte rest)) {params : List Tree}
    {ns : List NodeId} {pos start : Nat} (h : Spaced (more ++ rest) c.rest)
    (hns : PlantedAll arena params ns mid) :
    Yields (do
      let params ← node .params pos ns
      if ← accept ':' then
        let result ← g.prefixed
        node .function start [params, result]
      else node .function start [params]) c mid fun n c' after =>
        Spaced rest c'.rest ∧ Planted arena (.node .function (.node .params params :: ts)) n after := by
  refine (node_plants hns).seq ?_
  rintro n _ mid ⟨rfl, hn⟩
  cases hmore with
  | none =>
    refine (accept_none h (endsType_cases hends.ends).2.2).seq ?_
    rintro _ c _ ⟨rfl, h, rfl⟩
    refine (node_plants (.cons hn .nil)).weaken ?_
    rintro m _ after ⟨rfl, hm⟩
    exact ⟨h.spaced, hm⟩
  | some hresult =>
    refine (accept_yields h).seq ?_
    rintro _ c _ ⟨rfl, h, rfl⟩
    refine (hresult _ _ _ hends h).seq ?_
    rintro m c mid ⟨h, hm⟩
    refine (node_plants (.cons hn (.cons hm .nil))).weaken ?_
    rintro m _ after ⟨rfl, hm⟩
    exact ⟨h, hm⟩

namespace Reads

theorem function (hg : g.Reads depth) {params : List TypePhrase} {more : List TypeLexeme} {ts : List Tree}
    (hparams : ∀ part ∈ typeOperands params, part.length ≤ depth) (hmore : g.Result more ts) (start : Nat) :
    Plants (g.function start) EndsAlternative (parens (joined (.sign ',') (typeOperands params)) ++ more)
      (.node .function (.node .params (typeTrees params) :: ts)) := by
  intro c arena rest hends h
  rw [List.append_assoc, parens_append] at h
  refine (require_yields h).seq ?_
  rintro _ c _ ⟨h, rfl⟩
  refine get_yields.seqSame ?_
  cases params with
  | nil =>
    rw [typeOperands] at h
    refine (accept_yields h).seq ?_
    rintro _ c arena ⟨rfl, h, rfl⟩
    have hnone : PlantedAll arena (typeTrees []) [] arena := by rw [typeTrees]; exact .nil
    exact hmore.plants hends h hnone
  | cons param params =>
    have items := operands (fun t ht => hg.param t ht) hparams
    have hfirst : nextByte (joined (.sign ',') (typeOperands (param :: params)) ++ .sign ')' :: (more ++ rest)) =
        some '('.toUInt8 := by
      rw [typeOperands]
      cases typeOperands params <;> simp [joined, List.intercalate_cons_cons, parens, nextByte, TypeLexeme.bytes]
    refine (accept_none h (by rw [hfirst]; decide)).seq ?_
    rintro _ c _ ⟨rfl, h, rfl⟩
    have hmark : some ')'.toUInt8 ≠ some ','.toUInt8 := by decide
    refine (separated_yields (endsUnion_sign (by decide)) items (by simp [typeOperands]) h.spaced
      (endsUnion_sign (by decide)) hmark).seq ?_
    rintro ns c mid ⟨h, hns⟩
    refine (require_yields h).seq ?_
    rintro _ c _ ⟨h, rfl⟩
    exact hmore.plants hends h hns

theorem basicRule_function (hg : g.Reads depth) {params : List TypePhrase} {more : List TypeLexeme} {ts : List Tree}
    (hparams : ∀ part ∈ typeOperands params, part.length ≤ depth) (hmore : g.Result more ts) :
    Plants g.basicRule EndsAlternative
      (functionWord :: (parens (joined (.sign ',') (typeOperands params)) ++ more))
      (.node .function (.node .params (typeTrees params) :: ts)) := by
  intro c arena rest hends h
  refine (position_yields h).seq ?_
  rintro start c _ ⟨h, rfl⟩
  refine (accept_none h.spaced (show functionWord.bytes.head? ≠ some '('.toUInt8 by decide)).seq ?_
  rintro _ c _ ⟨rfl, h, rfl⟩
  refine (acceptWord_yields (by decide) h.spaced).seq ?_
  rintro r c _ ⟨⟨text, hfaces, rfl, hrest⟩, rfl⟩
  obtain ⟨htake, hdrop⟩ := hfaces.takeWhile_word (show (some '('.toUInt8).any _ = false by decide)
  rw [htake, beq_self_eq_true] at hrest ⊢
  exact hg.function hparams hmore start _ _ _ hends (hrest ▸ hdrop)

/-- The run of bytes that a name consists of. -/
theorem name_run {x : TypeName} {types : List TypePhrase} {text : List UInt8} (hends : EndsAlternative (nextByte rest))
    (hfaces : Faces (x.lexeme :: (arguments (typeOperands types) ++ rest)) text) :
    text.takeWhile Byte.isTypeNamePart = ascii x.text ∧
      Spaced (arguments (typeOperands types) ++ rest) (text.drop (ascii x.text).length) := by
  refine hfaces.takeWhile_word ?_
  cases types with
  | nil => exact (endsType_cases hends.ends).1
  | cons t types =>
    rw [typeOperands]
    show (some '<'.toUInt8).any Byte.isTypeNamePart = false
    decide

theorem named (hg : g.Reads depth) (x : TypeName) {types : List TypePhrase}
    (htypes : ∀ part ∈ typeOperands types, part.length ≤ depth) (start : Nat) :
    ∀ (c : Cursor) (arena : Arena) (rest : List TypeLexeme), EndsAlternative (nextByte rest) →
      Faces (x.lexeme :: (arguments (typeOperands types) ++ rest)) c.rest →
      Yields (g.named start) c arena fun n c' after =>
        Spaced rest c'.rest ∧ Planted arena (.node (.typeName x.text) (typeTrees types)) n after := by
  intro c arena rest hends hfaces
  obtain ⟨htake, hdrop⟩ := name_run hends hfaces
  obtain ⟨last, hlast, hchar⟩ := x.exists_getLast?
  have hdot : ((ascii x.text).getLast? == some '.'.toUInt8) = false := by
    rw [ascii, List.getLast?_map, hlast]
    refine beq_eq_false_iff_ne.2 fun h => isNameChar_ne hchar ?_
    rw [Option.some.inj h]
    decide
  have hne : ascii x.text ≠ [] := by simpa [ascii] using x.text_ne_empty
  refine get_yields.seqSame ?_
  dsimp only
  rw [htake, hdot]
  refine Yields.seq (Q := fun _ c' after => Spaced _ c'.rest ∧ after = arena) ⟨_, _, _, rfl, hdrop, rfl⟩ ?_
  rintro _ c _ ⟨h, rfl⟩
  simp only [Bool.false_eq_true, if_false, if_neg hne, Utf8.decode_ascii x.chars]
  cases types with
  | nil =>
    refine (accept_none h (endsType_cases hends.ends).2.1).seq ?_
    rintro _ c _ ⟨rfl, h, rfl⟩
    refine (node_plants .nil).weaken ?_
    rintro n _ after ⟨rfl, hn⟩
    exact ⟨h.spaced, by rwa [typeTrees]⟩
  | cons t types =>
    have items := operands hg.operand htypes
    have h : Spaced (.sign '<' :: (joined (.sign ',') (typeOperands (t :: types)) ++ .sign '>' :: rest)) c.rest := by
      simpa [arguments, typeOperands] using h
    refine (accept_yields h).seq ?_
    rintro _ c _ ⟨rfl, h, rfl⟩
    have hmark : some '>'.toUInt8 ≠ some ','.toUInt8 := by decide
    refine (separated_yields (endsUnion_sign (by decide)) items (by simp [typeOperands]) h
      (endsUnion_sign (by decide)) hmark).seq ?_
    rintro ns c mid ⟨h, hns⟩
    refine (require_yields h).seq ?_
    rintro _ c _ ⟨h, rfl⟩
    refine (node_plants hns).weaken ?_
    rintro n _ after ⟨rfl, hn⟩
    exact ⟨h, hn⟩

theorem basicRule_name (hg : g.Reads depth) (x : TypeName) {types : List TypePhrase}
    (htypes : ∀ part ∈ typeOperands types, part.length ≤ depth) :
    Plants g.basicRule EndsAlternative (x.lexeme :: arguments (typeOperands types))
      (.node (.typeName x.text) (typeTrees types)) := by
  intro c arena rest hends h
  refine (position_yields h).seq ?_
  rintro start c _ ⟨h, rfl⟩
  refine (accept_none h.spaced (x.head?_ne (by decide))).seq ?_
  rintro _ c _ ⟨rfl, h, rfl⟩
  refine (acceptWord_yields (by decide) h.spaced).seq ?_
  rintro r c _ ⟨⟨text, hfaces, rfl, hrest⟩, rfl⟩
  have hword : (text.takeWhile Byte.isTypeNamePart == ascii "function") = false := by
    rw [(name_run hends hfaces).1, beq_eq_false_iff_ne]
    intro h
    have hdecode := Utf8.decode_ascii x.chars
    rw [h, Utf8.decode_ascii (by decide)] at hdecode
    exact x.text_ne_function hdecode.symm
  rw [hword] at hrest ⊢
  exact hg.named x htypes start _ _ _ hends (hrest ▸ hfaces)

/-! ### Prefixes -/

theorem prefixedRule_all : Plants g.prefixedRule EndsAlternative [.sign '*'] (.node .typeAll []) := by
  intro c arena rest hends h
  refine (position_yields h).seq ?_
  rintro start c _ ⟨h, rfl⟩
  refine (accept_none h.spaced (show some '*'.toUInt8 ≠ some '?'.toUInt8 by decide)).seq ?_
  rintro _ c _ ⟨rfl, h, rfl⟩
  refine (accept_none h.spaced (show some '*'.toUInt8 ≠ some '!'.toUInt8 by decide)).seq ?_
  rintro _ c _ ⟨rfl, h, rfl⟩
  refine (accept_yields h.spaced).seq ?_
  rintro _ c _ ⟨rfl, h, rfl⟩
  refine (node_plants .nil).seq ?_
  rintro n _ mid ⟨rfl, hn⟩
  exact plants_equals hends h hn

theorem prefixedRule_unknown : Plants g.prefixedRule EndsAlternative [.sign '?'] (.node .typeUnknown []) := by
  intro c arena rest hends h
  refine (position_yields h).seq ?_
  rintro start c _ ⟨h, rfl⟩
  refine (accept_yields h.spaced).seq ?_
  rintro _ c _ ⟨rfl, (h : Spaced rest c.rest), rfl⟩
  refine (peek_yields h).seq ?_
  rintro _ c _ ⟨rfl, h, rfl⟩
  rw [if_pos hends.ends]
  refine (node_plants .nil).seq ?_
  rintro n _ mid ⟨rfl, hn⟩
  exact plants_equals hends h.spaced hn

theorem prefixedRule_nullable (hg : g.Reads depth) {t : TypePhrase} (ht : (parens t.lexemes).length ≤ depth) :
    Plants g.prefixedRule EndsAlternative (.sign '?' :: parens t.lexemes) (.node .typeNullable [t.tree]) := by
  intro c arena rest hends h
  refine (position_yields h).seq ?_
  rintro start c _ ⟨h, rfl⟩
  refine (accept_yields h.spaced).seq ?_
  rintro _ c _ ⟨rfl, (h : Spaced (parens t.lexemes ++ rest) c.rest), rfl⟩
  refine (peek_yields h).seq ?_
  rintro _ c _ ⟨rfl, h, rfl⟩
  have hopen : ¬ endsType (nextByte (parens t.lexemes ++ rest)) = true :=
    (by decide : ¬ endsType (some '('.toUInt8) = true)
  rw [if_neg hopen]
  refine (hg.prefixed t ht _ _ _ hends h.spaced).seq ?_
  rintro n c mid ⟨h, hn⟩
  refine (node_plants (.cons hn .nil)).seq ?_
  rintro n _ mid ⟨rfl, hn⟩
  exact plants_equals hends h hn

theorem prefixedRule_nonNull (hg : g.Reads depth) {t : TypePhrase} (ht : (parens t.lexemes).length ≤ depth) :
    Plants g.prefixedRule EndsAlternative (.sign '!' :: parens t.lexemes) (.node .typeNonNull [t.tree]) := by
  intro c arena rest hends h
  refine (position_yields h).seq ?_
  rintro start c _ ⟨h, rfl⟩
  refine (accept_none h.spaced (show some '!'.toUInt8 ≠ some '?'.toUInt8 by decide)).seq ?_
  rintro _ c _ ⟨rfl, h, rfl⟩
  refine (accept_yields h.spaced).seq ?_
  rintro _ c _ ⟨rfl, h, rfl⟩
  refine (hg.prefixed t ht _ _ _ hends h).seq ?_
  rintro n c mid ⟨h, hn⟩
  refine (node_plants (.cons hn .nil)).seq ?_
  rintro n _ mid ⟨rfl, hn⟩
  exact plants_equals hends h hn

theorem prefixedRule_function (hg : g.Reads depth) {params : List TypePhrase} {more : List TypeLexeme}
    {ts : List Tree} (hparams : ∀ part ∈ typeOperands params, part.length ≤ depth) (hmore : g.Result more ts) :
    Plants g.prefixedRule EndsAlternative
      (functionWord :: (parens (joined (.sign ',') (typeOperands params)) ++ more))
      (.node .function (.node .params (typeTrees params) :: ts)) :=
  prefixedRule_of_basicRule (hg.basicRule_function hparams hmore) (by decide)

theorem prefixedRule_name (hg : g.Reads depth) (x : TypeName) {types : List TypePhrase}
    (htypes : ∀ part ∈ typeOperands types, part.length ≤ depth) :
    Plants g.prefixedRule EndsAlternative (x.lexeme :: arguments (typeOperands types))
      (.node (.typeName x.text) (typeTrees types)) := by
  refine prefixedRule_of_basicRule (hg.basicRule_name x htypes) fun h => ?_
  obtain ⟨b, hb, hhead⟩ := List.mem_map.1 h
  exact x.head?_ne (List.mem_append_left (ascii "(") hb) hhead.symm

/-! ### Unions -/

theorem unionRule_of_prefixedRule (h : Plants g.prefixedRule EndsAlternative ws t) :
    Plants g.unionRule EndsUnion ws t := by
  intro c arena rest hends hs
  refine (position_yields hs).seq ?_
  rintro start c _ ⟨hs, rfl⟩
  have hs : Spaced (joined (.sign '|') [ws] ++ rest) c.rest := by simpa [joined] using hs.spaced
  refine (separated_yields ⟨rfl, by decide⟩ (.cons h .nil) (by simp) hs hends.toEndsAlternative hends.bar).seq ?_
  rintro ns c mid ⟨hs, hns⟩
  cases hns with
  | cons hn hnil =>
    cases hnil
    exact done ⟨hs, hn⟩

theorem unionRule_union (hg : g.Reads depth) {first second : TypePhrase} {rest : List TypePhrase}
    (h : ∀ part ∈ typeOperands (first :: second :: rest), part.length ≤ depth + 1) :
    Plants g.unionRule EndsUnion (joined (.sign '|') (typeOperands (first :: second :: rest)))
      (.node .typeUnion (typeTrees (first :: second :: rest))) := by
  have hparens (t : TypePhrase) (ht : (parens t.lexemes).length ≤ depth + 1) :
      Plants g.prefixedRule EndsAlternative (parens t.lexemes) t.tree := by
    rw [length_parens] at ht
    exact hg.prefixedRule_parens (by omega)
  have items := operands hparens h
  intro c arena after hends hs
  refine (position_yields hs).seq ?_
  rintro start c _ ⟨hs, rfl⟩
  refine (separated_yields ⟨rfl, by decide⟩ items (by simp [typeOperands]) hs.spaced
    hends.toEndsAlternative hends.bar).seq ?_
  rintro ns c mid ⟨hs, hns⟩
  rw [typeTrees, typeTrees] at hns ⊢
  cases hns with
  | cons hn hns =>
    cases hns with
    | cons hm hns =>
      refine (node_plants (.cons hn (.cons hm hns))).weaken ?_
      rintro n _ after ⟨rfl, hn⟩
      exact ⟨hs, hn⟩

/-! ### All rules -/

theorem length_le_of_joined (mark : TypeLexeme) : ∀ {parts : List (List TypeLexeme)},
    ∀ part ∈ parts, part.length ≤ (joined mark parts).length
  | [], _, h => absurd h (by simp)
  | [p], part, h => by
    cases List.mem_singleton.1 h
    simp [joined]
  | p :: q :: parts, part, h => by
    rw [joined_cons_cons, List.length_append, List.length_cons]
    rcases List.mem_cons.1 h with rfl | h
    · exact Nat.le_add_right _ _
    · have hle := length_le_of_joined mark part h
      omega

theorem unionRule (hg : g.Reads depth) (t : TypePhrase) (h : t.lexemes.length ≤ depth + 1) :
    Plants g.unionRule EndsUnion t.lexemes t.tree := by
  have within {types : List TypePhrase} (hlength : (joined (.sign ',') (typeOperands types)).length ≤ depth) :
      ∀ part ∈ typeOperands types, part.length ≤ depth :=
    fun part hpart => Nat.le_trans (length_le_of_joined _ part hpart) hlength
  cases t with
  | name x types =>
    rw [TypePhrase.lexemes, List.length_cons] at h
    rw [TypePhrase.lexemes, TypePhrase.tree]
    refine unionRule_of_prefixedRule (hg.prefixedRule_name x ?_)
    cases types with
    | nil => simp [typeOperands]
    | cons t types =>
      refine within ?_
      simp only [typeOperands, arguments, List.length_cons, List.length_append] at h ⊢
      omega
  | union first second rest =>
    have hparts : parens first.lexemes :: parens second.lexemes :: typeOperands rest =
        typeOperands (first :: second :: rest) := by simp [typeOperands]
    have htrees : first.tree :: second.tree :: typeTrees rest = typeTrees (first :: second :: rest) := by
      simp [typeTrees]
    rw [TypePhrase.lexemes, hparts] at h
    rw [TypePhrase.lexemes, TypePhrase.tree, hparts, htrees]
    exact hg.unionRule_union fun part hpart => Nat.le_trans (length_le_of_joined _ part hpart) h
  | nullable type =>
    rw [TypePhrase.lexemes, List.length_cons] at h
    rw [TypePhrase.lexemes, TypePhrase.tree]
    exact unionRule_of_prefixedRule (hg.prefixedRule_nullable (Nat.le_of_succ_le_succ h))
  | nonNull type =>
    rw [TypePhrase.lexemes, List.length_cons] at h
    rw [TypePhrase.lexemes, TypePhrase.tree]
    exact unionRule_of_prefixedRule (hg.prefixedRule_nonNull (Nat.le_of_succ_le_succ h))
  | all =>
    rw [TypePhrase.lexemes, TypePhrase.tree]
    exact unionRule_of_prefixedRule prefixedRule_all
  | unknown =>
    rw [TypePhrase.lexemes, TypePhrase.tree]
    exact unionRule_of_prefixedRule prefixedRule_unknown
  | function params =>
    rw [TypePhrase.lexemes, List.length_cons, length_parens] at h
    rw [TypePhrase.lexemes, TypePhrase.tree, ← List.append_nil (parens _)]
    exact unionRule_of_prefixedRule (hg.prefixedRule_function (within (by omega)) .none)
  | functionTo params result =>
    rw [TypePhrase.lexemes, List.length_cons, List.length_append, List.length_cons, length_parens] at h
    rw [TypePhrase.lexemes, TypePhrase.tree]
    exact unionRule_of_prefixedRule (hg.prefixedRule_function (within (by omega))
      (.some (hg.prefixed result (by omega))))

theorem next (hg : g.Reads depth) : g.next.Reads (depth + 1) where
  union := hg.unionRule
  operand t h := by
    rw [length_parens] at h
    exact unionRule_of_prefixedRule (hg.prefixedRule_parens (by omega))
  prefixed t h := by
    rw [length_parens] at h
    exact hg.prefixedRule_parens (by omega)

end Reads

theorem lexemes_ne_nil (t : TypePhrase) : t.lexemes ≠ [] := by
  cases t <;> simp [TypePhrase.lexemes, joined, List.intercalate_cons_cons, parens]

theorem within_reads : ∀ depth : Nat, (within depth).Reads depth
  | 0 => by
    refine ⟨fun t h => ?_, fun t h => ?_, fun t h => ?_⟩
    · exact absurd (List.length_eq_zero_iff.1 (Nat.le_zero.1 h)) (lexemes_ne_nil t)
    · exact absurd h (by simp [parens])
    · exact absurd h (by simp [parens])
  | depth + 1 => (within_reads depth).next

end Grammar

theorem whole_plants {t : TypePhrase} (h : Spaced t.lexemes c.rest) :
    Yields whole c arena fun n _ after => Planted arena t.tree n after := by
  refine (turns_yields c arena).seqSame ?_
  have hlength : t.lexemes.length ≤ c.rest.length + 1 := Nat.le_succ_of_le h.length_le
  rw [← List.append_nil t.lexemes] at h
  refine ((Grammar.within_reads _).union t hlength c arena [] endsUnion_none h).seq ?_
  rintro n c' mid ⟨h, hn⟩
  refine (peek_yields h).seq ?_
  rintro _ c' _ ⟨rfl, -, rfl⟩
  exact done hn

end TypeReader

end ScriptIndex
