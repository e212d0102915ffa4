import ScriptIndex.Proofs.ScriptConcat
import ScriptIndex.Proofs.TypeProgress

/-! # Comments line by line

A newline ends the name of a tag and the blanks after it, and a word may start after it. So a text whose braces
are all closed does not reach into the line after it, and that line is read as if nothing came before
(`Build.doc_append`). The second part of such a comment then leaves what it leaves alone, elsewhere
(`Build.doc_composes`). -/

namespace ScriptIndex

theorem Cursor.rest_extend (c : Cursor) (tail : List UInt8) : (c.extend tail).rest = c.rest ++ tail := rfl

theorem Cursor.rest_extend_cons {c : Cursor} {b : UInt8} {bytes : List UInt8} (h : c.rest = b :: bytes)
    (tail : List UInt8) : (c.extend tail).rest = b :: (bytes ++ tail) :=
  congrArg (· ++ tail) h

theorem takeWhile_append_of_stop {p : UInt8 → Bool} {b : UInt8} (h : p b = false) (bytes rest : List UInt8) :
    (bytes ++ b :: rest).takeWhile p = bytes.takeWhile p := by
  rw [List.takeWhile_append, List.takeWhile_cons_of_neg (by simp [h]), List.append_nil]
  split
  · next hlen => exact ((List.takeWhile_prefix p).eq_of_length hlen).symm
  · rfl

namespace Mention

theorem closing?_cons (depth : Nat) (b : UInt8) (rest : List UInt8) :
    closing? depth (b :: rest) =
      if b == closeBrace then
        match depth with
        | 0 => some 0
        | depth + 1 => (closing? depth rest).map (· + 1)
      else (closing? (if b == openBrace then depth + 1 else depth) rest).map (· + 1) :=
  closing?.eq_def depth (b :: rest)

/-- A brace that is closed in a text is closed by the same byte if the text goes on. -/
theorem closing?_append {depth n : Nat} {bytes : List UInt8} (h : closing? depth bytes = some n)
    (tail : List UInt8) : closing? depth (bytes ++ tail) = some n := by
  fun_induction closing? depth bytes generalizing n with
  | case1 => cases h
  | case2 b rest hclose => rw [List.cons_append, closing?_cons, if_pos hclose, ← h]
  | case3 b rest hclose depth ih =>
    obtain ⟨k, hk, rfl⟩ := Option.map_eq_some_iff.1 h
    rw [List.cons_append, closing?_cons, if_pos hclose]
    exact congrArg (Option.map (· + 1)) (ih hk)
  | case4 depth b rest hclose ih =>
    obtain ⟨k, hk, rfl⟩ := Option.map_eq_some_iff.1 h
    rw [List.cons_append, closing?_cons, if_neg hclose, ih hk]
    rfl

/-- The name of a tag and the blanks after it stay in the line. -/
theorem head_append_newline (bytes rest : List UInt8) : head (bytes ++ Byte.newline :: rest) = head bytes := by
  have hname : (bytes ++ Byte.newline :: rest).takeWhile Byte.isLetter = bytes.takeWhile Byte.isLetter :=
    takeWhile_append_of_stop (by decide) bytes rest
  have hle := (List.takeWhile_prefix Byte.isLetter (l := bytes)).length_le
  have hspaces : (bytes.drop (bytes.takeWhile Byte.isLetter).length ++ Byte.newline :: rest).takeWhile
      (ascii " \t").contains = (bytes.drop (bytes.takeWhile Byte.isLetter).length).takeWhile (ascii " \t").contains :=
    takeWhile_append_of_stop (by decide) _ rest
  simp only [head, hname, List.drop_append_of_le_length hle, hspaces]

/-- A byte at which a word may start is as good as the start of the text. -/
theorem scan_after_startsWord {before : UInt8} (h : startsWord before) (c : Cursor) :
    scan (some before) c = scan none c := by
  obtain ⟨pos, rest⟩ := c
  cases rest with
  | nil => rw [scan, scan]
  | cons b rest =>
    have hcons (before : Option UInt8) := @scan_cons before ⟨pos, b :: rest⟩ b rest rfl
    rw [hcons, hcons, Option.all_some, Option.all_none, h]

theorem head?_append_newline (bytes rest : List UInt8) :
    ((bytes ++ Byte.newline :: rest).head? == some openBrace) = (bytes.head? == some openBrace) := by
  cases bytes <;> rfl

/-- If no brace is left open in a text, the tags of the line after it come after those of the text. -/
theorem scan_append_newline (before : Option UInt8) (c : Cursor) (rest : List UInt8) (h : (scan before c).2 = none) :
    scan before (c.extend (Byte.newline :: rest)) =
      ((scan before c).1 ++ (scan none ⟨c.pos + c.rest.length + 1, rest⟩).1,
        (scan none ⟨c.pos + c.rest.length + 1, rest⟩).2) := by
  -- the end of the text stays where it is while the text is scanned
  have stop {c : Cursor} {n : Nat} (hn : n ≤ c.rest.length) := ((Cursor.Reaches.refl c).advance hn).stop
  fun_induction scan before c with
  | case1 before c hnil =>
    have hline : (c.extend (Byte.newline :: rest)).rest = Byte.newline :: rest := congrArg (· ++ _) hnil
    rw [scan_cons hline, if_neg (by simp +decide), scan_after_startsWord (by decide), hnil]
    simp only [Cursor.advance, Cursor.extend, hnil, List.nil_append, List.length_nil, List.drop_one, List.tail_cons,
      Nat.add_zero]
  | case2 => cases h
  | case3 before c b bytes hc hat head name next hopen inside length hclosing mentions unclosed hscan ih =>
    have hlength : head.length ≤ c.rest.length := hc ▸ head_length_le b bytes
    obtain ⟨tail, htail⟩ := List.head?_eq_some_iff.1 (beq_iff_eq.1 hopen)
    have hone : 1 ≤ next.rest.length := htail ▸ Nat.succ_pos _
    have hn : head.length + length + 2 ≤ c.rest.length := closing?_advance_lt hclosing
    rw [hscan, stop hn] at ih
    rw [scan_cons (Cursor.rest_extend_cons hc _), if_pos hat, head_append_newline]
    dsimp only
    rw [Cursor.extend_advance _ hlength, Cursor.rest_extend, head?_append_newline, if_pos hopen,
      Cursor.extend_advance _ hone, Cursor.rest_extend, closing?_append hclosing]
    dsimp only
    rw [Cursor.extend_advance _ hn, ih h, List.take_append_of_le_length (Nat.le_of_lt (closing?_lt hclosing))]
    rfl
  | case4 before c b bytes hc hat head name next hopen mentions unclosed hscan ih =>
    have hlength : head.length ≤ c.rest.length := hc ▸ head_length_le b bytes
    rw [hscan, stop hlength] at ih
    rw [scan_cons (Cursor.rest_extend_cons hc _), if_pos hat, head_append_newline]
    dsimp only
    rw [Cursor.extend_advance _ hlength, Cursor.rest_extend, head?_append_newline, if_neg hopen, ih h]
    rfl
  | case5 before c b bytes hc hat ih =>
    have hone : 1 ≤ c.rest.length := hc ▸ Nat.succ_pos _
    rw [stop hone] at ih
    rw [scan_cons (Cursor.rest_extend_cons hc _), if_neg hat, Cursor.extend_advance _ hone]
    exact ih h

end Mention

/-- The nodes, with their positions moved up. -/
def Arena.moved (offset : Nat) (arena : Arena) : Arena :=
  ⟨arena.nodes.map (·.moved offset)⟩

namespace Relocation

theorem Arenas.eq_moved {base left right : Arena} {offset : Nat} (h : (shifted base offset).Arenas left right) :
    right = base.followedBy (left.moved offset) := by
  have hnode (n : NodeId) : right.node? n = (base.followedBy (left.moved offset)).node? n := by
    rcases Nat.lt_or_ge n base.size with hn | hn
    · exact (h.old n hn).trans (Arena.node?_followedBy_old _ hn).symm
    · obtain ⟨k, rfl⟩ := Nat.exists_eq_add_of_le hn
      have hmoved : (left.moved offset).node? k = (left.node? k).map (·.moved offset) := Array.getElem?_map ..
      rw [Arena.node?_followedBy_new, hmoved, Option.map_map]
      cases hk : left.node? k with
      | some x =>
        obtain ⟨y, hy, hxy⟩ := h.new k x hk
        refine hy.trans ?_
        rw [hxy.moved]
        rfl
      | none =>
        have hle : left.size ≤ k := Arena.le_of_node?_eq_none hk
        exact Arena.node?_eq_none (by rw [h.size]; exact Nat.add_le_add_left hle _)
  obtain ⟨nodes⟩ := right
  exact congrArg Arena.mk (Array.ext_getElem? hnode)

theorem Errors.eq_moved {base : Arena} {offset : Nat} {e e' : SyntaxError} (h : (shifted base offset).Errors e e') :
    e' = { e with span := e.span.moved offset } := by
  obtain ⟨cause, ⟨start, stop⟩, token⟩ := e'
  obtain ⟨rfl, ⟨hstart, hstop⟩, rfl⟩ := h
  cases hstart
  cases hstop
  rfl

end Relocation

namespace Build
open Relocation

/-- A text whose braces are all closed and the line after it are read one after the other. -/
theorem doc_append {start : Nat} {first : List UInt8} (h : (Mention.scan none ⟨start, first⟩).2 = none)
    (second : List UInt8) :
    doc ⟨start, first ++ Byte.newline :: second⟩ = do
      let doc₁ ← doc ⟨start, first⟩
      let doc₂ ← doc ⟨start + first.length + 1, second⟩
      return ⟨doc₁.tags ++ doc₂.tags⟩ := by
  have hscan := Mention.scan_append_newline none ⟨start, first⟩ second h
  simp only [Cursor.extend] at hscan
  simp only [doc, hscan, h, List.mapM_append, bind_assoc, pure_bind]
  refine bind_congr fun tags => bind_congr fun tags' => ?_
  cases (Mention.scan none ⟨start + first.length + 1, second⟩).2 with
  | none => simp
  | some span => rfl

/-- The braces of a text that is accepted are all closed. -/
theorem closed_of_doc {text : Cursor} {arena left : Arena} {d : Doc} (h : doc text arena = .ok d left) :
    (Mention.scan none text).2 = none := by
  obtain ⟨tags, mid, -, hrest⟩ := bind_eq_ok h
  cases hclosed : (Mention.scan none text).2 with
  | none => rfl
  | some span =>
    rw [hclosed] at hrest
    cases hrest

/-- What reading a comment of two parts comes to, by what reading the second part alone comes to. The first
part gave `d` and the arena `left`, and the second begins at `offset`. -/
inductive Composes (d : Doc) (left : Arena) (offset : Nat) :
    EStateM.Result Failure Arena Doc → EStateM.Result Failure Arena Doc → Prop
  | ok (d' : Doc) (fresh : Arena) :
      Composes d left offset (.ok d' fresh)
        (.ok ⟨d.tags ++ (d'.renamed (left.size + ·)).tags⟩ (left.followedBy (fresh.moved offset)))
  | error (e : SyntaxError) (fresh : Arena) :
      Composes d left offset (.error (.rejected e) fresh)
        (.error (.rejected { e with span := e.span.moved offset }) (left.followedBy (fresh.moved offset)))

/-- After a text that is accepted, the line after it is read as it is read alone. -/
theorem doc_composes {start : Nat} {first : List UInt8} {arena left : Arena} {d : Doc}
    (h : doc ⟨start, first⟩ arena = .ok d left) (second : List UInt8) :
    Composes d left (start + first.length + 1) (doc ⟨0, second⟩ .empty)
      (doc ⟨start, first ++ Byte.newline :: second⟩ arena) := by
  rw [doc_append (closed_of_doc h), run_bind_ok h]
  have hcursors : (shifted left (start + first.length + 1)).Cursors ⟨0, second⟩
      ⟨start + first.length + 1, second⟩ := ⟨(Nat.zero_add _).symm, rfl⟩
  have harenas : (shifted left (start + first.length + 1)).Arenas .empty left := ⟨rfl, fun _ _ => rfl, nofun⟩
  have hdoc : Relocates _ 0 (doc ⟨0, second⟩) (doc ⟨start + first.length + 1, second⟩) _ := doc_relocates hcursors
  have hruns := hdoc .empty left harenas (Nat.zero_le _)
  have hfinishes := doc_finishes ⟨0, second⟩ .empty
  generalize doc ⟨0, second⟩ .empty = r at hruns hfinishes
  generalize hr' : doc ⟨start + first.length + 1, second⟩ left = r' at hruns
  cases hruns with
  | ok harenas' _ hd =>
    rw [run_bind_ok hr', harenas'.eq_moved, hd]
    exact .ok _ _
  | error harenas' hfail =>
    rw [run_bind_error hr', harenas'.eq_moved]
    cases hfail with
    | rejected he =>
      rw [he.eq_moved]
      exact .error _ _
    | exhausted => cases hfinishes

theorem doc_composes_params :
    let first := ascii "@param \x7b!a\x7d x, or @"
    let second := ascii "@return \x7ba|b\x7d"
    ∃ d left, doc ⟨0, first⟩ .empty = .ok d left ∧
      Composes d left 20 (doc ⟨0, second⟩ .empty) (doc ⟨0, first ++ Byte.newline :: second⟩ .empty) := by
  intro first second
  have hfirst : (doc ⟨0, first⟩).run' .empty = some ⟨[⟨"param", some 1⟩]⟩ := by decide +kernel
  obtain ⟨left, h⟩ := run'_eq_some hfirst
  exact ⟨_, left, h, doc_composes h second⟩

end Build

end ScriptIndex
