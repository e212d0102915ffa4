import ScriptIndex.Proofs.CommentLines
import ScriptIndex.Proofs.TypePhraseRuns

/-! # Printed types read back

No lexeme of a type holds a brace, so the brace that ends the text of a tag is the one that closes it. A comment
with one such tag gives the tag, and the tree that the type stands for (`Build.doc_tagged`). -/

namespace ScriptIndex

namespace Mention

/-- A text without braces ends at the first brace that closes. -/
theorem closing?_of_plain (rest : List UInt8) : ∀ {text : List UInt8},
    (∀ b ∈ text, b ≠ openBrace ∧ b ≠ closeBrace) → closing? 0 (text ++ closeBrace :: rest) = some text.length
  | [], _ => by
    rw [List.nil_append, closing?_cons, if_pos (beq_self_eq_true _)]
    rfl
  | b :: text, h => by
    obtain ⟨⟨hopen, hclose⟩, htext⟩ := List.forall_mem_cons.1 h
    rw [List.cons_append, closing?_cons, if_neg (mt beq_iff_eq.1 hclose), if_neg (mt beq_iff_eq.1 hopen),
      closing?_of_plain rest htext]
    rfl

/-- The name of a tag goes up to the space after it. -/
theorem head_of_letters {name : List UInt8} (h : ∀ b ∈ name, Byte.isLetter b = true) (rest : List UInt8) :
    (head (name ++ ascii " \x7b" ++ rest)).name = name ∧
      (head (name ++ ascii " \x7b" ++ rest)).length = name.length + 2 := by
  have hname : (name ++ ascii " \x7b" ++ rest).takeWhile Byte.isLetter = name := by
    rw [List.append_assoc, List.takeWhile_append_of_pos h]
    exact List.append_nil _
  have hspaces : ((name ++ ascii " \x7b" ++ rest).drop name.length).takeWhile (ascii " \t").contains = ascii " " := by
    rw [List.append_assoc, List.drop_left]
    rfl
  simp only [head, hname, hspaces, true_and, show (ascii " ").length = 1 from rfl]
  omega

theorem scan_end {before : Option UInt8} {c : Cursor} (h : c.rest = []) : scan before c = ([], none) := by
  rw [scan.eq_def]
  split
  · rfl
  · next hcons => cases hcons.symm.trans h

section
variable (name : String) (text : List UInt8)

theorem tagged_eq : tagged name text = '@'.toUInt8 :: (ascii name ++ ascii " \x7b" ++ (text ++ ascii "\x7d")) := by
  simp [tagged, ascii]

theorem length_ascii : (ascii name).length = name.length := (List.length_map _).trans String.length_toList

/-- The brace that opens the type, and what comes after it. -/
theorem drop_tagged : (tagged name text).drop (name.length + 2) = openBrace :: (text ++ ascii "\x7d") := by
  have hsplit : tagged name text =
      ('@'.toUInt8 :: (ascii name ++ ascii " ")) ++ openBrace :: (text ++ ascii "\x7d") := by
    rw [tagged_eq]
    simp [ascii]
    rfl
  have hprefix : ('@'.toUInt8 :: (ascii name ++ ascii " ")).length = name.length + 2 := by
    rw [List.length_cons, List.length_append, length_ascii]
    rfl
  rw [hsplit, ← hprefix, List.drop_left]

end

theorem scan_tagged {name : String} (hletters : name.toList.all Char.isAlpha = true) {text : List UInt8}
    (h : ∀ b ∈ text, b ≠ openBrace ∧ b ≠ closeBrace) (start : Nat) :
    scan none ⟨start, tagged name text⟩ = ([⟨name, some ⟨start + name.length + 3, text⟩⟩], none) := by
  have hbytes : ∀ b ∈ ascii name, Byte.isLetter b = true := by
    intro b hb
    obtain ⟨c, hc, rfl⟩ := List.mem_map.1 hb
    exact isLetter_of_isAlpha (List.all_eq_true.1 hletters c hc)
  have hdecode : Utf8.decode (ascii name) = name := Utf8.decode_ascii <| List.all_eq_true.2 fun c hc =>
    isDottedChar_of_name (isNameChar_of_isAlpha (List.all_eq_true.1 hletters c hc))
  obtain ⟨hname, hhead⟩ := head_of_letters hbytes (text ++ ascii "\x7d")
  have hnext : Cursor.advance ⟨start, tagged name text⟩ (name.length + 2) =
      ⟨start + (name.length + 2), openBrace :: (text ++ ascii "\x7d")⟩ := congrArg (Cursor.mk _) (drop_tagged name text)
  have hclosing : closing? 0 (text ++ ascii "\x7d") = some text.length := closing?_of_plain [] h
  have hend : (Cursor.advance ⟨start, tagged name text⟩ (name.length + 2 + text.length + 2)).rest = [] := by
    have hrest : (openBrace :: (text ++ ascii "\x7d")).length = text.length + 2 := by simp [ascii]
    show (tagged name text).drop (name.length + 2 + text.length + 2) = []
    rw [Nat.add_assoc, ← List.drop_drop, drop_tagged, ← hrest, List.drop_length]
  have hopen : ((⟨start + (name.length + 2), openBrace :: (text ++ ascii "\x7d")⟩ : Cursor).rest.head? ==
      some openBrace) = true := beq_self_eq_true _
  rw [scan_cons (tagged_eq name text), if_pos (by decide)]
  dsimp only
  rw [hname, hhead, length_ascii, hdecode, hnext, if_pos hopen,
    show (Cursor.advance ⟨start + (name.length + 2), openBrace :: (text ++ ascii "\x7d")⟩ 1).rest =
      text ++ ascii "\x7d" from rfl, hclosing]
  dsimp only
  rw [scan_end hend, List.take_left]
  rfl

end Mention

namespace Build

/-- A comment that holds a tag with a printed type gives the tag and the tree of the type, whose nodes are new. -/
theorem doc_tagged {name : String} (hne : name ≠ "") (hletters : name.toList.all Char.isAlpha = true)
    (type : TypePhrase) {text : List UInt8} (h : Spaced type.lexemes text) (start : Nat) (arena : Arena) :
    ∃ n after, doc ⟨start, tagged name text⟩ arena = .ok ⟨[⟨name, some n⟩]⟩ after ∧
      after.Holds type.tree none n ∧ Grown arena type.tree.size after := by
  obtain ⟨n, c, after, hrun, hplanted⟩ := @TypeReader.whole_plants ⟨start + name.length + 3, text⟩ arena type h
  have htype : typeExpression ⟨start + name.length + 3, text⟩ arena = .ok n after := by
    rw [typeExpression, StateT.run', map_eq_pure_bind, run_bind_ok hrun]
    rfl
  refine ⟨n, after, ?_, hplanted.holds_none, hplanted.grown.1⟩
  have htag : tag ⟨name, some ⟨start + name.length + 3, text⟩⟩ arena = .ok ⟨name, some n⟩ after :=
    (run_bind_ok htype).trans rfl
  rw [doc, Mention.scan_tagged hletters h.plain]
  simp only [List.mapM_cons, List.mapM_nil, bind_assoc, pure_bind]
  rw [run_bind_ok htag]
  simp [hne]
  rfl

theorem doc_tagged_nested :
    let type := TypePhrase.functionTo [.name ⟨["goog", "Map"], by decide, by decide, by decide⟩ [.unknown]]
      (.nullable .all)
    ∃ n after, doc ⟨0, tagged "type" (ascii "function( (goog.Map <(?) >)):\t( ?(*))")⟩ .empty =
        .ok ⟨[⟨"type", some n⟩]⟩ after ∧ after.Holds type.tree none n ∧ Grown .empty type.tree.size after := by
  intro type
  have hspaced : Spaced type.lexemes (ascii "function( (goog.Map <(?) >)):\t( ?(*))") :=
    .lexeme _ (.lexeme _ (.blank rfl (.lexeme _ (.lexeme _ (.blank rfl (.lexeme _ (.lexeme _ (.lexeme _ (.lexeme _
      (.blank rfl (.lexeme _ (.lexeme _ (.lexeme _ (.lexeme _ (.blank rfl (.lexeme _ (.blank rfl (.lexeme _ (.lexeme _
        (.lexeme _ (.lexeme _ (.lexeme _ .nil))))))))))))))))))))))
  exact doc_tagged (by decide) (by decide) type hspaced 0 .empty

end Build

end ScriptIndex
