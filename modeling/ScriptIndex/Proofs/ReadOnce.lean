import ScriptIndex.Proofs.ScriptConcat

/-! # Items are asked for once

A parser that keeps the token it looked at asks its lexer for each item of a source once, the end of the text or
the first error included, and for nothing after that. Here the items are handed out once (`Stream.ofItems`), and
whoever asks for more gets an error, whichever it is: scripts are read just the same (`script_once`). A rule
that succeeds leaves the end of the text to be read (`ScriptReader.TakesOnce`). -/

namespace ScriptIndex

/-! ### Supplies of items -/

namespace Cursor
variable {c c' : Cursor} {stops : Nat}

theorem items_of_error {e : SyntaxError} (h : c.next = .error e c') :
    c.items (stops + 1) = .error e :: c'.items stops := by
  rw [items.eq_def]
  dsimp only
  split
  · next h' =>
    cases h.symm.trans h'
    rfl
  · next h' => cases h.symm.trans h'

theorem items_of_ok {t : Token} (h : c.next = .ok t c') :
    c.items (stops + 1) = .ok t :: if t.kind = .eof then c'.items stops else c'.items (stops + 1) := by
  rw [items.eq_def]
  dsimp only
  split
  · next h' => cases h.symm.trans h'
  · next h' =>
    cases h.symm.trans h'
    rfl

end Cursor

namespace Stream

/-- A supply of items, each to be handed out once. After the last of them there is only the error `beyond`. -/
def ofItems (beyond : SyntaxError) : List (Except SyntaxError Token) → Stream
  | [] => ⟨[], .error beyond⟩
  | .error e :: _ => ⟨[], .error e⟩
  | .ok t :: items => ⟨t :: (ofItems beyond items).tokens, (ofItems beyond items).last⟩

/-- The stream as a supply: the end of the text is one of the items. -/
def once (beyond : SyntaxError) (stream : Stream) : Stream :=
  match stream.last with
  | .ok t => ⟨stream.tokens ++ [t], .error beyond⟩
  | .error _ => stream

variable {beyond : SyntaxError}

theorem once_of_ok {stream : Stream} {t : Token} (h : stream.last = .ok t) :
    stream.once beyond = ⟨stream.tokens ++ [t], .error beyond⟩ := by
  rw [once, h]

theorem once_of_error {stream : Stream} {e : SyntaxError} (h : stream.last = .error e) :
    stream.once beyond = stream := by
  rw [once, h]

theorem once_cons (t : Token) (stream : Stream) :
    (⟨t :: stream.tokens, stream.last⟩ : Stream).once beyond =
      ⟨t :: (stream.once beyond).tokens, (stream.once beyond).last⟩ := by
  cases h : stream.last with
  | ok u => rw [once_of_ok (t := u) rfl, once_of_ok h]; rfl
  | error e => rw [once_of_error (e := e) rfl, once_of_error h, h]

/-- The items of a source up to the first stop are its tokens and what comes after them. -/
theorem ofItems_items (c : Cursor) : ofItems beyond (c.items 1) = c.stream.once beyond := by
  fun_induction Cursor.stream c with
  | case1 c e c' hnext =>
    rw [Cursor.items_of_error hnext]
    rfl
  | case2 c t c' hnext heof =>
    rw [Cursor.items_of_ok hnext, if_pos heof, Cursor.items]
    rfl
  | case3 c t c' hnext hne s ih => rw [Cursor.items_of_ok hnext, if_neg hne, ofItems, ih, once_cons]

theorem shown_once (options : Options) (stream : Stream) :
    options.shown (stream.once beyond) = (options.shown stream).once beyond := by
  rw [Options.shown_eq, Options.shown_eq]
  obtain ⟨tokens, last⟩ := stream
  cases last with
  | ok t =>
    rw [once_of_ok (t := t) rfl, once_of_ok (t := options.shownToken t) rfl, List.map_append]
    rfl
  | error e =>
    rw [once_of_error (e := e) rfl, once_of_error (e := e) rfl]

end Stream

namespace Input

/-- The same place of the supply. -/
def once (beyond : SyntaxError) (s : Input) : Input := { s with stream := s.stream.once beyond }

variable {beyond : SyntaxError} {s : Input} {t : Token}

theorem head_once (s : Input) : (s.once beyond).head = s.head := by
  obtain ⟨⟨tokens, last⟩, lastEnd⟩ := s
  cases last with
  | error => rfl
  | ok => cases tokens <;> rfl

theorem read_once (hs : s.stream.Legible) (ht : s.head = .ok t) (hk : t.kind ≠ .eof) :
    (s.once beyond).read t = (s.read t).once beyond := by
  obtain ⟨⟨tokens, last⟩, lastEnd⟩ := s
  cases last with
  | error => rfl
  | ok u =>
    cases tokens with
    | nil => exact absurd (hs.last t ht) hk
    | cons => rfl

theorem length_le_once (s : Input) : s.stream.tokens.length ≤ (s.once beyond).stream.tokens.length := by
  obtain ⟨⟨tokens, last⟩, lastEnd⟩ := s
  cases last with
  | error => exact Nat.le_refl _
  | ok => exact (List.sublist_append_left _ _).length_le

end Input

/-! ### Runs on a supply -/

/-- The same run on a supply. It has turns to spare where the end of the text is counted. -/
def onSupply (beyond : SyntaxError) : Comparison :=
  let inputs (s s' : Input) : Prop := s.stream.Legible ∧ s' = s.once beyond
  (Relocation.after .empty).comparison inputs inputs (· = .exhausted)

variable {beyond : SyntaxError}

theorem onSupply_steps : (onSupply beyond).Steps where
  span_from {s s' t t'} hs ht := by
    obtain ⟨-, rfl⟩ := hs
    have hspan : t'.span = t.span := ht.span.eq
    show (Relocation.after .empty).Spans _ _
    rw [hspan]
    exact ⟨rfl, rfl⟩
  after hs := hs
  head {s s'} hs := by
    obtain ⟨-, rfl⟩ := hs
    rw [s.head_once]
    cases s.head with
    | ok t => exact .ok (.refl t)
    | error e => exact .error (.rejected ⟨rfl, ⟨rfl, rfl⟩, rfl⟩)
  read_after {s s' t t'} hs ht ht' hk := by
    obtain ⟨hlegible, rfl⟩ := hs
    rw [s.head_once, ht] at ht'
    cases ht'
    exact ⟨Input.legible_read hlegible t, Input.read_once hlegible ht (by rw [hk]; decide)⟩
  read {s s' t t'} hs ht ht' hk := by
    obtain ⟨hlegible, rfl⟩ := hs
    rw [s.head_once, ht] at ht'
    cases ht'
    exact ⟨Input.legible_read hlegible t, Input.read_once hlegible ht hk.2⟩
  turns {s s'} hs := by
    obtain ⟨-, rfl⟩ := hs
    exact .inr ⟨s.length_le_once, rfl⟩
  ended hs := .inl hs

namespace ScriptReader
open Reader

variable {E : SyntaxError → Prop} {s : Input} {x : ScriptReader NodeId} {Q : NodeId → Input → Prop}

/-- What goes alike on a supply does the same there, and leaves what is left of the supply. -/
theorem Alike.once (h : Alike (onSupply beyond) (onSupply beyond).After x x) (hs : s.stream.Legible)
    (hfinishes : Finishes E x s Q) : x (s.once beyond) = (fun r => (r.1, r.2.once beyond)) <$> x s := by
  funext arena
  have harenas : (Relocation.after .empty).Arenas arena arena := by
    have harenas := Relocation.Arenas.followedBy .empty arena
    rwa [Arena.empty_followedBy] at harenas
  have houtcomes := h arena.size s (s.once beyond) ⟨hs, rfl⟩ arena arena ⟨harenas, rfl⟩
  have hfinishes := hfinishes arena
  show x (s.once beyond) arena = EStateM.map (fun r => (r.1, r.2.once beyond)) (x s) arena
  unfold EStateM.map
  generalize x s arena = r at houtcomes hfinishes
  generalize x (s.once beyond) arena = r' at houtcomes
  cases houtcomes with
  | @ok size' r r' left right _ harenas hresults =>
    obtain ⟨n, s₁⟩ := r
    obtain ⟨n', s₁'⟩ := r'
    obtain ⟨hn, -, hs₁⟩ := hresults
    have hright : right = left := harenas.1.eq.trans left.empty_followedBy
    have hnode : n' = n := hn.eq.trans (Nat.zero_add n)
    dsimp only at hs₁
    rw [hright, hnode, hs₁]
  | @error size' e e' left right harenas hfails =>
    have hright : right = left := harenas.1.eq.trans left.empty_followedBy
    rw [hright, hfails.eq]
  -- the run is not cut short
  | lostLeft hlost =>
    cases hlost
    cases hfinishes
  | lostRight hlost => exact hlost.elim

/-- On a supply the action does the same from less than `n` tokens, and the end of the text stays in the supply. -/
def TakesOnce (stream : Stream) (n : Nat) (x : ScriptReader NodeId) : Prop :=
  ∀ beyond s, (gauge stream).Within n s → x (s.once beyond) = (fun r => (r.1, r.2.once beyond)) <$> x s

theorem within_takesOnce (stream : Stream) (depth : Nat) :
    TakesOnce stream depth (Grammar.within depth).statement ∧
      TakesOnce stream depth (Grammar.within depth).assignment := by
  have hahead := Grammar.within_ahead stream depth
  have hfollows (beyond : SyntaxError) : (Grammar.within depth).Follows (onSupply beyond) (Grammar.within depth) :=
    Grammar.within_follows (Relocation.sound onSupply_steps) (.inl rfl)
  exact ⟨fun beyond s hs => (hfollows beyond).statement.once hs.proper.rest_legible (hahead.statement s hs),
    fun beyond s hs => (hfollows beyond).assignment.once hs.proper.rest_legible (hahead.assignment s hs)⟩

end ScriptReader

namespace Build
open ScriptReader

/-- A script is read from its items as they are handed out, whatever comes after the last of them. -/
theorem script_once (beyond : SyntaxError) (source : List UInt8) (options : Options) :
    (ScriptReader.script options.module).run'
        (.ofStream (options.shown (.ofItems beyond ((Cursor.ofBytes source).items 1)))) =
      script source options := by
  have hlegible := options.stream_legible source
  have halike : Alike (onSupply beyond) (onSupply beyond).After (ScriptReader.script options.module)
      (ScriptReader.script options.module) :=
    script_follows (Relocation.sound onSupply_steps) (fun _ _ h => h) (fun _ _ ht => ⟨rfl, ht.span.stop⟩)
      options.module
  have hrun := halike.once (s := .ofStream (options.stream source)) hlegible
    (ScriptReader.script_finishes hlegible options.module)
  have hstream : Input.ofStream (options.shown (.ofItems beyond ((Cursor.ofBytes source).items 1))) =
      (Input.ofStream (options.stream source)).once beyond := by
    rw [Stream.ofItems_items, Stream.shown_once]
    rfl
  show Prod.fst <$> ScriptReader.script options.module _ = Prod.fst <$> ScriptReader.script options.module _
  rw [hstream, hrun, ← comp_map]
  rfl

end Build

end ScriptIndex
