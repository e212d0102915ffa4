import ScriptIndex.Proofs.Continued

/-! # The grammar before a closing parenthesis

Each rule makes of the tokens of a text the same before a closing parenthesis. A statement alone needs a token that
is left: `return` takes a value where the text goes on with a parenthesis. -/

namespace ScriptIndex.ScriptReader
open Continues

/-- The rule takes a token of the text and plants a tree, and it does the same before more tokens. -/
abbrev Replants (more : Stream) (x y : ScriptReader NodeId) : Prop :=
  ∀ arena, Continues more 1 0 x y arena (Sprouts arena)

variable {more : Stream} {arena base : Arena} (hmore : more.Closes)
include hmore

theorem atom_replants : Replants more atom atom := by
  have hkind (t : Token) : (∃ kind, atomKind t = pure kind ∧ t.kind ≠ .eof) ∨ ∀ s, (atomKind t s).Fails := by
    generalize hx : atomKind t = x
    unfold atomKind at hx
    split at hx
    case h_2 hk =>
      split at hx <;> subst hx
      · exact .inl ⟨_, rfl, by rw [hk]; decide⟩
      · exact .inr fun _ arena => ⟨_, arena, rfl⟩
    case h_8 => exact .inr (hx ▸ refuse_fails t _)
    all_goals next hk => exact .inl ⟨_, hx.symm, by rw [hk]; decide⟩
  intro arena s a s' after hs hrun
  have hfails {t : Token} (h : ∀ s, (atomKind t s).Fails) (ht : s.head = .ok t) : False := by
    rw [atom, peek_bind_of_head ht] at hrun
    obtain ⟨e, after', herror⟩ := bind_fails h _ s arena
    cases hrun.symm.trans herror
  cases hs.meets hmore with
  | token t head head' _ read left =>
    rcases hkind t with ⟨kind, hpure, -⟩ | hfail
    · have hatom {s : Input} (ht : s.head = .ok t) : atom s = leaf kind t (s.read t) := by
        rw [atom, peek_bind_of_head ht, hpure, pure_bind, consume_bind_of_head ht]
      rw [hatom head] at hrun
      have hleaf : Continues more 0 0 (leaf kind t) (leaf kind t) arena (Sprouts arena) := leaf_continues
      obtain ⟨hc, ha⟩ := hleaf _ a s' after (hs.read t) hrun
      have hleft := hc.left
      refine ⟨⟨hc.bare, by omega, fun hle => ?_⟩, ha⟩
      rw [hatom head', read]
      exact hc.runs hle
    · exact (hfails hfail head).elim
  | ended t u head _ _ heof =>
    rcases hkind t with ⟨kind, -, hne⟩ | hfail
    · exact absurd heof hne
    · exact (hfails hfail head).elim

theorem name_replants : Replants more name name :=
  fun _ => seqRequire hmore (by decide) fun _ => leaf_continues

omit hmore

theorem refuse_continues {α : Type} {taken needs : Nat} {y : ScriptReader α} {Q : α → Arena → Prop} (t : Token)
    (cause : Cause) : Continues more taken needs (refuse t cause) y arena Q :=
  .fails (refuse_fails t cause)

theorem keyText_continues (t : Token) :
    Continues more 0 0 (keyText t) (keyText t) arena fun _ after => after = arena := by
  unfold keyText
  exact branch (fun _ => .done rfl) fun _ => branch (fun _ => .done rfl) fun _ => refuse_continues t _

theorem checkTarget_continues (sign : Token) (n : NodeId) :
    Continues more 0 0 (checkTarget sign n) (checkTarget sign n) arena fun _ after => after = arena := by
  refine .seqArena ?_
  split
  · next kind _ =>
    have checked (target : Bool) : Continues more 0 0
        (if target then pure () else liftM (Build.reject .invalidAssignmentTarget sign.span (some sign.kind)))
        (if target then pure () else liftM (Build.reject .invalidAssignmentTarget sign.span (some sign.kind))) arena
        fun _ after => after = arena :=
      branch (fun _ => .done rfl) fun _ => .rejects
    exact checked kind.isTarget
  · exact .fails fun _ arena => ⟨_, arena, rfl⟩

namespace Grammar

/-- The rules of both grammars do the same. -/
structure Continues (more : Stream) (g g' : Grammar) : Prop where
  statement (arena : Arena) : ScriptReader.Continues more 0 1 g.statement g'.statement arena (Sprouts arena)
  assignment : Replants more g.assignment g'.assignment
  binary (least : Nat) : Replants more (g.binary least) (g'.binary least)
  unary : Replants more g.unary g'.unary

variable {g g' : Grammar}
include hmore

theorem functionName_continues (start : Token) :
    ScriptReader.Continues more 0 0 (functionName start) (functionName start) arena (Sprouts arena) :=
  seqAccept hmore (by decide) (fun _ => leaf_continues) (.lift fun _ _ => SproutsAll.nil.node) (.inl (by decide))

namespace Continues

theorem block (hg : g.Continues more g') : Replants more g.block g'.block := by
  refine fun arena => seqRequire hmore (by decide) fun start => ?_
  exact (itemsUntil_continues hmore (by decide) hg.statement).seqFree fun ns _ hns => node_continues hns

theorem function (hg : g.Continues more g') : Replants more g.function g'.function := by
  refine fun arena => seqRequire hmore (by decide) fun start => ?_
  refine (functionName_continues hmore start).seqFree fun name mid hname => seqRequire hmore (by decide) fun _ => ?_
  refine (separatedUntil_continues hmore (by decide) (name_replants hmore)).seqFree fun ns _ hns => ?_
  refine (node_continues hns).seqFree fun params _ hparams => ?_
  refine (hg.block hmore _).seqFree fun body _ hbody => ?_
  exact node_continues (hname.cons (hparams.cons hbody.all))

theorem parenthesized (hg : g.Continues more g') : Replants more g.parenthesized g'.parenthesized := by
  refine fun arena => seqRequire hmore (by decide) fun _ => ?_
  exact (hg.assignment _).seqFree fun n _ hn => seqRequire hmore (by decide) fun _ => .done hn

theorem member (hg : g.Continues more g') : Replants more g.member g'.member := by
  refine fun arena => seqRead hmore (fun start => ?_) (Nat.le_refl 1)
  refine (keyText_continues start).seqFree fun text _ hmid => ?_
  subst hmid
  refine seqRequire hmore (by decide) fun _ => ?_
  exact (hg.assignment _).seqFree fun n _ hn => node_continues hn.all

theorem object (hg : g.Continues more g') : Replants more g.object g'.object := by
  refine fun arena => seqRequire hmore (by decide) fun start => ?_
  exact (separatedUntil_continues hmore (by decide) (hg.member hmore)).seqFree fun _ _ hns => node_continues hns

theorem array (hg : g.Continues more g') : Replants more g.array g'.array := by
  refine fun arena => seqRequire hmore (by decide) fun start => ?_
  exact (separatedUntil_continues hmore (by decide) hg.assignment).seqFree fun _ _ hns => node_continues hns

theorem primary (hg : g.Continues more g') : Replants more g.primary g'.primary := by
  refine fun arena => seqPeek hmore (fun t _ => ?_) (Nat.le_refl 1)
  split
  · exact hg.function hmore arena
  · exact hg.parenthesized hmore arena
  · exact hg.object hmore arena
  · exact hg.array hmore arena
  · exact atom_replants hmore arena

/-- A receiver stays, or a node is made over it. -/
theorem suffix (hg : g.Continues more g') (start : Token) {n : NodeId} (hn : Sprouts base n arena) :
    ScriptReader.Continues more 0 0 (g.suffix start n) (g'.suffix start n) arena
      fun r after => Sprouts base (r.getD n) after := by
  have made {mid : Arena} {kind : Kind} {ns : List NodeId} (hns : SproutsAll base ns mid) :
      ScriptReader.Continues more 0 0 (node kind start ns >>= fun m => pure (some m))
        (node kind start ns >>= fun m => pure (some m)) mid fun r after => Sprouts base (r.getD n) after :=
    (node_continues hns).seqFree fun _ _ hm => .done hm
  refine seqStop hmore (fun t _ => ?_) (fun t hk => by rw [hk]) fun u hk => by rw [hk]
  split
  · refine (seqRead hmore (fun _ => ?_) (Nat.le_refl 1)).forget
    refine seqConsume hmore (fun t => branch (fun _ => made hn.all) fun _ => ?_) fun t hk => ?_
    · exact ScriptReader.Continues.seqFree (m := 0) (Q := fun _ _ => False) (refuse_continues t _) fun _ _ h => h.elim
    · have hname : isPropertyName t ≠ true := fun h => isPropertyName_ne h hk
      intro s
      rw [if_neg hname]
      exact bind_fails (refuse_fails t _) _ s
  · refine (seqRead hmore (fun _ => ?_) (Nat.le_refl 1)).forget
    refine (hg.assignment _).seqTaken fun index _ hindex => ?_
    exact seqRequire hmore (by decide) fun _ => made (hn.cons hindex.all)
  · refine (seqRead hmore (fun _ => ?_) (Nat.le_refl 1)).forget
    exact (separatedUntil_continues hmore (by decide) hg.assignment).seqTaken fun _ _ hns => made (hn.cons hns)
  · exact .done hn

theorem chain (hg : g.Continues more g') : Replants more g.chain g'.chain := by
  refine fun arena => seqPeek hmore (fun start _ => ?_) (Nat.le_refl 1)
  refine (hg.primary hmore arena).seqTaken fun n mid hn => seqTurns fun k k' hle => ?_
  exact extend_continues (fun _ _ hm => hg.suffix hmore start hm) hle mid n hn

theorem unaryRule (hg : g.Continues more g') : Replants more g.unaryRule g'.unaryRule := by
  refine fun arena => seqPeek hmore (fun start _ => ?_) (Nat.le_refl 1)
  split
  · exact hg.chain hmore arena
  · refine seqRead hmore (fun _ => ?_) (Nat.le_refl 1)
    exact (hg.unary _).seqTaken fun _ _ hn => node_continues hn.all

theorem operation (hg : g.Continues more g') (least : Nat) (start : Token) {n : NodeId} (hn : Sprouts base n arena) :
    ScriptReader.Continues more 0 0 (g.operation least start n) (g'.operation least start n) arena
      fun r after => Sprouts base (r.getD n) after := by
  refine seqStop hmore (fun t _ => ?_) (fun t hk => by rw [hk]; rfl) fun u hk => by rw [hk]; rfl
  split
  · exact .done hn
  · refine branch (fun _ => .done hn) fun _ => ?_
    refine (seqRead hmore (fun _ => ?_) (Nat.le_refl 1)).forget
    refine (hg.binary _ _).seqTaken fun right _ hright => ?_
    exact (node_continues (hn.cons hright.all)).seqFree fun _ _ hm => .done hm

theorem binaryRule (hg : g.Continues more g') (least : Nat) :
    Replants more (g.binaryRule least) (g'.binaryRule least) := by
  refine fun arena => seqPeek hmore (fun start _ => ?_) (Nat.le_refl 1)
  refine (hg.unaryRule hmore arena).seqTaken fun n mid hn => seqTurns fun k k' hle => ?_
  exact extend_continues (fun _ _ hm => hg.operation hmore least start hm) hle mid n hn

theorem assignmentRule (hg : g.Continues more g') : Replants more g.assignmentRule g'.assignmentRule := by
  refine fun arena => seqPeek hmore (fun start _ => ?_) (Nat.le_refl 1)
  refine (hg.binaryRule hmore 1 arena).seqTaken fun n mid hn => ?_
  refine seqAccept hmore (by decide) (fun sign => ?_) (.done hn) (.inl (by decide))
  refine (checkTarget_continues sign n).seqFree fun _ _ hmid => ?_
  subst hmid
  exact (hg.assignment _).seqFree fun right _ hright => node_continues (hn.cons hright.all)

/-! ### Statements -/

theorem variableRule (hg : g.Continues more g') : Replants more g.variableRule g'.variableRule := by
  refine fun arena => seqRequire hmore (by decide) fun t => ?_
  refine seqAccept hmore (by decide) (fun _ => ?_) (node_continues .nil) (.inl (by decide))
  exact (hg.assignmentRule hmore _).seqFree fun n _ hn => node_continues hn.all

theorem declaration (hg : g.Continues more g') (word : VarWord) :
    Replants more (g.declaration word) (g'.declaration word) := by
  refine fun arena => seqRead hmore (fun start => ?_) (Nat.le_refl 1)
  refine seqTurns fun k k' hle => (collect_continues (fun arena f f' Q _ hlast hgoes => ?_) hle _).seqTaken
    fun names _ hnames => ?_
  · rw [bind_assoc, bind_assoc]
    refine (hg.variableRule hmore arena).seqTaken fun n mid hn => ?_
    rw [bind_assoc, bind_assoc]
    exact seqAccept hmore (by decide) (fun _ => (hgoes n mid hn).forget) (hlast n mid hn)
      (.inl (by decide))
  · exact seqAccept hmore (by decide) (fun _ => node_continues hnames) (node_continues hnames) (.inl (by decide))

theorem ifRule (hg : g.Continues more g') :
    ScriptReader.Continues more 0 1 g.ifRule g'.ifRule arena (Sprouts arena) := by
  refine seqRequire hmore (by decide) fun start => seqRequire hmore (by decide) fun _ => ?_
  refine (hg.assignmentRule hmore _).seqFree fun test _ htest => seqRequire hmore (by decide) fun _ => ?_
  refine (hg.statement _).seqNeeding (fun holds _ hholds => ?_) (Nat.le_refl 1)
  refine seqAccept hmore (by decide) (fun _ => ?_) ?_ (.inl (by decide))
  · refine (hg.statement _).seqNeeding (fun fails _ hfails => ?_) (Nat.le_refl 1)
    exact node_continues (htest.cons (hholds.cons hfails.all))
  · exact node_continues (htest.cons hholds.all)

/-- A value may be missing only before the end of the text. -/
theorem returnRule (hg : g.Continues more g') :
    ScriptReader.Continues more 0 1 g.returnRule g'.returnRule arena (Sprouts arena) := by
  have ended {start : Token} {ns : List NodeId} {mid : Arena} (h : SproutsAll arena ns mid) :
      ScriptReader.Continues more 0 1 (accept .semicolon >>= fun _ => node .returnStatement start ns)
        (accept .semicolon >>= fun _ => node .returnStatement start ns) mid (Sprouts arena) :=
    seqAccept hmore (by decide) (fun _ => node_continues h) (node_continues h) (.inl (by decide))
  refine seqRead hmore (fun start => ?_) (Nat.le_refl 1)
  refine seqPeek hmore (fun t _ => branch (fun _ => ended .nil) fun _ => ?_) (Nat.le_refl 1)
  exact (hg.assignmentRule hmore _).seqFree fun value _ hvalue => ended hvalue.all

theorem undocumented (hg : g.Continues more g') :
    ScriptReader.Continues more 0 1 g.undocumented g'.undocumented arena fun r after => Sprouts arena r.1 after := by
  have itself {x y : ScriptReader NodeId} {taken : Nat}
      (h : ScriptReader.Continues more taken 0 x y arena (Sprouts arena)) :
      ScriptReader.Continues more 0 1 (Grammar.itself <$> x) (Grammar.itself <$> y) arena
        fun r after => Sprouts arena r.1 after :=
    (h.mono (Nat.zero_le _) (Nat.zero_le 1)).map fun _ _ hn => hn
  refine seqPeek hmore (fun t _ => ?_) (Nat.le_refl 1)
  split
  · exact itself (hg.block hmore arena)
  · exact itself (hg.declaration hmore _ arena)
  · exact itself (hg.declaration hmore _ arena)
  · exact itself (hg.declaration hmore _ arena)
  · exact itself (hg.function hmore arena)
  · exact (hg.ifRule hmore).map fun _ _ hn => hn
  · exact (hg.returnRule hmore).map fun _ _ hn => hn
  · refine seqRead hmore (fun t => ?_) (Nat.le_refl 1)
    exact leaf_continues.seqFree fun n _ hn => .done hn
  · refine (hg.assignmentRule hmore arena).seqFree fun n mid hn => ?_
    have hnode (start : Token) : ScriptReader.Continues more 0 1
        (node .expressionStatement start [n] >>= fun m => pure (m, n))
        (node .expressionStatement start [n] >>= fun m => pure (m, n)) mid fun r after => Sprouts arena r.1 after :=
      (node_continues hn.all).seqFree fun _ _ hm => .done hm
    exact seqAccept hmore (by decide) (fun _ => hnode _) (hnode _) (.inl (by decide))

theorem statementRule (hg : g.Continues more g') :
    ScriptReader.Continues more 0 1 g.statementRule g'.statementRule arena (Sprouts arena) := by
  refine seqPeek hmore (fun t hdoc => ?_) (Nat.le_refl 1)
  rw [hdoc]
  exact (hg.undocumented hmore).seqNeeding (fun _ _ hn => .done hn) (Nat.le_refl 1)

end Continues

/-- As many levels for the second run, or more. -/
theorem within_continues : ∀ {depth depth' : Nat}, depth ≤ depth' → (within depth).Continues more (within depth')
  | 0, _, _ => by
    have hfails (s : Input) : (throw .exhausted : Build (NodeId × Input)).Fails := fun arena => ⟨_, arena, rfl⟩
    exact ⟨fun _ => .fails hfails, fun _ => .fails hfails, fun _ _ => .fails hfails, fun _ => .fails hfails⟩
  | depth + 1, 0, h => absurd h (Nat.not_succ_le_zero depth)
  | depth + 1, depth' + 1, h => by
    have hg := within_continues (Nat.le_of_succ_le_succ h)
    exact ⟨fun _ => hg.statementRule hmore, hg.assignmentRule hmore, hg.binaryRule hmore, hg.unaryRule hmore⟩

end Grammar

end ScriptIndex.ScriptReader
