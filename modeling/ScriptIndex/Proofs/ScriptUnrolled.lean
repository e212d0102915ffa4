import ScriptIndex.Proofs.SameTokens

/-! # A script statement by statement

The loop over the statements of a script, as a relation (`Grammar.Unrolls`): a run of it is a statement after
another up to the end of the text, however many turns it was given. A script that is read is one node over
such a run, and it spans its source (`Build.script_eq_ok`). -/

namespace ScriptIndex
open Assembly

namespace ScriptReader

/-- The rules read the given statements, up to the end of the text. -/
inductive Grammar.Unrolls (g : Grammar) : Input → Arena → List NodeId → Input → Arena → Prop
  | stop {s : Input} {arena : Arena} {t : Token} (head : s.head = .ok t) (kind : t.kind = .eof) :
      Unrolls g s arena [] s arena
  | more {s s₁ s₂ : Input} {arena mid after : Arena} {t : Token} {n : NodeId} {body : List NodeId}
      (head : s.head = .ok t) (kind : t.kind ≠ .eof) (first : g.statement s arena = .ok (n, s₁) mid)
      (rest : Unrolls g s₁ mid body s₂ after) : Unrolls g s arena (n :: body) s₂ after

variable {g : Grammar} {n : Nat} {s s' : Input} {arena after : Arena} {body : List NodeId}

theorem statements_of_error {e : SyntaxError} (h : s.head = .error e) :
    statements g (n + 1) s = throw (.rejected e) := by
  have hturn : statementTurn g s = throw (.rejected e) := peek_bind_of_error h _
  show statementTurn g s >>= _ = _
  rw [hturn]
  rfl

theorem statements_stop {t : Token} (h : s.head = .ok t) (ht : t.kind = .eof) :
    statements g (n + 1) s = pure ([], s) := by
  have hturn : statementTurn g s = pure (.stop, s) := by
    rw [statementTurn, peek_bind_of_head h, if_pos ht]
    rfl
  show statementTurn g s >>= _ = _
  rw [hturn]
  rfl

theorem statements_more {t : Token} (h : s.head = .ok t) (ht : t.kind ≠ .eof) : statements g (n + 1) s =
    g.statement s >>= fun r => statements g n r.2 >>= fun q => pure (r.1 :: q.1, q.2) := by
  have hturn : statementTurn g s = g.statement s >>= fun r => pure (.more r.1, r.2) := by
    rw [statementTurn, peek_bind_of_head h, if_neg ht]
    rfl
  show statementTurn g s >>= _ = _
  rw [hturn, bind_assoc]
  refine congrArg (g.statement s >>= ·) (funext fun r => ?_)
  rw [pure_bind]
  rfl

namespace Grammar.Unrolls

theorem of_statements (h : statements g n s arena = .ok (body, s') after) :
    body.length < n ∧ g.Unrolls s arena body s' after := by
  induction n generalizing s arena body with
  | zero => cases h
  | succ n ih =>
    cases hs : s.head with
    | error e =>
      rw [statements_of_error hs] at h
      cases h
    | ok t =>
      by_cases ht : t.kind = .eof
      · rw [statements_stop hs ht] at h
        cases h
        exact ⟨Nat.succ_pos n, .stop hs ht⟩
      · rw [statements_more hs ht] at h
        obtain ⟨⟨m, s₁⟩, mid, hfirst, h⟩ := Build.bind_eq_ok h
        obtain ⟨⟨items, s₂⟩, last, hrest, h⟩ := Build.bind_eq_ok h
        cases h
        obtain ⟨hlt, hrest⟩ := ih hrest
        exact ⟨Nat.succ_lt_succ hlt, .more hs ht hfirst hrest⟩

/-- More turns than statements suffice. -/
theorem statements (h : g.Unrolls s arena body s' after) {n : Nat} (hn : body.length < n) :
    statements g n s arena = .ok (body, s') after := by
  induction h generalizing n with
  | stop hs ht =>
    obtain ⟨n, rfl⟩ := Nat.exists_eq_succ_of_ne_zero (Nat.ne_zero_of_lt hn)
    rw [statements_stop hs ht]
    rfl
  | more hs ht hfirst _ ih =>
    obtain ⟨n, rfl⟩ := Nat.exists_eq_succ_of_ne_zero (Nat.ne_zero_of_lt hn)
    rw [statements_more hs ht, Build.run_bind_ok hfirst, Build.run_bind_ok (ih (Nat.lt_of_succ_lt_succ hn))]
    rfl

theorem lt_size {depth : Nat} (h : (within depth).Unrolls s arena body s' after) (hs : s.stream.Legible) :
    ∀ c ∈ body, c < after.size := by
  have hruns := (statements_runs depth (body.length + 1) []).runs s hs arena (by simp [Bounded])
  rw [h.statements (Nat.lt_succ_self _)] at hruns
  intro c hc
  exact Steps.bounded hruns (by simp [Bounded]) (.statement, c) (by simpa using hc)

/-- What is left of a stream is a rest of it. -/
theorem proper {stream : Stream} {depth : Nat} (h : (within depth).Unrolls s arena body s' after)
    (hs : (gauge stream).Within depth s) : s'.Of stream := by
  let n := max (body.length + 1) depth
  have hn : (gauge stream).Within n s := ⟨hs.proper, Nat.lt_of_lt_of_le hs.lt (Nat.le_max_right _ _)⟩
  have hfinishes := statements_finishes hs hn arena
  rw [h.statements (Nat.le_max_left _ _)] at hfinishes
  exact hfinishes.proper

theorem ended (h : g.Unrolls s arena body s' after) : ∃ t, s'.head = .ok t ∧ t.kind = .eof := by
  induction h with
  | stop hs ht => exact ⟨_, hs, ht⟩
  | more _ _ _ _ ih => exact ih

end Grammar.Unrolls

end ScriptReader

/-! ### What the options show -/

theorem Stream.Tiles.last {source : List UInt8} {t : Token} : ∀ {start : Nat} {tokens : List Token},
    Tiles source start tokens (.ok t) → t.span = ⟨source.length, source.length⟩
  | _, [], h => h.2.1
  | _, _ :: _, h => h.2.2.2.last

namespace Options
variable (options : Options)

def shownToken (t : Token) : Token := if options.docs then t else { t with doc := none }

theorem shown_eq (s : Stream) :
    options.shown s = ⟨s.tokens.map options.shownToken, s.last.map options.shownToken⟩ := by
  obtain ⟨tokens, last⟩ := s
  cases h : options.docs
  · have hshown : options.shownToken = fun t => { t with doc := none } := funext fun t => by simp [shownToken, h]
    rw [hshown, shown, h]
    rfl
  · have hshown : options.shownToken = id := funext fun t => by simp [shownToken, h]
    rw [hshown, shown, h, List.map_id]
    cases last <;> rfl

@[simp] theorem kind_shownToken (t : Token) : (options.shownToken t).kind = t.kind := by
  unfold shownToken
  split <;> rfl

@[simp] theorem span_shownToken (t : Token) : (options.shownToken t).span = t.span := by
  unfold shownToken
  split <;> rfl

variable {options}

theorem span_of_last {source : List UInt8} {t : Token} (h : (options.stream source).last = .ok t) :
    t.span = ⟨source.length, source.length⟩ := by
  have htiles : Stream.Tiles source 0 (Stream.ofBytes source).tokens (Stream.ofBytes source).last :=
    Cursor.stream_tiles (c := .ofBytes source) ⟨[], rfl, rfl⟩
  change (options.shown (Stream.ofBytes source)).last = .ok t at h
  rw [shown_eq] at h
  generalize (Stream.ofBytes source).last = last at h htiles
  cases last with
  | error e => cases h
  | ok u =>
    cases h
    rw [span_shownToken]
    exact htiles.last

end Options

namespace Build
open ScriptReader

variable {source : List UInt8} {options : Options} {arena mid after : Arena} {body : List NodeId} {s : Input}
  {n : NodeId}

/-- What is left after the statements of a source is its end. -/
theorem unrolls_last {depth : Nat} (hdepth : (options.stream source).tokens.length < depth)
    (h : (Grammar.within depth).Unrolls (.ofStream (options.stream source)) arena body s mid) :
    ∃ t, s.head = .ok t ∧ (options.stream source).last = .ok t := by
  obtain ⟨t, ht, hk⟩ := h.ended
  have hproper := h.proper ⟨⟨options.stream_legible source, List.suffix_rfl, rfl⟩, hdepth⟩
  exact ⟨t, ht, hproper.last_of_head ht hk⟩

theorem script_eq (source : List UInt8) (options : Options) :
    let stream := options.stream source
    let depth := stream.tokens.length + 1
    script source options = ((statements (Grammar.within depth) depth (.ofStream stream) >>= fun r =>
      (peek >>= fun last => liftM (Build.node (.script options.module) ⟨0, last.span.stop⟩ r.1)) r.2) >>= fun r =>
      pure r.1) := rfl

theorem script_of_unrolls (hlength : body.length ≤ (options.stream source).tokens.length)
    (h : (Grammar.within ((options.stream source).tokens.length + 1)).Unrolls (.ofStream (options.stream source))
      arena body s mid) :
    ∃ after, script source options arena = .ok mid.size after ∧
      Made mid (.script options.module) ⟨0, source.length⟩ body after := by
  obtain ⟨t, ht, hlast⟩ := unrolls_last (Nat.lt_succ_self _) h
  have hlt := h.lt_size (options.stream_legible source)
  obtain ⟨after, hrun, hmade⟩ := run_node (.script options.module) ⟨0, t.span.stop⟩ hlt
  refine ⟨after, ?_, by rwa [Options.span_of_last hlast] at hmade⟩
  have hnode : (peek >>= fun last => liftM (Build.node (.script options.module) ⟨0, last.span.stop⟩ body)) s mid =
      .ok (mid.size, s) after := by
    rw [peek_bind_of_head ht]
    exact run_bind_ok hrun
  have hstatements := h.statements (Nat.lt_succ_of_le hlength)
  rw [script_eq, run_bind_ok ((run_bind_ok hstatements).trans hnode)]
  rfl

/-- A script is one node over its statements, which are read up to the end of the text. -/
theorem script_eq_ok (h : script source options arena = .ok n after) :
    let stream := options.stream source
    ∃ body s mid, body.length ≤ stream.tokens.length ∧
      (Grammar.within (stream.tokens.length + 1)).Unrolls (.ofStream stream) arena body s mid ∧
      n = mid.size ∧ Made mid (.script options.module) ⟨0, source.length⟩ body after := by
  intro stream
  have hscript := h
  rw [script_eq] at hscript
  obtain ⟨_, _, hscript, -⟩ := bind_eq_ok hscript
  obtain ⟨⟨body, s⟩, mid, hbody, -⟩ := bind_eq_ok hscript
  obtain ⟨hlength, hunrolls⟩ := Grammar.Unrolls.of_statements hbody
  obtain ⟨after', hrun, hmade⟩ := script_of_unrolls (Nat.le_of_lt_succ hlength) hunrolls
  cases hrun.symm.trans h
  exact ⟨body, s, mid, Nat.le_of_lt_succ hlength, hunrolls, rfl, hmade⟩

end Build

end ScriptIndex
