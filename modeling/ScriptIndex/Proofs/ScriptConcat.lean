import ScriptIndex.Proofs.DocsAside
import ScriptIndex.Proofs.ScriptAppend
import ScriptIndex.Proofs.ScriptUnrolled
import ScriptIndex.Proofs.StreamAppend

/-! # Scripts one after the other

A source that ends with a semicolon may be followed by another: together they read as the statements of the
first and after them those of the second. The run over both begins as the run over the first, which is a
comparison up to the semicolon (`Prolonged`), and goes on as the run over the second elsewhere
(`Relocation.shifted`). -/

namespace ScriptIndex
open Assembly

/-! ### The arena of both -/

def Span.moved (offset : Nat) (span : Span) : Span := ⟨span.start + offset, span.stop + offset⟩

def Node.moved (offset : Nat) (x : Node) : Node := { x with span := x.span.moved offset }

/-- Children of the node `old` become children of the node `new`. -/
def Node.reparented (old new : NodeId) (x : Node) : Node :=
  { x with parent := x.parent.map fun p => if p = old then new else p }

/-- The nodes before the script `a` of `left`, those before the script `b` of `right`, whose indexes and
positions move up, and a script over the children of both. -/
def Arena.joined (module : Option ModuleId) (a b : NodeId) (first second : Nat) (left right : Arena) : Arena where
  nodes := left.nodes.pop.map (·.reparented a (a + b)) ++
    right.nodes.pop.map (fun x => (x.renamed (a + ·)).moved first) ++
    #[{ kind := .script module, span := ⟨0, first + second⟩
        children := left.children a ++ (right.children b).map (a + ·) }]

theorem Node.reparented_of_ne {old : NodeId} {x : Node} (h : x.parent ≠ some old) (new : NodeId) :
    x.reparented old new = x := by
  obtain ⟨kind, span, parent, children, doc⟩ := x
  cases parent with
  | none => rfl
  | some p => simp [reparented, show p ≠ old from fun heq => h (congrArg some heq)]

theorem Arena.node?_joined {module : Option ModuleId} {a b first second : Nat} {left right : Arena}
    (hleft : left.size = a + 1) (hright : right.size = b + 1) (n : Nat) :
    (joined module a b first second left right).node? n =
      if n < a then (left.node? n).map (·.reparented a (a + b))
      else if n < a + b then (right.node? (n - a)).map fun x => (x.renamed (a + ·)).moved first
      else if n = a + b then some { kind := .script module, span := ⟨0, first + second⟩
                                    children := left.children a ++ (right.children b).map (a + ·) }
      else none := by
  have hleft : left.nodes.size = a + 1 := hleft
  have hright : right.nodes.size = b + 1 := hright
  simp only [joined, node?, Array.getElem?_append, Array.size_append, Array.size_map, Array.size_pop, hleft, hright,
    Nat.add_sub_cancel, Array.getElem?_map, Array.getElem?_pop]
  by_cases h1 : n < a
  · simp [h1, Nat.lt_add_right b h1]
  · by_cases h2 : n < a + b
    · have hlt : n - a < b := by omega
      simp [h1, h2, hlt]
    · by_cases h3 : n = a + b
      · simp [h3]
      · have hne : n - (a + b) ≠ 0 := by omega
        simp [h1, h2, h3, hne]

/-- Positions move up by the offset, and the nodes come after those of the given arena. -/
def Relocation.shifted (base : Arena) (offset : Nat) : Relocation where
  base := base
  near a b := b = a + offset
  near_add n h := by omega
  near_max h h' := by omega

theorem Relocation.Nodes.moved {base : Arena} {offset : Nat} {x y : Node}
    (h : (Relocation.shifted base offset).Nodes x y) : y = (x.renamed (base.size + ·)).moved offset := by
  obtain ⟨kind, ⟨start, stop⟩, parent, children, doc⟩ := y
  obtain ⟨rfl, ⟨hstart, hstop⟩, rfl, rfl, rfl⟩ := h
  cases hstart
  cases hstop
  rfl

theorem Node.renamed_id (x : Node) : x.renamed id = x := by
  obtain ⟨kind, span, parent, children, doc⟩ := x
  have hdoc : doc.map (·.renamed id) = doc := by
    cases doc with
    | none => rfl
    | some doc => exact congrArg some (Relocation.renamed_id doc)
  simp only [renamed, hdoc, Option.map_id, List.map_id, id]

theorem Arena.empty_followedBy (arena : Arena) : Arena.empty.followedBy arena = arena := by
  have hrenamed : (fun x : Node => x.renamed (Arena.empty.size + ·)) = id := by
    rw [show (fun n => Arena.empty.size + n) = id from funext Nat.zero_add]
    exact funext Node.renamed_id
  rw [followedBy, hrenamed, Array.map_id]
  exact congrArg Arena.mk Array.empty_append

/-- The script over the statements of both, made where those of the second come after those of the first. -/
theorem Made.joined {module : Option ModuleId} {first second : Nat} {span span' : Span}
    {body body' : List NodeId} {mid mid' left right both after : Arena} (hl : Made mid (.script module) span body left)
    (hlt : ∀ c ∈ body, c < mid.size) (hlinks : ∀ c, left.parent? c = some mid.size → c ∈ left.children mid.size)
    (hr : Made mid' (.script module) span' body' right) (h : (Relocation.shifted mid first).Arenas mid' both)
    (hboth : Made both (.script module) ⟨0, first + second⟩ (body ++ body'.map (mid.size + ·)) after) :
    after = .joined module mid.size mid'.size first second left right := by
  have hsize : both.size = mid.size + mid'.size := h.size
  have hchildren : left.children mid.size = body := by rw [hl.children_eq, if_pos rfl]
  refine congrArg Arena.mk (Array.ext_getElem? fun n => ?_)
  show after.node? n = (Arena.joined module mid.size mid'.size first second left right).node? n
  rw [Arena.node?_joined hl.size hr.size, hboth.node?, hsize]
  rcases Nat.lt_or_ge n mid.size with hn | hn
  · -- a node of the first script
    have hold : both.node? n = mid.node? n := h.old n hn
    have hmem : n ∈ body ++ body'.map (mid.size + ·) ↔ n ∈ body := by
      refine List.mem_append.trans (or_iff_left fun hc => ?_)
      obtain ⟨k, -, rfl⟩ := List.mem_map.1 hc
      exact absurd hn (Nat.not_lt.2 (Nat.le_add_right _ _))
    rw [if_neg (Nat.ne_of_lt (Nat.lt_add_right _ hn)), if_pos hn, hold, hl.node?, if_neg (Nat.ne_of_lt hn)]
    simp only [hmem]
    obtain ⟨x, hx⟩ := Arena.exists_node? hn
    rw [hx]
    by_cases hc : n ∈ body
    · rw [if_pos hc, if_pos hc]
      simp [Node.reparented]
    · rw [if_neg hc, if_neg hc]
      refine congrArg some (Node.reparented_of_ne (fun hp => hc ?_) _).symm
      rw [← hchildren]
      refine hlinks n ?_
      rw [hl.parent? hlt, if_neg hc, Arena.parent?, hx]
      exact hp
  · obtain ⟨k, rfl⟩ := Nat.exists_eq_add_of_le hn
    have hmem : mid.size + k ∈ body ++ body'.map (mid.size + ·) ↔ k ∈ body' := by
      rw [List.mem_append, or_iff_right fun hc => absurd (hlt _ hc) (Nat.not_lt.2 hn)]
      refine ⟨fun hc => ?_, List.mem_map_of_mem⟩
      obtain ⟨c, hc, heq⟩ := List.mem_map.1 hc
      exact Nat.add_left_cancel heq ▸ hc
    simp only [hmem, if_neg (Nat.not_lt.2 hn), Nat.add_lt_add_iff_left, Nat.add_left_cancel_iff,
      Nat.add_sub_cancel_left]
    rcases Nat.lt_trichotomy k mid'.size with hk | rfl | hk
    · -- a node of the second script
      obtain ⟨x, y, hx, hy, hxy⟩ := h.exists_node? hk
      have hy : both.node? (mid.size + k) = some y := hy
      rw [if_neg (Nat.ne_of_lt hk), if_pos hk, hr.node?, if_neg (Nat.ne_of_lt hk), hx, hy, hxy.moved]
      by_cases hc : k ∈ body'
      · rw [if_pos hc, if_pos hc]
        rfl
      · rw [if_neg hc, if_neg hc]
        rfl
    · rw [if_pos rfl, if_neg (Nat.lt_irrefl _), if_pos rfl, hchildren, hr.children_eq, if_pos rfl]
    · rw [if_neg (Nat.ne_of_gt hk), if_neg (Nat.lt_asymm hk), if_neg (Nat.ne_of_gt hk),
        Arena.node?_eq_none (hsize ▸ Nat.add_le_add_left (Nat.le_of_lt hk) _)]
      split <;> rfl

theorem Options.stream_append {source : List UInt8} {last : Token}
    (hlast : (Stream.ofBytes source).tokens.getLast? = some last) (hkind : last.kind = .semicolon)
    (hstop : last.span.stop = source.length) (tail : List UInt8) (options : Options) :
    options.stream (source ++ tail) =
      ⟨(options.stream source).tokens ++ (options.shown (Cursor.stream ⟨source.length, tail⟩)).tokens,
        (options.shown (Cursor.stream ⟨source.length, tail⟩)).last⟩ := by
  show options.shown (Stream.ofBytes (source ++ tail)) =
    ⟨(options.shown (Stream.ofBytes source)).tokens ++ _, _⟩
  rw [Stream.ofBytes_append hlast hkind hstop]
  simp only [shown_eq, List.map_append]

theorem Input.Of.nil_iff {stream : Stream} {s : Input} {t : Token} (hs : s.Of stream) (ht : s.head = .ok t) :
    s.stream.tokens = [] ↔ t.kind = .eof := by
  constructor
  · intro hnil
    rw [head, hnil] at ht
    exact hs.legible.last t (hs.last ▸ ht)
  · intro hk
    by_contra hne
    obtain ⟨u, us, htokens⟩ := List.exists_cons_of_ne_nil hne
    rw [head, htokens] at ht
    cases ht
    exact hs.legible.tokens t (hs.tokens.subset (htokens ▸ List.mem_cons_self)) hk

namespace ScriptReader
open Follows

/-! ### What begins no statement -/

variable {s : Input} {t : Token}

/-- A word that only follows a statement begins none. -/
theorem statement_fails_else (h : s.head = .ok t) (ht : t.kind = .elseWord) (depth : Nat) :
    ((Grammar.within depth).statement s).Fails := by
  have peek {α : Type} {f : Token → ScriptReader α} (hf : (f t s).Fails) : ((peek >>= f) s).Fails := by
    rw [peek_bind_of_head h]
    exact hf
  have first {α β : Type} {x : ScriptReader α} (hx : (x s).Fails) (f : α → ScriptReader β) : ((x >>= f) s).Fails :=
    hx.seq _
  cases depth with
  | zero => exact fun _ => ⟨_, _, rfl⟩
  | succ depth =>
    let g := Grammar.within depth
    have hatom : (atom s).Fails := by
      refine peek (first ?_ _)
      unfold atomKind
      rw [ht]
      exact fun _ => ⟨_, _, rfl⟩
    have hunary : (g.unaryRule s).Fails := by
      refine peek ?_
      rw [ht]
      refine peek (first (peek ?_) _)
      rw [ht]
      exact hatom
    have hassignment : (g.assignmentRule s).Fails := peek (first (peek (first hunary _)) _)
    refine peek (first (peek ?_) _)
    rw [ht]
    exact first hassignment _

/-! ### The first source -/

/-- A stream that ends with a semicolon, and the tokens that come after it in place of the end of its text. -/
structure Meets (stream rest : Stream) (stop : Nat) : Prop where
  legible : stream.Legible
  last : ∃ t, stream.tokens.getLast? = some t ∧ t.kind = .semicolon ∧ t.span.stop = stop
  ended : ∃ t, stream.last = .ok t
  next : ∃ t, (Input.ofStream rest).head = .ok t ∧ t.kind ≠ .elseWord

/-- The same place of the stream, without and with the tokens that come after it. -/
structure Prolonged (stream rest : Stream) (stop : Nat) (s s' : Input) : Prop where
  proper : s.Of stream
  stream : s'.stream = ⟨s.stream.tokens ++ rest.tokens, rest.last⟩
  lastEnd : s'.lastEnd = s.lastEnd
  ends : s.stream.tokens = [] → s.lastEnd = stop

/-- The runs over a stream, without and with the tokens that come after it. What the first run does at its end
says nothing of the second. -/
def prolonged (stream rest : Stream) (stop : Nat) : Comparison :=
  (Relocation.after .empty).comparison (fun s s' => Prolonged stream rest stop s s' ∧ s.stream.tokens ≠ [])
    (Prolonged stream rest stop) fun _ => True

variable {stream rest : Stream} {stop : Nat} {s' : Input} {t' : Token}

theorem prolonged_start (h : Meets stream rest stop) :
    Prolonged stream rest stop (.ofStream stream) (.ofStream ⟨stream.tokens ++ rest.tokens, rest.last⟩) := by
  refine ⟨⟨h.legible, List.suffix_rfl, rfl⟩, rfl, rfl, fun hnil => ?_⟩
  obtain ⟨t, hlast, -⟩ := h.last
  rw [show stream.tokens = [] from hnil] at hlast
  cases hlast

theorem Prolonged.head (hs : Prolonged stream rest stop s s') (hne : s.stream.tokens ≠ []) :
    ∃ t, s.head = .ok t ∧ s'.head = .ok t ∧ t ∈ stream.tokens := by
  obtain ⟨t, ts, htokens⟩ := List.exists_cons_of_ne_nil hne
  refine ⟨t, ?_, ?_, hs.proper.tokens.subset (htokens ▸ List.mem_cons_self)⟩
  · rw [Input.head, htokens]
  · rw [Input.head, hs.stream, htokens]
    rfl

theorem Prolonged.read (h : Meets stream rest stop) (hs : Prolonged stream rest stop s s') (hne : s.stream.tokens ≠ [])
    (ht : s.head = .ok t) : Prolonged stream rest stop (s.read t) (s'.read t) ∧
      (t.kind ≠ .semicolon → (s.read t).stream.tokens ≠ []) := by
  obtain ⟨u, ts, htokens⟩ := List.exists_cons_of_ne_nil hne
  rw [Input.head, htokens] at ht
  obtain rfl : u = t := Except.ok.inj ht
  have htail : (s.read u).stream.tokens = ts := congrArg List.tail htokens
  obtain ⟨last, hlast, hkind, hstop⟩ := h.last
  have hend : ts = [] → last = u := by
    rintro rfl
    obtain ⟨front, hfront⟩ := hs.proper.tokens
    rw [← hfront, htokens, List.getLast?_concat] at hlast
    exact (Option.some.inj hlast).symm
  refine ⟨⟨⟨hs.proper.legible, (List.tail_suffix _).trans hs.proper.tokens, hs.proper.last⟩, ?_, rfl, fun hnil => ?_⟩,
    fun hk hnil => ?_⟩
  · rw [htail, Input.read, hs.stream, htokens]
    rfl
  · rw [htail] at hnil
    rw [← hstop, hend hnil]
    rfl
  · rw [htail] at hnil
    exact hk (hend hnil ▸ hkind)

theorem prolonged_steps (h : Meets stream rest stop) : (prolonged stream rest stop).Steps where
  span_from {s s' t t'} hs ht := by
    have hspan : t'.span = t.span := ht.span.eq
    show (Relocation.after .empty).Spans _ _
    rw [hspan, hs.lastEnd]
    exact ⟨rfl, rfl⟩
  after hs := hs.1
  head hs := by
    obtain ⟨t, ht, ht', -⟩ := hs.1.head hs.2
    rw [ht, ht']
    exact .ok (.refl t)
  read_after {s s' t t'} hs ht ht' _ := by
    obtain ⟨u, hu, hu', -⟩ := hs.1.head hs.2
    cases hu.symm.trans ht
    cases hu'.symm.trans ht'
    exact (hs.1.read h hs.2 ht).1
  read {s s' t t'} hs ht ht' hk := by
    obtain ⟨u, hu, hu', -⟩ := hs.1.head hs.2
    cases hu.symm.trans ht
    cases hu'.symm.trans ht'
    exact ⟨(hs.1.read h hs.2 ht).1, (hs.1.read h hs.2 ht).2 hk.1⟩
  turns {s s'} hs := by
    refine .inr ⟨?_, trivial⟩
    rw [hs.1.stream, List.length_append]
    exact Nat.le_add_right _ _
  ended {s s'} hs := by
    by_cases hnil : s.stream.tokens = []
    · obtain ⟨t, ht⟩ := h.ended
      obtain ⟨t', ht', hk⟩ := h.next
      refine .inr ⟨⟨hnil, t, hs.proper.last.trans ht, h.legible.last t ht⟩, fun _ => trivial, t', ?_, hk⟩
      rw [Input.head, hs.stream, hnil]
      exact ht'
    · exact .inl ⟨hs, hnil⟩

/-! ### Statement by statement -/

variable {arena mid after : Arena} {s₁ s₂ : Input} {body body' : List NodeId} {depth depth' n : Nat}

theorem Prolonged.eq_of_nil (hs : Prolonged stream rest stop s s') (h : s.stream.tokens = []) : s' = ⟨rest, stop⟩ := by
  obtain ⟨stream', lastEnd'⟩ := s'
  have hstream : stream' = ⟨s.stream.tokens ++ rest.tokens, rest.last⟩ := hs.stream
  have hend : lastEnd' = stop := hs.lastEnd.trans (hs.ends h)
  rw [hstream, hend, h]
  rfl

/-- A statement of the first source, read where the second follows, leaves the same nodes. -/
theorem statement_prolonged (h : Meets stream rest stop) (hdepth : depth ≤ depth')
    (hs : Prolonged stream rest stop s s') (hne : s.stream.tokens ≠ [])
    (hrun : (Grammar.within depth).statement s arena = .ok (n, s₁) mid) :
    ∃ s₁', (Grammar.within depth').statement s' arena = .ok (n, s₁') mid ∧ Prolonged stream rest stop s₁ s₁' := by
  have hfollows := Grammar.within_follows (Relocation.sound (prolonged_steps h)) (.inr ⟨hdepth, trivial⟩)
  have harenas : (Relocation.after .empty).Arenas arena arena := by
    have harenas := Relocation.Arenas.followedBy .empty arena
    rwa [Arena.empty_followedBy] at harenas
  have houtcomes := hfollows.statement arena.size s s' ⟨hs, hne⟩ arena arena ⟨harenas, rfl⟩
  rw [hrun] at houtcomes
  generalize hrun' : (Grammar.within depth').statement s' arena = r' at houtcomes ⊢
  cases houtcomes with
  | lostRight hlost => exact hlost.elim
  | @ok size' _ r _ right _ harenas hresults =>
    obtain ⟨n', s₁'⟩ := r
    obtain ⟨hn, hs₁⟩ := hresults
    have hright : right = mid := by rw [harenas.1.eq, Arena.empty_followedBy]
    have hn : n' = n := hn.eq.trans (Nat.zero_add n)
    exact ⟨s₁', by rw [hright, hn], hs₁⟩

/-- So do the statements of the first source, and those of the second come after them. -/
theorem unrolls_prolonged (h : Meets stream rest stop) (hdepth : depth ≤ depth')
    (hfirst : (Grammar.within depth).Unrolls s arena body s₁ mid) (hs : Prolonged stream rest stop s s')
    (hsecond : (Grammar.within depth').Unrolls ⟨rest, stop⟩ mid body' s₂ after) :
    (Grammar.within depth').Unrolls s' arena (body ++ body') s₂ after := by
  induction hfirst generalizing s' with
  | stop hhead hk =>
    rw [hs.eq_of_nil ((hs.proper.nil_iff hhead).2 hk)]
    exact hsecond
  | more hhead hk hstatement _ ih =>
    have hne := mt (hs.proper.nil_iff hhead).1 hk
    obtain ⟨t, ht, ht', -⟩ := hs.head hne
    cases ht.symm.trans hhead
    obtain ⟨s₁', hstatement', hs₁⟩ := statement_prolonged h hdepth hs hne hstatement
    exact .more ht' hk hstatement' (ih hs₁ hsecond)

/-- The statements of the second source, read elsewhere. -/
theorem unrolls_moves {m : Relocation} {left right : Arena} (hdepth : depth ≤ depth')
    (h : (Grammar.within depth).Unrolls s left body s₁ mid) (hs : m.Inputs s s') (harenas : m.Arenas left right) :
    ∃ s₁' both, (Grammar.within depth').Unrolls s' right (body.map m.node) s₁' both ∧ m.Arenas mid both := by
  have hsound := Relocation.sound (m.steps (· = .exhausted))
  have hfollows := statements_follows hsound (w := left.size) (fun _ _ h => h) (.inr ⟨hdepth, rfl⟩)
    (.inl (rfl : body.length + 1 = body.length + 1))
  have houtcomes := hfollows s s' hs left right ⟨harenas, rfl⟩
  rw [h.statements (Nat.lt_succ_self _)] at houtcomes
  generalize hrun : statements (Grammar.within depth') (body.length + 1) s' right = r' at houtcomes
  cases houtcomes with
  | lostRight hlost => exact hlost.elim
  | @ok _ _ r _ both _ hmid hresults =>
    obtain ⟨body', s₁'⟩ := r
    have hbody : body' = body.map m.node := (Relocation.Lists.eq_map hresults.1).2
    exact ⟨s₁', both, hbody ▸ (Grammar.Unrolls.of_statements hrun).2, hmid.1⟩

/-- Statements that are read begin with no word that only follows a statement. -/
theorem unrolls_head (h : (Grammar.within depth).Unrolls s arena body s₁ mid) :
    ∃ t, s.head = .ok t ∧ t.kind ≠ .elseWord := by
  cases h with
  | stop hhead hk => exact ⟨_, hhead, by rw [hk]; decide⟩
  | @more _ _ _ _ _ _ t _ _ hhead _ hstatement _ =>
    refine ⟨t, hhead, fun hk => ?_⟩
    obtain ⟨e, last, herror⟩ := statement_fails_else hhead hk depth arena
    cases herror.symm.trans hstatement

end ScriptReader

namespace Build
open ScriptReader

/-- Where the first ends with a semicolon, two sources that are read are read together: as the nodes of the first,
those of the second, and one script over the statements of both. -/
theorem script_append {first second : List UInt8} {options : Options} {a b : NodeId} {left right : Arena} {last : Token}
    (hfirst : script first options .empty = .ok a left) (hsecond : script second options .empty = .ok b right)
    (hlast : (Stream.ofBytes first).tokens.getLast? = some last) (hkind : last.kind = .semicolon)
    (hstop : last.span.stop = first.length) :
    left.size = a + 1 ∧ right.size = b + 1 ∧ script (first ++ second) options .empty =
      .ok (a + b) (.joined options.module a b first.length second.length left right) := by
  have htree := script_tree first options hfirst
  obtain ⟨body, s, mid, hlength, hunrolls, rfl, hmade⟩ := script_eq_ok hfirst
  obtain ⟨body', s', mid', hlength', hunrolls', rfl, hmade'⟩ := script_eq_ok hsecond
  refine ⟨hmade.size, hmade'.size, ?_⟩
  let rest := options.shown (Cursor.stream ⟨first.length, second⟩)
  have hboth : options.stream (first ++ second) = ⟨(options.stream first).tokens ++ rest.tokens, rest.last⟩ :=
    Options.stream_append hlast hkind hstop second options
  have hcount : (options.stream (first ++ second)).tokens.length =
      (options.stream first).tokens.length + rest.tokens.length := by
    rw [hboth, List.length_append]
  -- the second source, after the nodes and at the end of the first
  let m := Relocation.shifted mid first.length
  have hcursors : m.Cursors (.ofBytes second) ⟨first.length, second⟩ := ⟨(Nat.zero_add _).symm, rfl⟩
  have hinputs : m.Inputs (.ofStream (options.stream second)) ⟨rest, first.length⟩ :=
    ⟨hcursors.stream.shown options, (Nat.zero_add _).symm⟩
  have hcount' : rest.tokens.length = (options.stream second).tokens.length := hinputs.stream.tokens.length_eq.symm
  have hmeets : Meets (options.stream first) rest first.length := by
    have hkind' := (options.kind_shownToken last).trans hkind
    have hstop' := (congrArg Span.stop (options.span_shownToken last)).trans hstop
    refine ⟨options.stream_legible first, ⟨options.shownToken last, ?_, hkind', hstop'⟩, ?_, ?_⟩
    · show (options.shown (Stream.ofBytes first)).tokens.getLast? = _
      rw [Options.shown_eq, List.getLast?_map, hlast]
      rfl
    · obtain ⟨t, -, ht⟩ := unrolls_last (Nat.lt_succ_self _) hunrolls
      exact ⟨t, ht⟩
    · obtain ⟨t, ht, hk⟩ := unrolls_head hunrolls'
      obtain ⟨t', ht', htokens⟩ := hinputs.head_of_ok ht
      exact ⟨t', ht', htokens.kind.symm ▸ hk⟩
  have hprolonged : Prolonged (options.stream first) rest first.length (.ofStream (options.stream first))
      (.ofStream (options.stream (first ++ second))) := by
    rw [hboth]
    exact prolonged_start hmeets
  have hdepth' : (options.stream second).tokens.length + 1 ≤ (options.stream (first ++ second)).tokens.length + 1 := by
    omega
  obtain ⟨s₁, both, hsecond', harenas⟩ := unrolls_moves hdepth' hunrolls' hinputs
    (⟨rfl, fun _ _ => rfl, nofun⟩ : m.Arenas .empty mid)
  have hall := unrolls_prolonged hmeets (by omega) hunrolls hprolonged hsecond'
  have hstatements : (body ++ body'.map m.node).length ≤ (options.stream (first ++ second)).tokens.length := by
    rw [List.length_append, List.length_map]
    omega
  obtain ⟨after, hrun, hafter⟩ := script_of_unrolls hstatements hall
  rw [List.length_append] at hafter
  have hsize : both.size = mid.size + mid'.size := harenas.size
  have hlinks := fun c => (htree.mem_children mid.size c).2
  rw [hrun, hsize, hmade.joined (hunrolls.lt_size (options.stream_legible first)) hlinks hmade' harenas hafter]

theorem script_append_documented :
    let first := ascii "/** @const */ var a;"
    let second := ascii "/** @type \x7b!a\x7d */ b.c = function() \x7b\x7d\n"
    ∃ left right, script first .standard .empty = .ok 2 left ∧ script second .standard .empty = .ok 10 right ∧
      (Stream.ofBytes first).tokens.getLast? = some ⟨.semicolon, ⟨19, 20⟩, ascii ";", none⟩ ∧
      script (first ++ second) .standard .empty = .ok 12 (.joined none 2 10 20 38 left right) := by
  intro first second
  have hfirst : (script first .standard).run' .empty = some 2 := by decide +kernel
  have hsecond : (script second .standard).run' .empty = some 10 := by decide +kernel
  obtain ⟨left, hleft⟩ := run'_eq_some hfirst
  obtain ⟨right, hright⟩ := run'_eq_some hsecond
  have hlast : (Stream.ofBytes first).tokens.getLast? = some ⟨.semicolon, ⟨19, 20⟩, ascii ";", none⟩ := by
    decide +kernel
  exact ⟨left, right, hleft, hright, hlast, (script_append hleft hright hlast rfl rfl).2.2⟩

end Build

end ScriptIndex
