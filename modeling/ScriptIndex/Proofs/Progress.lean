import ScriptIndex.Proofs.Runs

/-! # Readers that finish

`Reader.Finishes E x s Q`: from the input `s`, whatever the arena, the action `x` comes to an end. It succeeds
with a result and a rest of the input that satisfy `Q`, or refuses the text with an error that satisfies `E`;
it does not run longer than its input allows. A `Gauge` measures what is left of an input. A loop whose turns
leave less each time finishes, and so does a rule that calls rules of a deeper level only after it has read
something. -/

namespace ScriptIndex

/-- The text is refused for a reason that `E` gives, or an index lies outside the arena. -/
inductive Failure.Explained (E : SyntaxError → Prop) : Failure → Prop
  | rejected {e : SyntaxError} (h : E e) : Explained E (.rejected e)
  | unknownNode (n : NodeId) : Explained E (.unknownNode n)

theorem Failure.Explained.imp {E E' : SyntaxError → Prop} {f : Failure} (h : f.Explained E) (hE : ∀ e, E e → E' e) :
    f.Explained E' := by
  cases h with
  | rejected h => exact .rejected (hE _ h)
  | unknownNode n => exact .unknownNode n

namespace Build

variable {α β : Type} {E : SyntaxError → Prop}

def Finishes (E : SyntaxError → Prop) (x : Build α) (Q : α → Prop) : Prop :=
  ∀ arena, match x arena with
    | .ok a _ => Q a
    | .error e _ => e.Explained E

namespace Finishes
variable {x : Build α} {P Q : α → Prop} {R : β → Prop}

theorem done {a : α} (h : Q a) : Finishes E (pure a) Q :=
  fun _ => h

theorem fails {e : Failure} (h : e.Explained E) : Finishes E (throw e : Build α) Q :=
  fun _ => h

theorem rejects {cause : Cause} {span : Span} {token : Option TokenKind} (h : E ⟨cause, span, token⟩) :
    Finishes E (reject cause span token : Build α) Q :=
  fails (.rejected h)

theorem seq {f : α → Build β} (hx : Finishes E x P) (hf : ∀ a, P a → Finishes E (f a) R) :
    Finishes E (x >>= f) R := by
  intro arena
  have h := hx arena
  cases hr : x arena with
  | ok a mid =>
    rw [hr] at h
    rw [run_bind_ok hr]
    exact hf a h mid
  | error e mid =>
    rw [hr] at h
    rw [run_bind_error hr]
    exact h

theorem imp {E' : SyntaxError → Prop} (hx : Finishes E x P) (hE : ∀ e, E e → E' e) (hQ : ∀ a, P a → Q a) :
    Finishes E' x Q := by
  intro arena
  have h := hx arena
  split
  · next hr =>
    rw [hr] at h
    exact hQ _ h
  · next hr =>
    rw [hr] at h
    exact h.imp hE

theorem update {f : Arena → Except Failure Arena}
    (h : ∀ arena e, f arena = .error e → ∃ n, e = .unknownNode n) : Finishes E (update f) fun _ => True := by
  intro arena
  cases hf : f arena with
  | ok next =>
    rw [run_update_ok hf]
    trivial
  | error e =>
    obtain ⟨n, rfl⟩ := h arena e hf
    rw [run_update_error hf]
    exact .unknownNode n

theorem mapM {f : α → Build β} : ∀ {l : List α}, (∀ a ∈ l, Finishes E (f a) fun _ => True) →
    Finishes E (l.mapM f) fun _ => True
  | [], _ => by
    rw [List.mapM_nil]
    exact done trivial
  | a :: l, h => by
    rw [List.mapM_cons]
    obtain ⟨ha, hl⟩ := List.forall_mem_cons.1 h
    exact seq ha fun _ _ => seq (mapM hl) fun _ _ => done trivial

theorem forM {f : α → Build PUnit} : ∀ {l : List α}, (∀ a ∈ l, Finishes E (f a) fun _ => True) →
    Finishes E (l.forM f) fun _ => True
  | [], _ => done trivial
  | a :: l, h => by
    obtain ⟨ha, hl⟩ := List.forall_mem_cons.1 h
    rw [List.forM_eq_forM, List.forM_cons]
    exact seq ha fun _ _ => forM hl

theorem node {kind : Kind} {span : Span} {children : List NodeId} :
    Finishes E (Build.node kind span children) fun _ => True := by
  have push : Finishes E (Build.push kind span) fun _ => True := fun _ => trivial
  refine seq push fun n _ => seq (forM fun child _ => update fun arena e h => ?_) fun _ _ => done trivial
  unfold Arena.append Arena.check at h
  split at h
  · split at h
    · cases h
    · cases h
      exact ⟨_, rfl⟩
  · cases h
    exact ⟨_, rfl⟩

theorem setDoc {n : NodeId} {doc : Doc} : Finishes E (Build.update (·.setDoc n doc)) fun _ => True := by
  refine update fun arena e h => ?_
  unfold Arena.setDoc Arena.check at h
  split at h
  · cases h
  · cases h
    exact ⟨_, rfl⟩

end Finishes

end Build

namespace Reader

variable {σ α β : Type}

/-- How much is left of an input, and which inputs arise. -/
structure Gauge (σ : Type) where
  left : σ → Nat
  Proper : σ → Prop

namespace Gauge
variable (m : Gauge σ)

/-- At least so much is read between two inputs. -/
structure Reads (least : Nat) (s s' : σ) : Prop where
  proper : m.Proper s'
  left : m.left s' + least ≤ m.left s

/-- Less than `n` is left. -/
structure Within (n : Nat) (s : σ) : Prop where
  proper : m.Proper s
  lt : m.left s < n

variable {m} {a b n : Nat} {s s' s'' : σ}

theorem Reads.refl (h : m.Proper s) : m.Reads 0 s s := ⟨h, Nat.le_refl _⟩

theorem Reads.mono (h : m.Reads a s s') (hle : b ≤ a) : m.Reads b s s' :=
  ⟨h.proper, Nat.le_trans (Nat.add_le_add_left hle _) h.left⟩

theorem Reads.trans (h : m.Reads a s s') (h' : m.Reads b s' s'') : m.Reads (a + b) s s'' := by
  refine ⟨h'.proper, ?_⟩
  have hab := Nat.add_le_add_right h'.left a
  rw [Nat.add_comm a, ← Nat.add_assoc]
  exact Nat.le_trans hab h.left

/-- Reading on after what was read. -/
theorem Reads.on (h : m.Reads a s s') (h' : m.Reads b s' s'') : m.Reads a s s'' :=
  (h.trans h').mono (Nat.le_add_right a b)

/-- Counting from an earlier input. -/
theorem Reads.since (h' : m.Reads b s' s'') (h : m.Reads a s s') : m.Reads b s s'' :=
  (h.trans h').mono (Nat.le_add_left b a)

theorem Reads.keeps (h : m.Reads a s s') (hs : m.Within n s) : m.Within n s' :=
  ⟨h.proper, Nat.lt_of_le_of_lt (Nat.le_trans (Nat.le_add_right _ a) h.left) hs.lt⟩

theorem Reads.deeper (h : m.Reads 1 s s') (hs : m.Within (n + 1) s) : m.Within n s' :=
  ⟨h.proper, Nat.lt_of_lt_of_le h.left (Nat.le_of_lt_succ hs.lt)⟩

theorem within_left (h : m.Proper s) : m.Within (m.left s + 1) s := ⟨h, Nat.lt_succ_self _⟩

end Gauge

variable {m : Gauge σ} {E : SyntaxError → Prop}

def Finishes (E : SyntaxError → Prop) (x : Reader σ α) (s : σ) (Q : α → σ → Prop) : Prop :=
  Build.Finishes E (x s) fun r => Q r.1 r.2

/-- From less than `n` the action finishes, and it reads something. -/
def Advances (m : Gauge σ) (E : SyntaxError → Prop) (n : Nat) (x : Reader σ α) : Prop :=
  ∀ s, m.Within n s → Finishes E x s fun _ => m.Reads 1 s

/-- The least that a turn of a loop may read: it goes on only if something is read beyond `k`. -/
def Turn.least (k : Nat) : Turn α → Nat
  | .stop | .last _ => k
  | .more _ => k + 1

/-- From less than `n` a turn of a loop finishes, and the loop goes on only if the turn has read something. -/
def TurnAdvances (m : Gauge σ) (E : SyntaxError → Prop) (n : Nat) (turn : Reader σ (Turn α)) : Prop :=
  ∀ s, m.Within n s → Finishes E turn s fun t => m.Reads (t.least 0) s

/-- The same for a loop that goes on where a step gives something. -/
def StepAdvances (m : Gauge σ) (E : SyntaxError → Prop) (n : Nat) (step : α → Reader σ (Option α)) : Prop :=
  ∀ a s, m.Within n s → Finishes E (step a) s fun r => m.Reads (r.elim 0 fun _ => 1) s

namespace Finishes
variable {x y : Reader σ α} {s : σ} {P Q : α → σ → Prop} {R : β → σ → Prop}

theorem done {a : α} (h : Q a s) : Finishes E (pure a : Reader σ α) s Q :=
  Build.Finishes.done h

theorem fails {e : Failure} (h : e.Explained E) : Finishes E (throw e : Reader σ α) s Q :=
  Build.Finishes.fails h

theorem seq {f : α → Reader σ β} (hx : Finishes E x s P) (hf : ∀ a s', P a s' → Finishes E (f a) s' R) :
    Finishes E (x >>= f) s R :=
  Build.Finishes.seq hx fun r => hf r.1 r.2

theorem weaken (hx : Finishes E x s P) (h : ∀ a s', P a s' → Q a s') : Finishes E x s Q :=
  Build.Finishes.imp hx (fun _ => id) fun r => h r.1 r.2

theorem map {f : α → β} (hx : Finishes E x s fun a => R (f a)) : Finishes E (f <$> x) s R := by
  rw [map_eq_pure_bind]
  exact hx.seq fun _ _ h => done h

/-- An action on the arena alone leaves the input as it is. -/
theorem lift {x : Build α} {p : α → Prop} (hx : Build.Finishes E x p) (h : ∀ a, p a → Q a s) :
    Finishes E (liftM x : Reader σ α) s Q :=
  Build.Finishes.seq hx fun a ha => Build.Finishes.done (h a ha)

theorem rejects {cause : Cause} {span : Span} {token : Option TokenKind} (h : E ⟨cause, span, token⟩) :
    Finishes E (liftM (Build.reject cause span token : Build α) : Reader σ α) s Q :=
  lift (p := fun _ => False) (Build.Finishes.rejects h) fun _ h => h.elim

/-- Nothing is done after an action that never succeeds. -/
theorem stops {f : α → Reader σ β} (hx : Finishes E x s fun _ _ => False) : Finishes E (x >>= f) s R :=
  hx.seq fun _ _ h => h.elim

theorem readSeq {f : σ → Reader σ β} (h : Finishes E (f s) s R) : Finishes E (get >>= f) s R :=
  seq (P := fun a s' => a = s ∧ s' = s) (Build.Finishes.done ⟨rfl, rfl⟩) fun _ _ ⟨ha, hs⟩ => by
    rw [ha, hs]
    exact h

theorem puts {s' : σ} {Q : PUnit → σ → Prop} (h : Q ⟨⟩ s') : Finishes E (set s' : Reader σ PUnit) s Q :=
  Build.Finishes.done h

theorem updates {f : σ → σ} {Q : PUnit → σ → Prop} (h : Q ⟨⟩ (f s)) :
    Finishes E (modify f : Reader σ PUnit) s Q :=
  Build.Finishes.done h

theorem branch {c : Prop} [Decidable c] (hx : c → Finishes E x s Q) (hy : ¬ c → Finishes E y s Q) :
    Finishes E (if c then x else y) s Q := by
  split
  · next h => exact hx h
  · next h => exact hy h

/-- A loop finishes if every turn after which it goes on reads something. -/
theorem collect {turn : Reader σ (Turn α)} (k : Nat) : ∀ (turns : Nat) (s : σ), m.Within turns s →
    (∀ s', m.Reads 0 s s' → Finishes E turn s' fun t => m.Reads (t.least k) s') →
      Finishes E (Reader.collect turn turns) s fun _ => m.Reads k s
  | 0, _, hs, _ => absurd hs.lt (Nat.not_lt_zero _)
  | turns + 1, s, hs, h => by
    refine seq (h s (.refl hs.proper)) fun t s' ht => ?_
    cases t with
    | stop => exact done ht
    | last a => exact done ht
    | more a =>
      have hread : m.Reads 1 s s' := ht.mono (Nat.le_add_left 1 k)
      have hrest := collect k turns s' (hread.deeper hs) fun s'' hs'' =>
        h s'' ((hread.mono (Nat.zero_le 1)).on hs'')
      exact hrest.seq fun _ s'' hs'' => done ((ht.mono (Nat.le_succ k)).on hs'')

theorem extend {step : α → Reader σ (Option α)} : ∀ (turns : Nat) (a : α) (s : σ), m.Within turns s →
    (∀ a s', m.Reads 0 s s' → Finishes E (step a) s' fun r => m.Reads (r.elim 0 fun _ => 1) s') →
      Finishes E (Reader.extend step turns a) s fun _ => m.Reads 0 s
  | 0, _, _, hs, _ => absurd hs.lt (Nat.not_lt_zero _)
  | turns + 1, a, s, hs, h => by
    refine seq (h a s (.refl hs.proper)) fun r s' hr => ?_
    cases r with
    | none => exact done hr
    | some b =>
      have hread : m.Reads 1 s s' := hr
      have hmore : m.Reads 0 s s' := hread.mono (Nat.zero_le 1)
      have hrest := extend turns b s' (hread.deeper hs) fun a s'' hs'' => h a s'' (hmore.on hs'')
      exact hrest.weaken fun _ s'' hs'' => hmore.on hs''

end Finishes

variable {n : Nat} {s : σ}

theorem TurnAdvances.collect {turn : Reader σ (Turn α)} (h : TurnAdvances m E n turn) (hs : m.Within n s) :
    Finishes E (Reader.collect turn (m.left s + 1)) s fun _ => m.Reads 0 s :=
  Finishes.collect 0 _ s (Gauge.within_left hs.proper) fun s' hread => h s' (hread.keeps hs)

theorem StepAdvances.extend {step : α → Reader σ (Option α)} (h : StepAdvances m E n step) (a : α)
    (hs : m.Within n s) : Finishes E (Reader.extend step (m.left s + 1) a) s fun _ => m.Reads 0 s :=
  Finishes.extend _ a s (Gauge.within_left hs.proper) fun a s' hread => h a s' (hread.keeps hs)

end Reader

end ScriptIndex
