import ScriptIndex.Proofs.CheckedAccess
import ScriptIndex.Proofs.Runs

/-! # Actions with checked access

An action with checks does what the other actions do, and stops at a breach besides. `Mirrors` says that such an action
ends as another one does, whatever the arena, so that it meets no breach. The rules below compose such pairs of actions.
The input of an action with checks need not be the same as that of the other: a `view` leads from one to the other. -/

namespace ScriptIndex

/-- Why an action with checks stops. -/
inductive Stop
  | breach (breach : Breach)
  | failed (failure : Failure)
deriving Repr, DecidableEq

/-- An action on an arena that may fail, or breach. -/
abbrev CheckedBuild := EStateM Stop Arena

/-- An action with checks that reads an input of type `τ`. -/
abbrev CheckedReader (τ : Type) := StateT τ CheckedBuild

namespace CheckedBuild

def ofExcept {α : Type} : Except Breach α → CheckedBuild α
  | .ok a => pure a
  | .error breach => throw (.breach breach)

/-- An action that has nothing to check. -/
def ofBuild {α : Type} (x : Build α) : CheckedBuild α := fun arena =>
  match x arena with
  | .ok a after => .ok a after
  | .error failure after => .error (.failed failure) after

instance : MonadLift (Except Breach) CheckedBuild := ⟨ofExcept⟩

instance : MonadLift Build CheckedBuild := ⟨ofBuild⟩

end CheckedBuild

namespace CheckedReader

variable {τ α : Type}

instance : MonadLift (Reader τ) (CheckedReader τ) := ⟨fun x t => CheckedBuild.ofBuild (x t)⟩

/-- The loop `Reader.collect`, with checks. -/
def collect (turn : CheckedReader τ (Reader.Turn α)) : Nat → CheckedReader τ (List α)
  | 0 => throw (.failed .exhausted)
  | turns + 1 => do
    match ← turn with
    | .stop => return []
    | .last item => return [item]
    | .more item => return item :: (← collect turn turns)

/-- The loop `Reader.extend`, with checks. -/
def extend (step : α → CheckedReader τ (Option α)) : Nat → α → CheckedReader τ α
  | 0, _ => throw (.failed .exhausted)
  | turns + 1, a => do
    match ← step a with
    | some b => extend step turns b
    | none => return a

end CheckedReader

namespace CheckedBuild

variable {α β γ δ : Type} {P : α → β → Prop} {Q : γ → δ → Prop}

/-- Both runs give results, related by `Q`, or both fail for the same reason. They leave the same arena. -/
inductive Outcomes (Q : α → β → Prop) : EStateM.Result Stop Arena α → EStateM.Result Failure Arena β → Prop
  | ok {a : α} {b : β} (h : Q a b) (arena : Arena) : Outcomes Q (.ok a arena) (.ok b arena)
  | failed (failure : Failure) (arena : Arena) : Outcomes Q (.error (.failed failure) arena) (.error failure arena)

def Mirrors (y : CheckedBuild α) (x : Build β) (Q : α → β → Prop) : Prop :=
  ∀ arena, Outcomes Q (y arena) (x arena)

namespace Mirrors

theorem done {a : α} {b : β} (h : P a b) : Mirrors (pure a) (pure b) P := fun arena => .ok h arena

theorem fails (failure : Failure) : Mirrors (throw (.failed failure) : CheckedBuild α) (throw failure : Build β) P :=
  fun arena => .failed failure arena

/-- An action that has nothing to check. -/
theorem lift (x : Build α) : Mirrors (liftM x) x Eq := by
  intro arena
  show Outcomes Eq (ofBuild x arena) (x arena)
  unfold ofBuild
  cases x arena with
  | ok a after => exact .ok rfl after
  | error failure after => exact .failed failure after

theorem seq {y : CheckedBuild α} {x : Build β} {g : α → CheckedBuild γ} {f : β → Build δ} (hx : Mirrors y x P)
    (hf : ∀ a b, P a b → Mirrors (g a) (f b) Q) : Mirrors (y >>= g) (x >>= f) Q := by
  intro arena
  have h := hx arena
  show Outcomes Q (EStateM.bind y g arena) (EStateM.bind x f arena)
  unfold EStateM.bind
  generalize y arena = r at h
  generalize x arena = r' at h
  cases h with
  | ok hab mid => exact hf _ _ hab mid
  | failed failure mid => exact .failed failure mid

theorem imp {P' : α → β → Prop} {y : CheckedBuild α} {x : Build β} (hx : Mirrors y x P)
    (h : ∀ a b, P a b → P' a b) : Mirrors y x P' := by
  intro arena
  have hrun := hx arena
  generalize y arena = r at hrun ⊢
  generalize x arena = r' at hrun ⊢
  cases hrun with
  | ok hab mid => exact .ok (h _ _ hab) mid
  | failed failure mid => exact .failed failure mid

/-- An access that is no breach. -/
theorem access {e : Except Breach α} {a : α} {g : α → CheckedBuild γ} {x : Build δ} (he : e = .ok a)
    (hg : Mirrors (g a) x Q) : Mirrors ((liftM e : CheckedBuild α) >>= g) x Q := by
  rw [he]
  exact hg

theorem mapM {f : α → CheckedBuild γ} {g : α → Build γ} : ∀ {l : List α}, (∀ a ∈ l, Mirrors (f a) (g a) Eq) →
    Mirrors (l.mapM f) (l.mapM g) Eq
  | [], _ => by
    rw [List.mapM_nil, List.mapM_nil]
    exact done rfl
  | a :: l, h => by
    rw [List.mapM_cons, List.mapM_cons]
    obtain ⟨ha, hl⟩ := List.forall_mem_cons.1 h
    refine seq ha ?_
    rintro b _ rfl
    refine seq (mapM hl) ?_
    rintro bs _ rfl
    exact done rfl

/-- Where a run ends with the same results, it is the other run with nothing to check. -/
theorem eq {y : CheckedBuild α} {x : Build α} (h : Mirrors y x Eq) : y = CheckedBuild.ofBuild x := by
  funext arena
  have hrun := h arena
  unfold CheckedBuild.ofBuild
  generalize y arena = r at hrun ⊢
  generalize x arena = r' at hrun ⊢
  cases hrun with
  | ok hab => rw [hab]
  | failed => rfl

end Mirrors

end CheckedBuild

namespace CheckedReader

variable {τ σ α β γ δ : Type} {view : τ → σ} {t : τ}

/-- From an input and its view both actions end alike, with inputs of which one is the view of the other. -/
def Mirrors (view : τ → σ) (y : CheckedReader τ α) (x : Reader σ β) (t : τ) (Q : α → β → τ → Prop) : Prop :=
  CheckedBuild.Mirrors (y t) (x (view t)) fun r r' => r'.2 = view r.2 ∧ Q r.1 r'.1 r.2

namespace Mirrors
variable {y : CheckedReader τ α} {x : Reader σ β} {P : α → β → τ → Prop} {Q : γ → δ → τ → Prop}

theorem done {a : α} {b : β} (h : P a b t) : Mirrors view (pure a) (pure b) t P :=
  CheckedBuild.Mirrors.done ⟨rfl, h⟩

theorem fails (failure : Failure) :
    Mirrors view (throw (.failed failure) : CheckedReader τ α) (throw failure : Reader σ β) t P :=
  CheckedBuild.Mirrors.fails failure

theorem seq {g : α → CheckedReader τ γ} {f : β → Reader σ δ} (hx : Mirrors view y x t P)
    (hf : ∀ a b t', P a b t' → Mirrors view (g a) (f b) t' Q) : Mirrors view (y >>= g) (x >>= f) t Q := by
  refine CheckedBuild.Mirrors.seq hx ?_
  rintro ⟨a, t'⟩ ⟨b, _⟩ ⟨rfl, hab⟩
  exact hf a b t' hab

theorem imp {P' : α → β → τ → Prop} (hx : Mirrors view y x t P) (h : ∀ a b t', P a b t' → P' a b t') :
    Mirrors view y x t P' :=
  CheckedBuild.Mirrors.imp hx fun _ _ hr => ⟨hr.1, h _ _ _ hr.2⟩

/-- Both do the same to the arena, and nothing to their inputs. -/
theorem lift {x : Build γ} {Q : γ → γ → τ → Prop} (h : ∀ a, Q a a t) :
    Mirrors view (liftM x : CheckedReader τ γ) (liftM x : Reader σ γ) t Q := by
  intro arena
  show CheckedBuild.Outcomes _ (CheckedBuild.ofBuild (x >>= fun a => pure (a, t)) arena)
    ((x >>= fun a => pure (a, view t)) arena)
  unfold CheckedBuild.ofBuild
  cases hrun : x arena with
  | ok a after =>
    rw [Build.run_bind_ok hrun, Build.run_bind_ok hrun]
    exact .ok ⟨rfl, h a⟩ after
  | error failure after =>
    rw [Build.run_bind_error hrun, Build.run_bind_error hrun]
    exact .failed failure after

/-- One does with checks what the other does to the arena. -/
theorem liftChecked {z : CheckedBuild γ} {x : Build γ} {Q : γ → γ → τ → Prop} (hz : CheckedBuild.Mirrors z x Eq)
    (h : ∀ a, Q a a t) : Mirrors view (liftM z : CheckedReader τ γ) (liftM x : Reader σ γ) t Q := by
  refine CheckedBuild.Mirrors.seq hz ?_
  rintro a _ rfl
  exact CheckedBuild.Mirrors.done ⟨rfl, h a⟩

theorem rejects (cause : Cause) (span : Span) (token : Option TokenKind) :
    Mirrors view (liftM (Build.reject cause span token : Build γ) : CheckedReader τ γ)
      (liftM (Build.reject cause span token : Build δ) : Reader σ δ) t Q :=
  fun arena => .failed _ arena

theorem access {e : Except Breach α} {a : α} {g : α → CheckedReader τ γ} {x : Reader σ δ} (he : e = .ok a)
    (hg : Mirrors view (g a) x t Q) : Mirrors view ((liftM e : CheckedReader τ α) >>= g) x t Q := by
  rw [he]
  exact hg

theorem readSeq {g : τ → CheckedReader τ γ} {f : σ → Reader σ δ} (h : Mirrors view (g t) (f (view t)) t Q) :
    Mirrors view (get >>= g) (get >>= f) t Q := h

theorem updates {g : τ → τ} {f : σ → σ} {Q : PUnit → PUnit → τ → Prop} (hview : f (view t) = view (g t))
    (h : Q ⟨⟩ ⟨⟩ (g t)) :
    Mirrors view (modify g : CheckedReader τ PUnit) (modify f : Reader σ PUnit) t Q :=
  CheckedBuild.Mirrors.done ⟨hview, h⟩

theorem branch {c c' : Prop} [Decidable c] [Decidable c'] (hc : c' ↔ c) {y y' : CheckedReader τ γ} {x x' : Reader σ δ}
    (hx : c → Mirrors view y x t Q) (hx' : ¬ c → Mirrors view y' x' t Q) :
    Mirrors view (if c then y else y') (if c' then x else x') t Q := by
  by_cases h : c
  · rw [if_pos h, if_pos (hc.2 h)]
    exact hx h
  · rw [if_neg h, if_neg (mt hc.1 h)]
    exact hx' h

/-- A loop with checks in each turn. Its items are the same, and each turn leaves an input that satisfies `I`. -/
theorem collect {I : τ → Prop} {turn : CheckedReader τ (Reader.Turn α)} {turn' : Reader σ (Reader.Turn α)}
    (h : ∀ t, I t → Mirrors view turn turn' t fun a b t' => a = b ∧ I t') : ∀ (n : Nat) {t : τ}, I t →
      Mirrors view (collect turn n) (Reader.collect turn' n) t fun a b t' => a = b ∧ I t'
  | 0, _, _ => fails .exhausted
  | n + 1, t, ht => by
    refine seq (h t ht) ?_
    rintro turned _ t₁ ⟨rfl, ht₁⟩
    cases turned with
    | stop => exact done ⟨rfl, ht₁⟩
    | last item => exact done ⟨rfl, ht₁⟩
    | more item =>
      refine seq (collect h n ht₁) ?_
      rintro items _ t₂ ⟨rfl, ht₂⟩
      exact done ⟨rfl, ht₂⟩

theorem extend {I : τ → Prop} {step : α → CheckedReader τ (Option α)} {step' : α → Reader σ (Option α)}
    (h : ∀ a t, I t → Mirrors view (step a) (step' a) t fun a b t' => a = b ∧ I t') : ∀ (n : Nat) (a : α) {t : τ}, I t →
      Mirrors view (extend step n a) (Reader.extend step' n a) t fun a b t' => a = b ∧ I t'
  | 0, _, _, _ => fails .exhausted
  | n + 1, a, t, ht => by
    refine seq (h a t ht) ?_
    rintro r _ t₁ ⟨rfl, ht₁⟩
    cases r with
    | none => exact done ⟨rfl, ht₁⟩
    | some b => exact extend h n b ht₁

end Mirrors

end CheckedReader

end ScriptIndex
