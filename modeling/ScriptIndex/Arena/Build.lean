import ScriptIndex.Arena.Basic

/-! # Reading into an arena

A `Reader` reads some input and puts nodes into an arena. It may fail; the nodes that it has put into
the arena by then stay there. -/

namespace ScriptIndex

/-- An action on an arena that may fail. -/
abbrev Build := EStateM Failure Arena

/-- An action that reads an input of type `σ`. -/
abbrev Reader (σ : Type) := StateT σ Build

namespace Build

def reject {α : Type} (cause : Cause) (span : Span) (token : Option TokenKind) : Build α :=
  throw (.rejected ⟨cause, span, token⟩)

def push (kind : Kind) (span : Span) : Build NodeId :=
  modifyGet fun arena => arena.push kind span

/-- Runs an update of the arena that may be refused. -/
def update (f : Arena → Except Failure Arena) : Build Unit := do
  match f (← get) with
  | .ok arena => set arena
  | .error failure => throw failure

/-- A new node with the given children, none of which may be in a tree yet. -/
def node (kind : Kind) (span : Span) (children : List NodeId) : Build NodeId := do
  let node ← push kind span
  children.forM fun child => update (·.append node child)
  return node

end Build

namespace Reader

variable {σ α : Type}

/-- What one turn of a loop comes to. -/
inductive Turn (α : Type)
  | stop
  | last (item : α)
  | more (item : α)

/-- Collects the items of at most `turns` turns. -/
def collect (turn : Reader σ (Turn α)) : Nat → Reader σ (List α)
  | 0 => throw .exhausted
  | turns + 1 => do
    match ← turn with
    | .stop => return []
    | .last item => return [item]
    | .more item => return item :: (← collect turn turns)

/-- Applies a step until it gives nothing, for at most `turns` turns. -/
def extend (step : α → Reader σ (Option α)) : Nat → α → Reader σ α
  | 0, _ => throw .exhausted
  | turns + 1, a => do
    match ← step a with
    | some b => extend step turns b
    | none => return a

end Reader

end ScriptIndex
