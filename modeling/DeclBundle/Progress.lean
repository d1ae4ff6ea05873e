import DeclBundle.Text.Piece

/-!
# Progress

The messages of a run are kept in order, each with the phase in which it came, and those that tell of a
file or of a reference are counted by the words that they begin with. A message that does not bring a phase
of its own begins the writing, unless that has begun.
-/

namespace DeclBundle

inductive Phase where
  | initializing
  | compiling
  | writing
  | completed
  | failed
deriving DecidableEq, Repr

structure Progress where
  phase : Phase
  updates : List (Phase × String)
  processed : Nat
  excluded : Nat
  externs : Nat
deriving DecidableEq, Repr

namespace Progress

def start : Progress := ⟨.initializing, [], 0, 0, 0⟩

def opensWith (words message : String) : Bool := (Text.after? words.toList message.toList).isSome

def nextPhase : Phase → Phase
  | .initializing => .writing
  | .compiling => .writing
  | p => p

def tally (words message : String) : Nat := if opensWith words message then 1 else 0

def update (p : Progress) (message : String) (phase : Option Phase) : Progress :=
  let phase := phase.getD (nextPhase p.phase)
  { phase
    updates := p.updates ++ [(phase, message)]
    processed := p.processed + tally "Processing " message
    excluded := p.excluded + tally "Excluding " message
    externs := p.externs + tally "Writing external dependency " message }

def compilingMessage : String := "Compiling declarations"

def completedMessage (out : String) : String := "Wrote " ++ out

def failedMessage (error : String) : String := "Bundling failed: " ++ error

/-- The progress when the compiler is started. -/
def compiling (p : Progress) : Progress := p.update compilingMessage (some .compiling)

def completed (p : Progress) (out : String) : Progress :=
  p.update (completedMessage out) (some .completed)

def failed (p : Progress) (error : String) : Progress :=
  p.update (failedMessage error) (some .failed)

theorem updates_update (p : Progress) (message : String) (phase : Option Phase) :
    (p.update message phase).updates =
      p.updates ++ [(phase.getD (nextPhase p.phase), message)] := rfl

theorem phase_update (p : Progress) (message : String) (phase : Option Phase) :
    (p.update message phase).phase = phase.getD (nextPhase p.phase) := rfl

end Progress

end DeclBundle
