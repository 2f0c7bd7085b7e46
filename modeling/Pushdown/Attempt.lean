/-!
# Attempts

Steps that may fail and that work on a state. What a step does to the state stays done when it
fails.
-/

namespace Pushdown

/-- A step that may fail, over a state that it may change also when it fails. -/
abbrev Attempt (σ ε α : Type) := ExceptT ε (StateM σ) α

namespace Attempt

variable {σ τ ε δ α β γ : Type}

def ofExcept (r : Except ε α) : Attempt σ ε α := fun s => (r, s)

/-- Both steps, the second also after a failure of the first. The first failure counts. -/
def both (f : α → β → γ) (x : Attempt σ ε α) (y : Attempt σ ε β) : Attempt σ ε γ := fun s =>
  let (a, s) := x s
  let (b, s) := y s
  match a, b with
  | .ok a, .ok b => (.ok (f a b), s)
  | .error e, _ => (.error e, s)
  | .ok _, .error e => (.error e, s)

/-- All steps, each also after failures of others. The first failure counts. -/
def all : List (Attempt σ ε α) → Attempt σ ε (List α)
  | [] => pure []
  | x :: xs => both List.cons x (all xs)

theorem both_state (f : α → β → γ) (x : Attempt σ ε α) (y : Attempt σ ε β) (s : σ) :
    (both f x y s).2 = (y (x s).2).2 := by
  unfold both
  generalize x s = r
  obtain ⟨a, s⟩ := r
  change (match y s with | (b, s) => _ : Except ε γ × σ).2 = _
  generalize y s = r
  obtain ⟨b, s⟩ := r
  cases a <;> cases b <;> rfl

/-- The same step with its failures described in other words. -/
def failingAs (x : Attempt σ ε α) (f : ε → δ) : Attempt σ δ α := fun s =>
  match x s with
  | (.ok a, s) => (.ok a, s)
  | (.error e, s) => (.error (f e), s)

def within (x : Attempt σ ε α) (part : τ → σ) (put : τ → σ → τ) : Attempt τ ε α := fun t =>
  let (a, s) := x (part t)
  (a, put t s)

end Attempt

end Pushdown
