/-!
# Reporters

Reporters turn a message into a failure that says where it happened. Loaders of rules report every failure
through one, so the place is added once.
-/

namespace MaskLayout

/-- How a message `φ` becomes a failure `ε`. -/
structure Reporter (φ ε : Type) where
  report : φ → ε

namespace Reporter

variable {φ ε δ α : Type}

/-- Fail with a message. -/
def fail (r : Reporter φ ε) (message : φ) : Except ε α := .error (r.report message)

/-- The value of an option, or a failure. -/
def require (r : Reporter φ ε) (value : Option α) (message : φ) : Except ε α :=
  match value with
  | some a => .ok a
  | none => r.fail message

/-- Nothing if a condition holds, or a failure. -/
def ensure (r : Reporter φ ε) (condition : Bool) (message : φ) : Except ε Unit :=
  if condition then .ok () else r.fail message

/-- A result whose own failure is replaced by the message. -/
def instead (r : Reporter φ ε) (result : Except δ α) (message : φ) : Except ε α :=
  match result with
  | .ok a => .ok a
  | .error _ => r.fail message

end Reporter

end MaskLayout
