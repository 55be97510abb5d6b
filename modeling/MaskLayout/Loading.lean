import MaskLayout.Error
import MaskLayout.KeyMap
import MaskLayout.Reporter

/-!
# Loading of rules

Loading of rules. A loader keeps a stack of the places it is at: the place of an entry is put onto the stack before the
entry is loaded, and is taken off again when that is done. The first fault ends the loading, and is reported with all
places that are on the stack.
-/

namespace MaskLayout

/-- A reporter of faults at a place in the rules. -/
def Place.reporter (trail : List Place) : Reporter RuleFault LayoutError := ⟨fun f => .load f trail⟩

/-- Computations over a stack of places that can fail. -/
abbrev Loading := StateT (List Place) (Except LayoutError)

namespace Loading

open Std

variable {α β κ : Type}

/-- Put a place onto the stack. -/
def push (place : Place) : Loading Unit := modify fun stack => stack ++ [place]

/-- Take the last place off the stack. -/
def pop : Loading Unit := modify List.dropLast

/-- Load something that reports its faults with the stack as it is. -/
def here (x : Reporter RuleFault LayoutError → Except LayoutError α) : Loading α := do
  x (Place.reporter (← get))

/-- Load something at a place. A fault leaves the place on the stack. -/
def within (place : Place) (x : Reporter RuleFault LayoutError → Except LayoutError α) : Loading α := do
  push place
  let a ← here x
  pop
  return a

/-- Load every entry of a map, in key order, each at its own place. -/
def traverse [Ord κ] [TransOrd κ] [LawfulEqOrd κ] (place : κ → Place)
    (f : κ → α → Reporter RuleFault LayoutError → Except LayoutError β) (m : KeyMap κ α) : Loading (KeyMap κ β) := do
  let es ← m.entries.mapM fun e => do return (e.1, ← within (place e.1) (f e.1 e.2))
  return KeyMap.ofList es

end Loading

end MaskLayout
