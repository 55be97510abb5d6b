/-!
# Shared values

Values shared by reference. Two shared values are the same one when they have the same serial number, which is
given out anew for each value that is shared; equal contents alone do not make them the same.
-/

namespace MaskLayout

/-- A shared value with its serial number. -/
structure Shared (α : Type) where
  serial : Nat
  value : α
deriving DecidableEq

namespace Shared

variable {α : Type}

/-- A row of handles to shared values, some of them dropped. -/
abbrev Handles (α : Type) := List (Option (Shared α))

/-- Share a new value. Its serial number is its place in the row, which no other value has. -/
def Handles.share (hs : Handles α) (a : α) : Handles α := hs ++ [some ⟨hs.length, a⟩]

/-- Append another handle to the value at place `i`; of a dropped handle, a dropped one. -/
def Handles.copy (hs : Handles α) (i : Nat) : Handles α := hs ++ [(hs[i]?).join]

/-- Drop the handle at place `i`. -/
def Handles.drop (hs : Handles α) (i : Nat) : Handles α := hs.set i none

/-- The handles that are not dropped, in order. -/
def Handles.live (hs : Handles α) : List (Shared α) := hs.filterMap id

/-- Whether two handles lead to the same shared value. -/
def same (a b : Shared α) : Bool := a.serial == b.serial

/-- How many live handles lead to each live value. -/
def Handles.counts (hs : Handles α) : List Nat :=
  hs.live.map fun a => hs.live.countP a.same

/-- How many different values are still shared. -/
def Handles.distinct (hs : Handles α) : Nat := (hs.live.map (·.serial)).eraseDups.length

end Shared

end MaskLayout
