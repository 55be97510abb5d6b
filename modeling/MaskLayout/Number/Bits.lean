/-!
# Integers of a number of bits

The integers that a number of bits can hold, and what is left of the others.
-/

namespace MaskLayout.Bits

/-- The number of values of `bits` bits. -/
def values (bits : Nat) : Nat := Nat.pow 2 bits

/-- The least signed integer of `bits` bits. -/
def least (bits : Nat) : Int := -(values (bits - 1) : Int)

/-- The greatest signed integer of `bits` bits. -/
def greatest (bits : Nat) : Int := (values (bits - 1) : Int) - 1

/-- Whether an integer fits `bits` bits with its sign. -/
def holds (bits : Nat) (i : Int) : Bool := decide (least bits ≤ i ∧ i ≤ greatest bits)

/-- Whether an integer fits `bits` bits, with its sign or without one. -/
def holdsEither (bits : Nat) (i : Int) : Bool := decide (least bits ≤ i ∧ i < values bits)

/-- The integer of `bits` bits that differs from a given one by a multiple of the number of values. Sums that overflow
go on from the other end. -/
def wrap (bits : Nat) (i : Int) : Int := i.bmod (values bits)

end MaskLayout.Bits
