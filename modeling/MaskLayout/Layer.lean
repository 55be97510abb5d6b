import MaskLayout.KeyMap

/-!
# Layer keys

Layer keys: a layer and a purpose, by their ids, name one drawing plane of a cell.
-/

namespace MaskLayout

open Std

/-- A layer and a purpose. -/
structure LayerKey where
  layer : Int
  purpose : Int
deriving DecidableEq, Inhabited

namespace LayerKey

/-- Keys are ordered by layer, then by purpose. -/
def order : LayerKey → LayerKey → Ordering :=
  compareLex (compareOn layer) (compareOn purpose)

instance : Ord LayerKey := ⟨order⟩

instance : TransOrd LayerKey := inferInstanceAs (TransCmp (compareLex (compareOn layer) (compareOn purpose)))

instance : LawfulEqOrd LayerKey where
  eq_of_compare {a b} h := by
    have h : (compareOn layer a b).then (compareOn purpose a b) = .eq := h
    simp only [Ordering.then_eq_eq, compareOn] at h
    cases a; cases b
    simp_all

end LayerKey

end MaskLayout
