import MaskLayout.Proofs.Plane.Compass
import MaskLayout.Proofs.Plane.Square
import Mathlib.Data.List.Rotate

/-!
# Kinds of loops

What the checks of loops accept: a loop with enough points whose kind admits the step from every point to the next
one, and from the last point back to the first one. The orientations only turn and mirror steps, and every kind
admits a step together with its turned and mirrored forms, so the image of a loop is of the same kind.
-/

namespace MaskLayout

namespace Loop

/-- The edges lead from every point to the next one around the loop. -/
theorem mem_edges_iff {l : Loop} {p q : Point} :
    (p, q) ∈ l.edges ↔ ∃ i, l[i]? = some p ∧ l[(i + 1) % l.length]? = some q := by
  have hnext {i : Nat} (hi : i < l.length) : (l.drop 1 ++ l.take 1)[i]? = l[(i + 1) % l.length]? := by
    rw [← List.rotate_eq_drop_append_take (Nat.one_le_of_lt hi), List.getElem?_rotate hi]
  simp only [edges, List.mem_iff_getElem?, List.getElem?_zip_eq_some]
  refine exists_congr fun i => and_congr_right fun hp => ?_
  rw [hnext (List.getElem?_eq_some_iff.1 hp).1]

theorem edges_transform (l : Loop) (t : Transform) :
    (l.transform t).edges = l.edges.map fun e => (t.apply e.1, t.apply e.2) := by
  simp only [edges, transform, ← List.map_drop, ← List.map_take, ← List.map_append, List.zip_map]
  rfl

end Loop

namespace LoopKind

variable {kind : LoopKind} {l l' : Loop}

/-- Whether a loop of this kind may step by `d` from a point to the next one. -/
def Admits : LoopKind → Point → Prop
  | rectilinear, d => d.x = 0 ∨ d.y = 0
  | diagonal, d => d.Octilinear
  | any, _ => True

/-- The loops of a kind: they have enough points, and every step around the loop is admitted. -/
structure Fits (kind : LoopKind) (l : Loop) : Prop where
  points : kind.leastPoints ≤ l.length
  steps : ∀ i p q, l[i]? = some p → l[(i + 1) % l.length]? = some q → kind.Admits (q - p)

theorem allows_iff {d : Point} : kind.allows d = true ↔ kind.Admits d := by
  cases kind with
  | rectilinear => simp only [allows, Admits, Bool.or_eq_true, beq_iff_eq]
  | diagonal => exact Point.allows_diagonal_iff
  | any => exact iff_of_true rfl trivial

theorem fits_iff_edges : kind.Fits l ↔ kind.leastPoints ≤ l.length ∧ ∀ e ∈ l.edges, kind.Admits (e.2 - e.1) := by
  constructor
  · rintro ⟨hpoints, hsteps⟩
    refine ⟨hpoints, fun (p, q) he => ?_⟩
    obtain ⟨i, hp, hq⟩ := Loop.mem_edges_iff.1 he
    exact hsteps i p q hp hq
  · rintro ⟨hpoints, hedges⟩
    exact ⟨hpoints, fun i p q hp hq => hedges (p, q) (Loop.mem_edges_iff.2 ⟨i, hp, hq⟩)⟩

/-- A check accepts exactly the loops of its kind, and answers them as they are. -/
theorem check_iff : kind.check l = .ok l' ↔ l = l' ∧ kind.Fits l := by
  rw [fits_iff_edges, check]
  by_cases hpoints : l.length < kind.leastPoints
  · rw [if_pos hpoints]
    constructor
    · intro h
      cases h
    · rintro ⟨-, hleast, -⟩
      omega
  · rw [if_neg hpoints, and_iff_right (Nat.not_lt.1 hpoints)]
    cases hfind : l.edges.find? fun e => !kind.allows (e.2 - e.1) with
    | none =>
        have hall : ∀ e ∈ l.edges, kind.Admits (e.2 - e.1) := by
          intro e he
          exact allows_iff.1 (by simpa using List.find?_eq_none.1 hfind e he)
        exact ⟨fun h => ⟨Except.ok.inj h, hall⟩, fun h => congrArg Except.ok h.1⟩
    | some e =>
        constructor
        · intro h
          cases h
        · rintro ⟨-, hall⟩
          have hallows := allows_iff.2 (hall e (List.mem_of_find?_eq_some hfind))
          have hnot := List.find?_some hfind
          simp only [hallows, Bool.not_true, Bool.false_eq_true] at hnot

theorem check_self_iff : kind.check l = .ok l ↔ kind.Fits l :=
  check_iff.trans (and_iff_right rfl)

/-- Every kind admits the turned and mirrored forms of the steps that it admits. -/
theorem admits_act_iff (o : Orientation) (d : Point) : kind.Admits (o.matrix.act d) ↔ kind.Admits d := by
  cases kind with
  | rectilinear =>
      cases o <;> simp only [Admits, Orientation.matrix, Matrix2.act] <;> omega
  | diagonal =>
      cases o <;> simp only [Admits, Point.Octilinear, Orientation.matrix, Matrix2.act] <;> omega
  | any => rfl

/-- The image of a loop is of a kind exactly if the loop is. -/
theorem fits_transform_iff (t : Transform) : kind.Fits (l.transform t) ↔ kind.Fits l := by
  simp only [fits_iff_edges, Loop.edges_transform, List.forall_mem_map, Transform.apply_sub_apply, admits_act_iff]
  rw [Loop.transform, List.length_map]

end LoopKind

end MaskLayout
