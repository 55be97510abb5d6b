import MaskLayout.Proofs.Cell.Reachable

/-!
# Additions are atomic

Additions are atomic. Whatever is added to a reachable cell, at once or through a proposal, is added as a whole, or the
cell stays as it is; and it makes no difference whether an object is added at once or later.
-/

namespace MaskLayout

section Library

variable [PolygonLibrary]

namespace Proposal

variable {α : Type} [CellObject α] {o : α} {c : Cell} {p : Prop} {done : α → Cell → Prop}

/-- What clients rely on when they add an object to a cell. A proposal alone does nothing; an object that cannot be added
leaves the cell as it is; an object that is added already can neither be added nor changed once more; and an object that
is changed by `f` before it is added later ends up as if it had been added so at once. -/
structure Lawful (o : α) (c : Cell) : Prop where
  make_later : (make o false : Edit (Proposal α)) c = .ok ⟨o, false⟩ c
  make_error : ∀ commit x c', (make o commit : Edit (Proposal α)) c = .error x c' → c' = c
  commit_error : ∀ x c', (commit ⟨o, false⟩ : Edit α) c = .error x c' → c' = c
  commit_twice : (commit ⟨o, true⟩ : Edit α) c = .error (.composition .alreadyCommitted) c
  editable_twice : editable ⟨o, true⟩ = .error (.composition .changeCommitted)
  edited : ∀ f : α → α,
    (do let p ← make o false; let e ← Edit.check p.editable; commit { p with object := f e } : Edit α) c =
      (do let p ← make (f o) true; return p.object : Edit α) c

theorem lawful_of_decides (h : Edit.Decides (CellObject.addTo o) c p done) : Lawful o c where
  make_later := rfl
  make_error commit x c' hrun := ((Edit.decides_make h commit).of_error hrun).1
  commit_error x c' hrun := (h.of_error hrun).1
  commit_twice := rfl
  editable_twice := rfl
  edited f := by
    simp only [make, editable, commit, if_true, Bool.false_eq_true, if_false, pure_bind, Edit.check, bind_assoc, bind_pure]

end Proposal

namespace CellOf

variable {c : Cell}

/-- A call other than one that binds an instance anew leaves a reachable cell as it is if it fails. -/
theorem Reachable.eq_of_error (h : Reachable c) {call : CellCall} (hcall : ∀ name m, call ≠ .op (.setMaster name m))
    (hmasters : ∀ m ∈ call.masters, Reachable m.cell) {x : LayoutError} {c' : Cell} (hrun : call.edit c = .error x c') :
    c' = c := by
  by_cases hplain : call.Plain
  · exact (Edit.ends_plain h.regular hplain fun m hm => (hmasters m hm).offers).of_error hrun
  · unfold CellCall.Plain at hplain
    split at hplain
    · exact absurd rfl (hcall _ _)
    · exact ((Edit.decides_setMode h.regular _).of_error hrun).1
    · exact absurd trivial hplain

/-- Additions to a reachable cell, and renamings, parameters and modes, change nothing if they fail, at once as well as
through proposals. This holds of arrays as a whole: none of them stops after some of its elements. -/
theorem Reachable.additions_atomic (h : Reachable c) :
    (∀ call : CellCall, (∀ name m, call ≠ .op (.setMaster name m)) → (∀ m ∈ call.masters, Reachable m.cell) →
      ∀ x c', call.edit c = .error x c' → c' = c) ∧
    (∀ key horiz points halfWidth styles commit x c',
      Edit.proposePath key horiz points halfWidth styles commit c = .error x c' → c' = c) ∧
    (∀ key horiz points widths spaces styles commit x c',
      Edit.proposeBus key horiz points widths spaces styles commit c = .error x c' → c' = c) ∧
    (∀ o : ShapeOn, Proposal.Lawful o c) ∧ (∀ o : Pin, Proposal.Lawful o c) ∧ (∀ o : ViaDrawing, Proposal.Lawful o c) ∧
    (∀ o : Label, Proposal.Lawful o c) ∧ (∀ o : Blockage, Proposal.Lawful o c) ∧
    (∀ o : Boundary, Proposal.Lawful o c) ∧
    ∀ o : Instance, (∀ m, o.bound? = some m → Reachable m.cell) → Proposal.Lawful o c := by
  have hregular := h.regular
  refine ⟨fun call hcall hmasters x c' => h.eq_of_error hcall hmasters, ?_, ?_, ?_, ?_, ?_, ?_, ?_, ?_, ?_⟩
  · intro key horiz points halfWidth styles commit x c' hrun
    exact ((Edit.decides_proposePath hregular halfWidth commit).of_error hrun).1
  · intro key horiz points widths spaces styles commit x c' hrun
    exact ((Edit.decides_proposeBus hregular widths spaces commit).of_error hrun).1
  · exact fun o => Proposal.lawful_of_decides (Edit.decides_shape hregular o)
  · exact fun o => Proposal.lawful_of_decides (Edit.decides_pin hregular o)
  · exact fun o => Proposal.lawful_of_decides (Edit.decides_via hregular o)
  · exact fun o => Proposal.lawful_of_decides (Edit.decides_label hregular o)
  · exact fun o => Proposal.lawful_of_decides (Edit.decides_blockage hregular o)
  · exact fun o => Proposal.lawful_of_decides (Edit.decides_boundary hregular o)
  · intro o hmasters
    exact Proposal.lawful_of_decides (Edit.decides_inst hregular o fun m hm => (hmasters m hm).offers)

end CellOf

end Library

open scoped ExactPolygons

namespace CellOf

/-- A second instance of a name. -/
def secondPlate : Instance := ⟨"I0", .bound (.mk 3 (plate 1 1)), ⟨⟨0, 0⟩, .r0⟩, ⟨1, 1, 0, 0⟩⟩

theorem additions_atomic_stack :
    Reachable stack ∧
    (∃ x, CellCall.edit (.op (.rects ⟨9, 0⟩ true (.ofCoords 0 0 1 1) ⟨2, 2, 3, 3⟩)) stack = .error x stack) ∧
    ∃ x, (Proposal.commit ⟨secondPlate, false⟩ : Edit Instance) stack = .error x stack := by
  obtain ⟨hcalls, -, -, -, -, -, -, -, -, hinstances⟩ := reachable_stack.additions_atomic
  refine ⟨reachable_stack, ?_, ?_⟩
  · obtain ⟨x, hx⟩ := Edit.exists_error_of_fails (c := stack)
      (e := CellCall.edit (.op (.rects ⟨9, 0⟩ true (.ofCoords 0 0 1 1) ⟨2, 2, 3, 3⟩))) (by decide +kernel)
    have hsame := hcalls _ (by simp) (by simp [CellCall.masters, CellOp.masters]) x _ hx
    exact ⟨x, hx.trans (congrArg _ hsame)⟩
  · obtain ⟨x, hx⟩ := Edit.exists_error_of_fails (c := stack)
      (e := (Proposal.commit ⟨secondPlate, false⟩ : Edit Instance)) (by decide +kernel)
    have hmasters : ∀ m, secondPlate.bound? = some m → Reachable m.cell := by
      rintro _ ⟨⟩
      exact reachable_plate 1 1
    exact ⟨x, hx.trans (congrArg _ ((hinstances secondPlate hmasters).commit_error x _ hx))⟩

end CellOf

end MaskLayout
