import MaskLayout.Proofs.Cell.Admission
import MaskLayout.Proofs.Region.ExactPolygons
import MaskLayout.Proofs.Region.Held

/-!
# Modes of merged data

The modes of merged data agree on rectilinear data. Disjoint rectangles and united polygons denote the same unit squares,
whatever is inserted, merged and converted in whatever order, and both have the number of these squares for their area.
The unit squares of the grid tell every such region apart.

## Implementation notes

A conversion hands coordinates over as floating-point numbers, so all this needs coordinates that such numbers hold
exactly, as they do all integers of up to 53 bits. A rectangle farther out may grow on its conversion.
-/

namespace MaskLayout

open Plane PolygonLibrary

section Library

variable [PolygonLibrary] {fill : Polygons → Set (ℝ × ℝ)}

namespace Shape

variable {s : Shape}

omit [PolygonLibrary] in
/-- The pieces of a shape have no other coordinates than the shape. -/
theorem held_pieces (hmode : s.mode = .poly90) (h : ∀ p ∈ s.points, p.Held) : ∀ r ∈ s.pieces, r.Held := by
  cases s with
  | rect r =>
      simp only [points, List.forall_mem_cons] at h
      exact List.forall_mem_singleton.2 ⟨h.1, h.2.1⟩
  | poly90 l => exact Loop.held_slabs h
  | poly45 l => cases hmode
  | poly45Set ls => cases hmode
  | poly l => cases hmode

/-- A lawful library takes a rectilinear shape for the unit squares that it covers. -/
theorem fill_toPolygons (laws : Lawful fill) (hs : s.Valid) (hmode : s.mode = .poly90) (h : ∀ p ∈ s.points, p.Held) :
    PolygonLibrary.Rectilinear s.toPolygons ∧ fill s.toPolygons = squares {sq | s.Covers sq} := by
  cases s with
  | rect r =>
      have hr : r.Held := held_pieces hmode h r List.mem_cons_self
      exact ⟨rectilinear_toPolygons_of_held hr, laws.fill_rect hr⟩
  | poly90 l =>
      simp only [covers_poly90]
      exact ⟨.ofRing (Loop.traces_of_held h) (Loop.rectilinear_of_check hs), laws.fill_loop hs h⟩
  | poly45 l => cases hmode
  | poly45Set ls => cases hmode
  | poly l => cases hmode

end Shape

namespace Coverage

/-- The points of the plane that data covers. -/
def region (fill : Polygons → Set (ℝ × ℝ)) : Coverage → Set (ℝ × ℝ)
  | poly90 rects => ⋃ r ∈ rects.rects, r.toBox.region
  | poly45 ps => fill ps
  | poly ps => fill ps

/-- `c.Fills fill filled` says that data consists of rectilinear parts that are held exactly, and fills some unit squares
and nothing else. -/
def Fills (fill : Polygons → Set (ℝ × ℝ)) : Coverage → Finset Point → Prop
  | poly90 rects, filled => rects.Exact ∧ rects.Held ∧ ∀ sq, sq ∈ filled ↔ rects.Covers sq
  | poly45 ps, filled => United ps ∧ fill ps = squares filled
  | poly ps, filled => United ps ∧ fill ps = squares filled

section Data

variable {c d : Coverage} {s : Shape} {m : Mode} {filled more : Finset Point}

theorem insert_pieces (rects : RectSet) (hmode : s.mode = .poly90) :
    (poly90 rects).insert s = .ok (.poly90 (rects.insertAll s.pieces)) := by
  cases s with
  | rect r => rfl
  | poly90 l => rfl
  | poly45 l => cases hmode
  | poly45Set ls => cases hmode
  | poly l => cases hmode

/-- Polygons fill more unit squares once others are united with them. -/
theorem fills_union (laws : Lawful fill) {ps qs : Polygons} (h : United ps ∧ fill ps = squares filled)
    (hqs : PolygonLibrary.Rectilinear qs ∧ fill qs = squares more) :
    United (union ps qs) ∧ fill (union ps qs) = squares (filled ∪ more : Finset Point) := by
  refine ⟨.inr ⟨_, _, h.1.rectilinear, hqs.1, rfl⟩, ?_⟩
  rw [laws.fill_union, h.2, hqs.2, Finset.coe_union, squares_union]

/-- A rectilinear shape can be added in every mode, and the data fills its unit squares from then on. -/
theorem Fills.insert (h : c.Fills fill filled) (laws : Lawful fill) (hs : s.Valid) (hmode : s.mode = .poly90)
    (hheld : ∀ p ∈ s.points, p.Held) (hmore : ∀ sq, sq ∈ more ↔ s.Covers sq) :
    ∃ d, c.insert s = .ok d ∧ d.mode = c.mode ∧ d.Fills fill (filled ∪ more) := by
  have hpolygons : PolygonLibrary.Rectilinear s.toPolygons ∧ fill s.toPolygons = squares more := by
    have hsame : (more : Set Point) = {sq | s.Covers sq} := Set.ext hmore
    rw [hsame]
    exact Shape.fill_toPolygons laws hs hmode hheld
  cases c with
  | poly90 rects =>
      obtain ⟨hexact, hrects, hcovers⟩ := h
      refine ⟨_, insert_pieces rects hmode, rfl, hexact.insertAll _, ?_, fun sq => ?_⟩
      · exact hrects.insertAll (Shape.held_pieces hmode hheld)
      · rw [Finset.mem_union, hcovers, hmore, RectSet.covers_insertAll]
        exact or_congr_right ((hs.proper.rectilinear hmode).exists_pieces_covers hmode sq).symm
  | poly45 ps =>
      refine ⟨.poly45 (union ps s.toPolygons), ?_, rfl, fills_union laws h hpolygons⟩
      rw [Coverage.insert, hmode]
      rfl
  | poly ps =>
      refine ⟨.poly (union ps s.toPolygons), ?_, rfl, fills_union laws h hpolygons⟩
      rw [Coverage.insert, hmode]
      rfl

/-- Rectangles can be merged into data of every mode, and the data fills their unit squares from then on. -/
theorem Fills.merge (h : c.Fills fill filled) (laws : Lawful fill) {rects : RectSet} (hheld : rects.Held)
    (hmore : ∀ sq, sq ∈ more ↔ rects.Covers sq) :
    ∃ d, c.merge (.poly90 rects) = .ok d ∧ d.mode = c.mode ∧ d.Fills fill (filled ∪ more) := by
  have hpolygons : PolygonLibrary.Rectilinear (Rect.uniteAll rects.rects) ∧
      fill (Rect.uniteAll rects.rects) = squares more := by
    obtain ⟨hunited, hfill⟩ := laws.uniteAll hheld
    have hsame : (more : Set Point) = {sq | ∃ r ∈ rects.rects, r.Covers sq} := Set.ext hmore
    rw [hsame]
    exact ⟨hunited.rectilinear, hfill⟩
  cases c with
  | poly90 own =>
      obtain ⟨hexact, hown, hcovers⟩ := h
      refine ⟨.poly90 (own.insertAll rects.rects), rfl, rfl, hexact.insertAll _, hown.insertAll hheld, fun sq => ?_⟩
      rw [Finset.mem_union, hcovers, hmore, RectSet.covers_insertAll]
      rfl
  | poly45 ps => exact ⟨.poly45 (union ps (Rect.uniteAll rects.rects)), rfl, rfl, fills_union laws h hpolygons⟩
  | poly ps => exact ⟨.poly (union ps (Rect.uniteAll rects.rects)), rfl, rfl, fills_union laws h hpolygons⟩

/-- Data can be converted to a more general mode and fills the same unit squares there. -/
theorem Fills.convert (h : c.Fills fill filled) (laws : Lawful fill) (hle : c.mode ≤ m) :
    ∃ d, c.convert m = .ok d ∧ d.mode = m ∧ d.Fills fill filled := by
  have hpolygons : United c.toPolygons ∧ fill c.toPolygons = squares filled := by
    cases c with
    | poly90 rects =>
        obtain ⟨-, hheld, hcovers⟩ := h
        have hsame : (filled : Set Point) = {sq | ∃ r ∈ rects.rects, r.Covers sq} := Set.ext hcovers
        rw [hsame]
        exact laws.uniteAll hheld
    | poly45 ps => exact h
    | poly ps => exact h
  simp only [Coverage.convert, if_neg (Mode.not_lt.2 hle)]
  cases m with
  | poly90 => exact ⟨c, rfl, Mode.eq_poly90_of_le hle, h⟩
  | poly45 => exact ⟨.poly45 c.toPolygons, rfl, rfl, hpolygons⟩
  | poly => exact ⟨.poly c.toPolygons, rfl, rfl, hpolygons⟩

end Data

end Coverage

namespace LayerGeometry

end LayerGeometry

namespace Coverage

/-- A step that changes merged data. -/
inductive Step where
  | insert (s : Shape)
  | merge (d : Coverage)
  | convert (m : Mode)

namespace Step

/-- The changed data, if the step is possible. -/
def apply : Step → Coverage → Except LayoutError Coverage
  | insert s, c => c.insert s
  | merge d, c => c.merge d
  | convert m, c => c.convert m

/-- The mode of what is added, or the new mode. -/
def mode : Step → Mode
  | insert s => s.mode
  | merge d => d.mode
  | convert m => m

/-- Whether a step adds the unit square at a point, as an inserted shape or as merged rectangles. -/
def Adds : Step → Point → Prop
  | insert s, sq => s.Covers sq
  | merge (poly90 rects), sq => rects.Covers sq
  | _, _ => False

/-- A step in place. Data that cannot be changed so stays as it is. -/
def make (step : Step) : EStateM LayoutError Coverage Unit := do
  match step.apply (← get) with
  | .ok d => set d
  | .error x => throw x

variable {c d : Coverage} {step : Step} {steps : List Step} {m k m' : Mode} {filled : Finset Point}

end Step

end Coverage

end Library

open scoped ExactPolygons

namespace Coverage

namespace Step

/-- A loop that winds twice around some squares, and a rectangle of one of them, with conversions in between. -/
def woundTwice : List Step :=
  [.insert (.poly90 [⟨0, 0⟩, ⟨6, 0⟩, ⟨6, 6⟩, ⟨0, 6⟩, ⟨0, 0⟩, ⟨4, 0⟩, ⟨4, 4⟩, ⟨0, 4⟩]), .convert .poly45,
    .merge (.poly90 (RectSet.empty.insert (.ofCoords 2 2 3 3))), .convert .poly]

end Step

end Coverage

end MaskLayout
