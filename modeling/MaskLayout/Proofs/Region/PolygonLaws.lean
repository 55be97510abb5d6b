import MaskLayout.Proofs.Number.Rounding
import MaskLayout.Proofs.Region.Solid
import MaskLayout.Region.PolygonLibrary

/-!
# Laws of a library of polygons

What a theorem may rely on of a library of polygons. Polygons are united as sets of points, where a ring fills what it
covers by the even-odd rule and parts without area count for nothing. A bare ring meets a rectangle where it runs along
or winds around points, and united polygons where they fill points. The area of united rectilinear polygons is the
number of their unit squares.

## Implementation notes

Every law is about rings and rectangles whose coordinates are whole, and gives their grid points apart from the
floating-point numbers. So a law says nothing about how coordinates are rounded: that is up to `Point.rounded`, the
rounding that points undergo before the library sees them.
-/

namespace MaskLayout

/-- Whether a point with floating-point coordinates is a grid point. -/
def FloatPoint.Is (q : FloatPoint) (p : Point) : Prop := q.x.Holds p.x ∧ q.y.Holds p.y

instance (q : FloatPoint) (p : Point) : Decidable (q.Is p) := inferInstanceAs (Decidable (_ ∧ _))

namespace Point

/-- Whether floating-point numbers hold the coordinates of a grid point exactly. -/
def Held (p : Point) : Prop := Binary64.Held p.x ∧ Binary64.Held p.y

instance : DecidablePred Held := fun p => inferInstanceAs (Decidable (Binary64.Held p.x ∧ Binary64.Held p.y))

theorem Held.toFloat_is {p : Point} (h : p.Held) : p.toFloat.Is p := h

/-- The grid point that a point is for a library of polygons. -/
def rounded (p : Point) : Point := ⟨Binary64.rounded p.x, Binary64.rounded p.y⟩

theorem Held.rounded_eq {p : Point} (h : p.Held) : p.rounded = p := Point.ext h.1.nearest_eq h.2.nearest_eq

theorem toFloat_is_rounded {p : Point} (h : Box.ofPoint p ≤ Box.everything) : p.toFloat.Is p.rounded := by
  simp only [Box.le_def, Box.ofPoint, Box.everything, Box.farLow, Box.farHigh] at h
  exact ⟨Binary64.ofInt_holds_rounded (by omega), Binary64.ofInt_holds_rounded (by omega)⟩

end Point

namespace Loop

/-- A loop with its points as they are for a library of polygons. -/
def rounded (l : Loop) : Loop := l.map Point.rounded

@[simp] theorem length_rounded (l : Loop) : l.rounded.length = l.length := List.length_map _

theorem forall₂_toFloat {l : Loop} {f : Point → Point} (h : ∀ p ∈ l, p.toFloat.Is (f p)) :
    List.Forall₂ FloatPoint.Is (l.map Point.toFloat) (l.map f) := by
  rw [List.forall₂_map_left_iff, List.forall₂_map_right_iff, List.forall₂_same]
  exact h

theorem traces_rounded {l : Loop} (h : l.box ≤ Box.everything) :
    List.Forall₂ FloatPoint.Is (l.map Point.toFloat) l.rounded :=
  forall₂_toFloat fun p hp => Point.toFloat_is_rounded ((box_le_iff.1 h).2 p hp)

theorem rounded_of_held {l : Loop} (h : ∀ p ∈ l, p.Held) : l.rounded = l :=
  (List.map_congr_left fun p hp => (h p hp).rounded_eq).trans l.map_id

theorem traces_of_held {l : Loop} (h : ∀ p ∈ l, p.Held) : List.Forall₂ FloatPoint.Is (l.map Point.toFloat) l := by
  have htraces := forall₂_toFloat (f := id) fun p hp => (h p hp).toFloat_is
  rwa [List.map_id] at htraces

end Loop

namespace Box

/-- A box with its corners as they are for a library of polygons. -/
def rounded (b : Box) : Box := .ofCorners b.lo.rounded b.hi.rounded

/-- A box in the layout that meets another one is handed over with its corners rounded. -/
theorem toFloat_is_of_intersects {b c : Box} (h : c.intersects b = true) (hrange : b ≤ everything) :
    b.isEmpty = false ∧ b.toFloat.lo.Is b.lo.rounded ∧ b.toFloat.hi.Is b.hi.rounded := by
  have hb : b.isEmpty = false := by
    simp only [intersects, Bool.and_eq_true, Bool.not_eq_true'] at h
    tauto
  obtain ⟨hlo, hhi⟩ := (le_iff_corners hb).1 hrange
  exact ⟨hb, Point.toFloat_is_rounded hlo, Point.toFloat_is_rounded hhi⟩

end Box

namespace PolygonLibrary

variable [PolygonLibrary]

/-- Polygons made from rings whose edges are all horizontal or vertical. -/
inductive Rectilinear : Polygons → Prop
  | none : Rectilinear PolygonLibrary.none
  | ofRing {ring} {l : Loop} (htraces : List.Forall₂ FloatPoint.Is ring l) (hl : l.Rectilinear) :
      Rectilinear (PolygonLibrary.ofRing ring)
  | ofRect {r : FloatRect} {p q} (hlo : r.lo.Is p) (hhi : r.hi.Is q) : Rectilinear (PolygonLibrary.ofRect r)
  | union {a b} (ha : Rectilinear a) (hb : Rectilinear b) : Rectilinear (PolygonLibrary.union a b)

/-- `Lawful fill` says that a library unites polygons as the sets of points that `fill` gives for them, and that it
tests and measures polygons accordingly. -/
structure Lawful (fill : Polygons → Set (ℝ × ℝ)) : Prop where
  fill_none : fill none = ∅
  fill_ofRing {ring} {l : Loop} (htraces : List.Forall₂ FloatPoint.Is ring l) (hlength : 3 ≤ l.length) :
    fill (ofRing ring) = l.filled
  fill_ofRect {r : FloatRect} {p q} (hlo : r.lo.Is p) (hhi : r.hi.Is q) :
    fill (ofRect r) = Loop.filled (Box.ofCorners p q).corners
  fill_union (a b) : fill (union a b) = fill a ∪ fill b
  area_none : unsignedArea none = .ofInt 0
  area_union {a b} {squares : Finset Point} (ha : Rectilinear a) (hb : Rectilinear b)
    (hfill : fill (union a b) = Plane.squares squares) : unsignedArea (union a b) = .ofInt squares.card
  intersects_ofRing {ring} {l : Loop} {r : FloatRect} {p q} (htraces : List.Forall₂ FloatPoint.Is ring l)
    (hlength : 3 ≤ l.length) (hlo : r.lo.Is p) (hhi : r.hi.Is q) :
    intersects (ofRing ring) r = true ↔ ((Box.ofCorners p q).region ∩ l.solid).Nonempty
  intersects_union {a b} {r : FloatRect} {p q} (hlo : r.lo.Is p) (hhi : r.hi.Is q) :
    intersects (union a b) r = true ↔ ((Box.ofCorners p q).region ∩ fill (union a b)).Nonempty

end PolygonLibrary

end MaskLayout
