import MaskLayout.Proofs.Plane.Placement
import MaskLayout.Proofs.Shape

/-!
# Validity under placements

Placements never check the loops of a shape again, and have no need to. The image of a shape passes the checks of its
kind exactly if the shape does, so all shapes that checks and placements lead to have enough points and run only
along the edges of their kind.
-/

namespace MaskLayout

namespace LoopKind

variable {kind : LoopKind} {l : Loop} {ls ls' : List Loop}

/-- The loops of a kind that checks and placements lead to. -/
inductive Reached (kind : LoopKind) : Loop → Prop
  | check {l l' : Loop} (h : kind.check l = .ok l') : Reached kind l'
  | transform {l : Loop} (t : Transform) (h : Reached kind l) : Reached kind (l.transform t)

theorem Reached.fits (h : kind.Reached l) : kind.Fits l := by
  induction h with
  | check h =>
      obtain ⟨rfl, hfits⟩ := check_iff.1 h
      exact hfits
  | transform t _ ih => exact (fits_transform_iff t).2 ih

theorem check_transform_iff (t : Transform) :
    kind.check (l.transform t) = .ok (l.transform t) ↔ kind.check l = .ok l := by
  rw [check_self_iff, check_self_iff, fits_transform_iff]

/-- Loops checked in turn are answered as they are, if all of them are of the kind. -/
theorem mapM_check_iff : ls.mapM kind.check = .ok ls' ↔ ls = ls' ∧ ∀ l ∈ ls, kind.Fits l := by
  simp only [Success.mapM_iff, check_iff]
  constructor
  · intro h
    have hsame : ls = ls' := List.forall₂_eq_eq_eq ▸ h.imp fun _ _ h => h.1
    subst hsame
    exact ⟨rfl, fun l hl => (List.forall₂_same.1 h l hl).2⟩
  · rintro ⟨rfl, hfits⟩
    exact List.forall₂_same.2 fun l hl => ⟨rfl, hfits l hl⟩

end LoopKind

/-- The corners of a rectangle make a rectilinear loop. -/
theorem Rect.fits_loop (r : Rect) : LoopKind.rectilinear.Fits r.loop := by
  refine LoopKind.fits_iff_edges.2 ⟨le_refl 4, ?_⟩
  simp only [loop, Box.corners, toBox, Loop.edges, List.drop_succ_cons, List.drop_zero, List.take_succ_cons,
    List.take_zero, List.cons_append, List.nil_append, List.zip_cons_cons, List.zip_nil_right, List.forall_mem_cons,
    LoopKind.Admits, Point.sub_x, Point.sub_y, List.not_mem_nil, false_imp_iff, implies_true, and_true]
  omega

namespace Shape

variable {s : Shape} {l : Loop} {ls : List Loop}

/-- The kind of the loops of a shape. -/
def kind : Shape → LoopKind
  | rect _ => .rectilinear
  | poly90 _ => .rectilinear
  | poly45 _ => .diagonal
  | poly45Set _ => .diagonal
  | poly _ => .any

/-- Whether a shape has loops, each with enough points and no step that its kind does not admit. -/
@[mk_iff]
structure WellFormed (s : Shape) : Prop where
  loops : s.loops ≠ []
  fits : ∀ l ∈ s.loops, s.kind.Fits l

theorem valid_iff_wellFormed : s.Valid ↔ s.WellFormed := by
  have hsingle {kind : LoopKind} {l : Loop} : kind.check l = .ok l ↔ [l] ≠ [] ∧ ∀ l' ∈ [l], kind.Fits l' := by
    rw [LoopKind.check_self_iff, List.forall_mem_singleton, and_iff_right (List.cons_ne_nil l [])]
  rw [wellFormed_iff]
  cases s with
  | rect r => exact iff_of_true trivial ⟨List.cons_ne_nil _ _, List.forall_mem_singleton.2 r.fits_loop⟩
  | poly90 l => exact hsingle
  | poly45 l => exact hsingle
  | poly45Set ls => simp only [Valid, LoopKind.check_self_iff, Shape.loops, kind]
  | poly l => exact hsingle

/-- The image of a shape passes the checks of its kind exactly if the shape does. -/
theorem valid_transform_iff (t : Transform) : (s.transform t).Valid ↔ s.Valid := by
  cases s with
  | rect r => exact Iff.rfl
  | poly90 l => exact LoopKind.check_transform_iff t
  | poly45 l => exact LoopKind.check_transform_iff t
  | poly45Set ls =>
      simp only [Shape.transform, Valid, List.forall_mem_map, LoopKind.check_transform_iff, ne_eq, List.map_eq_nil_iff]
  | poly l => exact LoopKind.check_transform_iff t

/-- Whether a constructor answers exactly the shapes `make a` that pass the checks of their kind. -/
def Checks {α : Type} (make : α → Shape) (f : α → Except LayoutError Shape) : Prop :=
  ∀ a s, f a = .ok s ↔ make a = s ∧ s.Valid

theorem checks_loop {kind : LoopKind} {make : Loop → Shape} (h : ∀ l, (make l).Valid ↔ kind.check l = .ok l) :
    Checks make fun l => return make (← kind.check l) := by
  intro l s
  simp only [Success.bind_iff, Success.pure_iff, LoopKind.check_iff]
  constructor
  · rintro ⟨l, ⟨rfl, hfits⟩, rfl⟩
    exact ⟨rfl, (h l).2 (LoopKind.check_self_iff.2 hfits)⟩
  · rintro ⟨rfl, hvalid⟩
    exact ⟨l, ⟨rfl, LoopKind.check_self_iff.1 ((h l).1 hvalid)⟩, rfl⟩

theorem checks_ofLoop90 : Checks poly90 ofLoop90 := checks_loop fun _ => Iff.rfl

theorem checks_ofLoop45 : Checks poly45 ofLoop45 := checks_loop fun _ => Iff.rfl

theorem checks_ofLoop : Checks poly ofLoop := checks_loop fun _ => Iff.rfl

theorem ofSet_iff : ofSet ls = .ok s ↔ .poly45Set ls = s ∧ ls ≠ [] := by
  rw [ofSet]
  cases ls with
  | nil => simp
  | cons l ls => simp

theorem checks_ofLoops45 : Checks poly45Set ofLoops45 := by
  intro ls s
  simp only [ofLoops45, Success.bind_iff, LoopKind.mapM_check_iff, ofSet_iff]
  constructor
  · rintro ⟨ls, ⟨rfl, hfits⟩, rfl, hne⟩
    exact ⟨rfl, hne, fun l hl => LoopKind.check_self_iff.2 (hfits l hl)⟩
  · rintro ⟨rfl, hne, hchecks⟩
    exact ⟨ls, ⟨rfl, fun l hl => LoopKind.check_self_iff.1 (hchecks l hl)⟩, rfl, hne⟩

/-- A constructor that checks accepts the images of points exactly if it accepts the points. -/
theorem Checks.accepts_iff {α : Type} {make : α → Shape} {f : α → Except LayoutError Shape} (h : Checks make f)
    {a b : α} (t : Transform) (hb : make b = (make a).transform t) : (∃ s, f b = .ok s) ↔ ∃ s, f a = .ok s := by
  have hok (a : α) : (∃ s, f a = .ok s) ↔ (make a).Valid := by
    simp only [h a, exists_eq_left']
  rw [hok b, hok a, hb, valid_transform_iff]

/-- The shapes that checks and placements lead to. Rectangles need no check, and a set is made of loops that have
been checked before. -/
inductive Reached : Shape → Prop
  | rect (r : Rect) : Reached (rect r)
  | poly90 {l : Loop} (h : LoopKind.rectilinear.Reached l) : Reached (poly90 l)
  | poly45 {l : Loop} (h : LoopKind.diagonal.Reached l) : Reached (poly45 l)
  | poly45Set {ls : List Loop} {s : Shape} (hls : ∀ l ∈ ls, LoopKind.diagonal.Reached l) (h : ofSet ls = .ok s) :
      Reached s
  | poly {l : Loop} (h : LoopKind.any.Reached l) : Reached (poly l)
  | transform {s : Shape} (t : Transform) (h : Reached s) : Reached (s.transform t)

theorem Reached.valid (h : s.Reached) : s.Valid := by
  induction h with
  | rect r => trivial
  | poly90 h => exact LoopKind.check_self_iff.2 h.fits
  | poly45 h => exact LoopKind.check_self_iff.2 h.fits
  | poly45Set hls h =>
      obtain ⟨rfl, hne⟩ := ofSet_iff.1 h
      exact ⟨hne, fun l hl => LoopKind.check_self_iff.2 (hls l hl).fits⟩
  | poly h => exact LoopKind.check_self_iff.2 h.fits
  | transform t _ ih => exact (valid_transform_iff t).2 ih

/-- The image of a shape under placements that are done one after another. -/
def transformAll (s : Shape) (ts : List Transform) : Shape := ts.foldl (fun s t => s.transform t) s

theorem Reached.transformAll (h : s.Reached) (ts : List Transform) : (s.transformAll ts).Reached := by
  induction ts generalizing s with
  | nil => exact h
  | cons t ts ih => exact ih (h.transform t)

theorem mode_transformAll (s : Shape) (ts : List Transform) : (s.transformAll ts).mode = s.mode := by
  induction ts generalizing s with
  | nil => rfl
  | cons t ts ih => exact (ih (s.transform t)).trans (mode_transform s t)

/-- The inverse placement takes the image of a shape back to the shape. -/
theorem transform_invert (s : Shape) (t : Transform) : (s.transform t).transform t.invert = s := by
  have hinvert : t.invert.cascade t = .identity := inv_mul_cancel t
  rw [← transform_cascade, hinvert, transform_identity]

/-- Each constructor accepts the images of its points under a placement exactly if it accepts the points. So all
shapes that checks lead to stay well-formed and keep their modes under any placements, although these check nothing,
and the inverse of a placement undoes it. -/
theorem placements_keep_wellFormed (t : Transform) :
    (∀ l : Loop, (∃ s, ofLoop90 (l.transform t) = .ok s) ↔ ∃ s, ofLoop90 l = .ok s) ∧
    (∀ l : Loop, (∃ s, ofLoop45 (l.transform t) = .ok s) ↔ ∃ s, ofLoop45 l = .ok s) ∧
    (∀ l : Loop, (∃ s, ofLoop (l.transform t) = .ok s) ↔ ∃ s, ofLoop l = .ok s) ∧
    (∀ ls : List Loop, (∃ s, ofLoops45 (ls.map (·.transform t)) = .ok s) ↔ ∃ s, ofLoops45 ls = .ok s) ∧
    (∀ s, Reached s → ∀ ts : List Transform,
      (s.transformAll ts).WellFormed ∧ (s.transformAll ts).mode = s.mode) ∧
    ∀ s : Shape, (s.transform t).transform t.invert = s := by
  refine ⟨?_, ?_, ?_, ?_, ?_, ?_⟩
  · intro l
    exact checks_ofLoop90.accepts_iff t rfl
  · intro l
    exact checks_ofLoop45.accepts_iff t rfl
  · intro l
    exact checks_ofLoop.accepts_iff t rfl
  · intro ls
    exact checks_ofLoops45.accepts_iff t rfl
  · intro s hs ts
    constructor
    · exact valid_iff_wellFormed.1 (hs.transformAll ts).valid
    · exact mode_transformAll s ts
  · intro s
    exact transform_invert s t

/-- A triangle whose closing edge is its only slanted one. -/
def wedge : Loop := [⟨4, 0⟩, ⟨0, 0⟩, ⟨0, 4⟩]

/-- A placement that mirrors and turns. -/
def wedgeTurn : Transform := ⟨⟨7, -3⟩, .mxr90⟩

/-- The triangle and its image. -/
def wedges : List Loop := [wedge, wedge.transform wedgeTurn]

theorem placements_keep_wellFormed_wedges :
    Reached (poly45Set wedges) ∧ ((poly45Set wedges).transformAll [wedgeTurn, wedgeTurn]).WellFormed ∧
    ((poly45Set wedges).transformAll [wedgeTurn, wedgeTurn]).mode = .poly45 := by
  have haccepted : LoopKind.diagonal.check wedge = .ok wedge := rfl
  have hwedge : LoopKind.diagonal.Reached wedge := .check haccepted
  have hwedges : ∀ l ∈ wedges, LoopKind.diagonal.Reached l :=
    List.forall_mem_cons.2 ⟨hwedge, List.forall_mem_singleton.2 (hwedge.transform wedgeTurn)⟩
  have hreached : Reached (poly45Set wedges) := .poly45Set hwedges rfl
  obtain ⟨-, -, -, -, hkept, -⟩ := placements_keep_wellFormed wedgeTurn
  exact ⟨hreached, hkept _ hreached [wedgeTurn, wedgeTurn]⟩

end Shape

end MaskLayout
