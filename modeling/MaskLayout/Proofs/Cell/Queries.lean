import MaskLayout.Proofs.Cell.Admission

/-!
# The views of a layer

The views of a layer over a whole run: what its index lists and finds, the box that is kept with it, and what is left
when it is drawn anew. An index may list its shapes in any order and offers them by their envelopes only; what it finds
is nevertheless exact.

## Implementation notes

The shapes are any shapes at all, whether they have passed a check or not. A loop without points is the one kind of shape
that a layer does not notice: with such a loop alone the layer counts as empty, and a change to a less general mode is
granted that leaves the layer unable to draw the loop anew.
-/

namespace MaskLayout

/-- A lawful index lists every entered shape once, and for a search box with points it offers each one once exactly if
the envelope meets the box. -/
structure ShapeIndex.Lawful (index : ShapeIndex) : Prop where
  listed : ∀ drawn, (index.listed drawn).Perm drawn
  offered : ∀ drawn b, b.isEmpty = false → (index.offered drawn b).Perm (drawn.filter (·.envelope.intersects b))

theorem ShapeIndex.lawful_inOrder : ShapeIndex.inOrder.Lawful where
  listed drawn := List.Perm.refl drawn
  offered _ _ _ := List.Perm.refl _

/-- The index that lists and offers what was entered last first. -/
def ShapeIndex.lastFirst : ShapeIndex where
  listed drawn := drawn.reverse
  offered drawn b := (drawn.filter (·.envelope.intersects b)).reverse

theorem ShapeIndex.lawful_lastFirst : ShapeIndex.lastFirst.Lawful where
  listed := List.reverse_perm
  offered _ _ _ := List.reverse_perm _

section Library

variable [PolygonLibrary]

namespace Shape

variable {s : Shape} {b : Box}

theorem touches_of_isEmpty (s : Shape) (h : b.isEmpty = true) : s.touches b = false := by
  simp only [touches, h, Bool.true_or, if_true]

theorem box_intersects_of_touches (h : s.touches b = true) : s.box.intersects b = true := by
  simp only [touches] at h
  split at h
  · cases h
  · rename_i hnot
    simp only [Bool.or_eq_true, Bool.not_eq_true', not_or, Bool.not_eq_false] at hnot
    exact hnot.2

end Shape

namespace LayerGeometry

variable {index : ShapeIndex} {b : Box} {d : Drawn}

/-- The envelopes never hide a shape that touches the search box. -/
theorem envelope_intersects_of_touches (h : d.shape.touches b = true) : d.envelope.intersects b = true := by
  have hbox := Shape.box_intersects_of_touches h
  have hpoints : d.shape.box.isEmpty = false := by
    simp only [Box.intersects, Bool.and_eq_true, Bool.not_eq_true'] at hbox
    exact hbox.1.1.1.1.1
  have hsame : d.envelope = d.shape.box := by
    rw [Box.isEmpty_eq_false_iff] at hpoints
    simp only [Drawn.envelope, Box.ofCorners]
    rw [Int.min_eq_left hpoints.1, Int.min_eq_left hpoints.2, Int.max_eq_right hpoints.1, Int.max_eq_right hpoints.2]
  rwa [hsame]

/-- A search finds the drawn shapes that touch the grown box, each as often as it was drawn. -/
theorem search_perm (hindex : index.Lawful) (g : LayerGeometry) (b : Box) (dx dy : Int) :
    (g.search index b dx dy).Perm (g.drawn.filter fun d => d.shape.touches (b.expandXY dx dy)) := by
  rw [search]
  split
  · rename_i hempty
    rw [List.filter_eq_nil_iff.2 fun d _ => by simp [Shape.touches_of_isEmpty d.shape hempty]]
  · rename_i hpoints
    refine ((hindex.offered g.drawn _ (Bool.eq_false_iff.2 hpoints)).filter _).trans ?_
    rw [List.filter_filter]
    refine List.Perm.of_eq (List.filter_congr fun d _ => ?_)
    cases htouches : d.shape.touches (b.expandXY dx dy) with
    | true => rw [envelope_intersects_of_touches htouches, Bool.and_self]
    | false => rw [Bool.false_and]

end LayerGeometry

/-- What is done to a layer. -/
inductive LayerOp where
  | add (d : Drawn)
  | record (master : LayerGeometry) (t : Transform)
  | withMode (m : Mode)
  | redraw

namespace LayerOp

/-- The layer after an operation, or why the operation is refused. -/
def on (index : ShapeIndex) (g : LayerGeometry) : LayerOp → Except LayoutError LayerGeometry
  | add d => g.add d.shape d.horiz
  | record master t => g.record master t
  | withMode m => g.withMode m
  | redraw => g.redraw index

end LayerOp

/-- A layer on the way, with the shapes that were drawn on it and the boxes of the masters that were placed in it since
it was last drawn anew. -/
structure LayerRun where
  layer : LayerGeometry
  added : List Drawn
  placed : List Box

namespace LayerRun

/-- The next state of a run. An operation that is refused changes nothing. -/
def next (index : ShapeIndex) (run : LayerRun) (op : LayerOp) : LayerRun :=
  match op.on index run.layer with
  | .error _ => run
  | .ok layer =>
    match op with
    | .add d => ⟨layer, run.added ++ [d], run.placed⟩
    | .record master t => ⟨layer, run.added, run.placed ++ [master.box.transform t]⟩
    | .withMode _ => ⟨layer, run.added, run.placed⟩
    | .redraw => ⟨layer, run.added, []⟩

/-- The run of operations on a layer without shapes. -/
def ofOps (index : ShapeIndex) (m : Mode) (ops : List LayerOp) : LayerRun :=
  ops.foldl (next index) ⟨.empty m, [], []⟩

/-- A layer is faithful to its run if it lists the added shapes and its box is around them and the placed masters. Its
mode holds the added shapes as long as they all have points. -/
structure Faithful (run : LayerRun) : Prop where
  drawn : run.layer.drawn.Perm run.added
  modes : (∀ d ∈ run.added, d.shape.points ≠ []) → ∀ d ∈ run.added, d.shape.mode ≤ run.layer.mode
  box_le_iff : ∀ u, run.layer.box ≤ u ↔
    Box.empty ≤ u ∧ (∀ d ∈ run.added, d.shape.box ≤ u) ∧ ∀ b ∈ run.placed, b ≤ u

variable {index : ShapeIndex} {run : LayerRun} {layer master : LayerGeometry} {d : Drawn} {t : Transform} {m : Mode}
  {ops : List LayerOp}

theorem faithful_empty (m : Mode) : (LayerRun.mk (.empty m) [] []).Faithful where
  drawn := List.Perm.nil
  modes _ := List.forall_mem_nil _
  box_le_iff u := by simp [LayerGeometry.empty]

theorem Faithful.add (h : run.Faithful) (hg : run.layer.add d.shape d.horiz = .ok layer) :
    (LayerRun.mk layer (run.added ++ [d]) run.placed).Faithful := by
  obtain ⟨data, hdata, rfl⟩ := LayerGeometry.add_ok hg
  obtain ⟨hmode, hle⟩ := Coverage.insert_ok hdata
  refine ⟨?_, fun hpoints => ?_, fun u => ?_⟩
  · exact h.drawn.append_right [d]
  · simp only [LayerGeometry.mode, hmode]
    exact List.forall_mem_append.2 ⟨h.modes (List.forall_mem_append.1 hpoints).1, List.forall_mem_singleton.2 hle⟩
  · simp only [Box.union_le_iff, h.box_le_iff, List.forall_mem_append, List.forall_mem_singleton]
    tauto

theorem Faithful.record (h : run.Faithful) (hg : run.layer.record master t = .ok layer) :
    (LayerRun.mk layer run.added (run.placed ++ [master.box.transform t])).Faithful := by
  obtain ⟨-, data, hdata, rfl⟩ := LayerGeometry.record_ok hg
  have hmode := (Coverage.merge_ok hdata).1
  refine ⟨h.drawn, fun hpoints => ?_, fun u => ?_⟩
  · simp only [LayerGeometry.mode, hmode]
    exact h.modes hpoints
  · simp only [Box.union_le_iff, h.box_le_iff, List.forall_mem_append, List.forall_mem_singleton]
    tauto

theorem Faithful.withMode (h : run.Faithful) (hg : run.layer.withMode m = .ok layer) :
    (LayerRun.mk layer run.added run.placed).Faithful := by
  have hboxes := ((h.box_le_iff run.layer.box).1 (le_refl _)).2.1
  have hmodes hpoints := LayerGeometry.modes_le_of_withMode hg hpoints hboxes (h.modes hpoints)
  obtain ⟨data, rfl, -⟩ := LayerGeometry.withMode_ok hg
  exact ⟨h.drawn, hmodes, h.box_le_iff⟩

/-- The layer can be drawn anew exactly if its mode holds all shapes, in whatever order the index lists them. -/
theorem Faithful.exists_redraw_iff (h : run.Faithful) (hindex : index.Lawful) :
    (∃ layer, run.layer.redraw index = .ok layer) ↔ ∀ d ∈ run.added, d.shape.mode ≤ run.layer.mode := by
  have hperm : (index.listed run.layer.drawn).Perm run.added := (hindex.listed _).trans h.drawn
  constructor
  · rintro ⟨layer, hlayer⟩ d hd
    exact (LayerGeometry.modes_le_of_ofDrawn hlayer).2 d (hperm.mem_iff.2 hd)
  · intro hmodes
    obtain ⟨layer, hlayer, -⟩ := LayerGeometry.exists_plain fun d hd => hmodes d (hperm.mem_iff.1 hd)
    exact ⟨layer, hlayer⟩

theorem Faithful.redraw (h : run.Faithful) (hindex : index.Lawful) (hg : run.layer.redraw index = .ok layer) :
    (LayerRun.mk layer run.added []).Faithful := by
  have hperm : (index.listed run.layer.drawn).Perm run.added := (hindex.listed _).trans h.drawn
  have hplain : layer.Plain run.layer.mode (index.listed run.layer.drawn) := LayerGeometry.plain_of_ofDrawn hg
  refine ⟨?_, fun hpoints => ?_, fun u => ?_⟩
  · rwa [hplain.drawn_eq]
  · rw [hplain.mode_eq]
    exact h.modes hpoints
  · rw [hplain.box_le_iff]
    simp [hperm.mem_iff]

/-- Every operation, refused or not, keeps a layer faithful to its run. -/
theorem Faithful.next (h : run.Faithful) (hindex : index.Lawful) (op : LayerOp) : (run.next index op).Faithful := by
  rw [LayerRun.next]
  split
  · exact h
  · rename_i layer hlayer
    cases op with
    | add d => exact h.add hlayer
    | record master t => exact h.record hlayer
    | withMode m => exact h.withMode hlayer
    | redraw => exact h.redraw hindex hlayer

theorem faithful_ofOps (hindex : index.Lawful) (m : Mode) (ops : List LayerOp) : (ofOps index m ops).Faithful := by
  induction ops using List.reverseRecOn with
  | nil => exact faithful_empty m
  | append_singleton ops op ih =>
      rw [ofOps, List.foldl_append, List.foldl_cons, List.foldl_nil]
      exact ih.next hindex op

/-- After any run of operations on a layer, refused ones included, its index lists the shapes that were added, whatever
masters were placed and modes were changed. A search finds those of them that touch the grown box, and nothing if the
grown box is empty. The box of the layer is the union of the boxes of the added shapes and of the placed masters. The
layer can be drawn anew exactly if its mode holds the added shapes, which it does where they all have points. Drawn anew,
it has the box, the shapes and, as rectangles, the squares of a layer on which the shapes alone are drawn. -/
theorem views_agree (hindex : index.Lawful) (hrun : ofOps index m ops = run) :
    (index.listed run.layer.drawn).Perm run.added ∧
    (∀ b dx dy, (run.layer.search index b dx dy).Perm
      (run.added.filter fun d => d.shape.touches (b.expandXY dx dy))) ∧
    (∀ b dx dy, (b.expandXY dx dy).isEmpty = true → run.layer.search index b dx dy = []) ∧
    run.layer.box = Box.unionAll (run.added.map (·.shape.box) ++ run.placed) ∧
    ((∃ rebuilt, run.layer.redraw index = .ok rebuilt) ↔ ∀ d ∈ run.added, d.shape.mode ≤ run.layer.mode) ∧
    ((∀ d ∈ run.added, d.shape.points ≠ []) → ∀ d ∈ run.added, d.shape.mode ≤ run.layer.mode) ∧
    ∀ rebuilt, run.layer.redraw index = .ok rebuilt → rebuilt.mode = run.layer.mode ∧
      ∀ drawn, drawn.Perm run.added → ∃ plain, LayerGeometry.ofDrawn run.layer.mode drawn = .ok plain ∧
        rebuilt.box = plain.box ∧ (index.listed rebuilt.drawn).Perm (index.listed plain.drawn) ∧
        ∀ rects rects', rebuilt.data = .poly90 rects → plain.data = .poly90 rects' →
          ∀ sq, rects.Covers sq ↔ rects'.Covers sq := by
  have h : run.Faithful := hrun ▸ faithful_ofOps hindex m ops
  refine ⟨(hindex.listed _).trans h.drawn, fun b dx dy => ?_, fun b dx dy hempty => if_pos hempty, ?_,
    h.exists_redraw_iff hindex, h.modes, fun rebuilt hrebuilt => ?_⟩
  · exact (LayerGeometry.search_perm hindex run.layer b dx dy).trans (h.drawn.filter _)
  · refine eq_of_forall_ge_iff fun u => ?_
    rw [h.box_le_iff, Box.unionAll_le_iff, List.forall_mem_append, List.forall_mem_map]
  · have hplain : rebuilt.Plain run.layer.mode (index.listed run.layer.drawn) :=
      LayerGeometry.plain_of_ofDrawn hrebuilt
    have hmodes := (h.exists_redraw_iff hindex).1 ⟨rebuilt, hrebuilt⟩
    refine ⟨hplain.mode_eq, fun drawn hdrawn => ?_⟩
    obtain ⟨plain, hok, hplain'⟩ := LayerGeometry.exists_plain fun d hd => hmodes d (hdrawn.mem_iff.1 hd)
    have hsame : (index.listed run.layer.drawn).Perm drawn := ((hindex.listed _).trans h.drawn).trans hdrawn.symm
    refine ⟨plain, hok, hplain.box_eq hplain' hsame, ?_, fun _ _ => hplain.covers_iff hplain' hsame⟩
    rw [hplain.drawn_eq, hplain'.drawn_eq]
    exact (hindex.listed _).trans (hsame.trans (hindex.listed _).symm)

end LayerRun

end Library

open scoped ExactPolygons

namespace LayerRun

/-- A square tile. -/
def tile : Drawn := ⟨.rect (.ofCoords 0 0 10 10), true⟩

/-- A corner of two bars, as one loop. -/
def corner : Drawn := ⟨.poly90 [⟨30, 0⟩, ⟨50, 0⟩, ⟨50, 10⟩, ⟨40, 10⟩, ⟨40, 20⟩, ⟨30, 20⟩], false⟩

/-- A layer of one bar. -/
def barLayer : LayerGeometry :=
  ⟨.poly90 ⟨[.ofCoords 0 0 4 2]⟩, [⟨.rect (.ofCoords 0 0 4 2), true⟩], ⟨⟨0, 0⟩, ⟨4, 2⟩⟩⟩

/-- Tile and corner, a triangle that is refused, and a bar that is placed before and after the layer is drawn anew. -/
def surveyOps : List LayerOp :=
  [.withMode .poly90, .add tile, .add ⟨.poly45 [⟨0, 0⟩, ⟨10, 0⟩, ⟨0, 10⟩], true⟩, .record barLayer ⟨⟨-90, 0⟩, .r90⟩,
    .redraw, .add corner, .record barLayer ⟨⟨70, 0⟩, .r90⟩]

theorem views_agree_survey :
    ShapeIndex.lastFirst.Lawful ∧
    (ShapeIndex.lastFirst.listed (ofOps .lastFirst .poly45 surveyOps).layer.drawn).Perm [tile, corner] ∧
    ((ofOps .lastFirst .poly45 surveyOps).layer.search .lastFirst ⟨⟨12, 0⟩, ⟨28, 5⟩⟩ 2 0).Perm [tile, corner] ∧
    (ofOps .lastFirst .poly45 surveyOps).layer.search .lastFirst ⟨⟨12, 0⟩, ⟨28, 5⟩⟩ (-9) 0 = [] ∧
    (ofOps .lastFirst .poly45 surveyOps).layer.box = ⟨⟨0, 0⟩, ⟨70, 20⟩⟩ ∧
    ∃ rebuilt plain, (ofOps .lastFirst .poly45 surveyOps).layer.redraw .lastFirst = .ok rebuilt ∧
      LayerGeometry.ofDrawn .poly90 [tile, corner] = .ok plain ∧ rebuilt.box = plain.box := by
  have hadded : (ofOps .lastFirst .poly45 surveyOps).added = [tile, corner] := by decide +kernel
  have hplaced : (ofOps .lastFirst .poly45 surveyOps).placed = [⟨⟨68, 0⟩, ⟨70, 4⟩⟩] := by decide +kernel
  have hmode : (ofOps .lastFirst .poly45 surveyOps).layer.mode = .poly90 := by decide +kernel
  generalize hrun : ofOps .lastFirst .poly45 surveyOps = run at *
  obtain ⟨hlisted, hfound, hnothing, hbox, hredraw, hmodes, hplain⟩ := views_agree ShapeIndex.lawful_lastFirst hrun
  obtain ⟨rebuilt, hrebuilt⟩ := hredraw.2 (hmodes (by rw [hadded]; decide))
  obtain ⟨plain, hok, hsame, -⟩ := (hplain rebuilt hrebuilt).2 [tile, corner] (List.Perm.of_eq hadded.symm)
  rw [hadded] at hlisted hbox hfound
  rw [hplaced] at hbox
  rw [hmode] at hok
  have htouched : [tile, corner].filter (fun d => d.shape.touches (Box.expandXY ⟨⟨12, 0⟩, ⟨28, 5⟩⟩ 2 0)) =
      [tile, corner] := by decide +kernel
  have hfound := htouched ▸ hfound ⟨⟨12, 0⟩, ⟨28, 5⟩⟩ 2 0
  exact ⟨ShapeIndex.lawful_lastFirst, hlisted, hfound, hnothing _ (-9) 0 rfl, hbox.trans rfl, rebuilt, plain,
    hrebuilt, hok, hsame⟩

/-- A loop without points. -/
def pointless : Drawn := ⟨.poly [], true⟩

/-- A layer with a loop without points counts as empty and becomes less general than the loop, so that it cannot be drawn
anew, as a layer on which the loop alone was drawn can. -/
theorem redraw_pointless :
    ShapeIndex.inOrder.Lawful ∧
    (ofOps .inOrder .poly [.add pointless, .withMode .poly90]).added = [pointless] ∧
    (ofOps .inOrder .poly [.add pointless, .withMode .poly90]).layer.mode = .poly90 ∧
    (∃ x, (ofOps .inOrder .poly [.add pointless, .withMode .poly90]).layer.redraw .inOrder = .error x) ∧
    ∃ plain, LayerGeometry.ofDrawn .poly [pointless] = .ok plain ∧ plain.drawn = [pointless] := by
  have hadded : (ofOps .inOrder .poly [.add pointless, .withMode .poly90]).added = [pointless] := by decide +kernel
  have hmode : (ofOps .inOrder .poly [.add pointless, .withMode .poly90]).layer.mode = .poly90 := by decide +kernel
  have hredraw := (faithful_ofOps ShapeIndex.lawful_inOrder .poly
    [.add pointless, .withMode .poly90]).exists_redraw_iff ShapeIndex.lawful_inOrder
  refine ⟨ShapeIndex.lawful_inOrder, hadded, hmode, ?_, ?_⟩
  · cases hlayer : (ofOps .inOrder .poly [.add pointless, .withMode .poly90]).layer.redraw .inOrder with
    | error x => exact ⟨x, rfl⟩
    | ok layer =>
        have hle := hredraw.1 ⟨layer, hlayer⟩ pointless (hadded ▸ List.mem_cons_self)
        rw [hmode] at hle
        exact absurd hle (by decide)
  · obtain ⟨plain, hplain, hspec⟩ := LayerGeometry.exists_plain (m := .poly) (List.forall_mem_singleton.2
      (by decide : pointless.shape.mode ≤ .poly))
    exact ⟨plain, hplain, hspec.drawn_eq⟩

end LayerRun

end MaskLayout
