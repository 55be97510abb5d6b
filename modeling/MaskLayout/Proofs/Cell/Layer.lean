import MaskLayout.Cell.Basic
import MaskLayout.Proofs.Shape
import Mathlib.Data.Set.Lattice

/-!
# How layers come about

How the layer of a cell comes about: shapes are drawn on it, the layers of placed masters are merged into it, and its
mode changes. Such a layer covers what its drawn shapes and the placed layers cover, and it is empty only if nothing
was put into it.
-/

namespace MaskLayout

namespace Mode

theorem le_trans {m n k : Mode} (h : m ≤ n) (h' : n ≤ k) : m ≤ k := Nat.le_trans h h'

theorem not_lt {m n : Mode} : ¬ m < n ↔ n ≤ m := Nat.not_lt

theorem not_le {m n : Mode} : ¬ m ≤ n ↔ n < m := Nat.not_le

theorem lt_of_not_lt {m n : Mode} (hne : m ≠ n) (h : ¬ m < n) : n < m := by
  cases m <;> cases n <;> first | exact absurd rfl hne | exact absurd (by decide) h | decide

theorem eq_poly90_of_le {m : Mode} (h : m ≤ .poly90) : m = .poly90 := by
  cases m with
  | poly90 => rfl
  | poly45 => exact absurd h (by decide)
  | poly => exact absurd h (by decide)

end Mode

namespace Shape

/-- The rectangles that stand for a shape in data that is kept as rectangles. -/
def pieces : Shape → List Rect
  | rect r => [r]
  | poly90 l => l.slabs
  | _ => []

theorem Rectilinear.exists_pieces_covers {s : Shape} (h : s.Rectilinear) (hmode : s.mode = .poly90) (sq : Point) :
    (∃ r ∈ s.pieces, r.Covers sq) ↔ s.Covers sq := by
  cases s with
  | rect r => simp [pieces, Covers]
  | poly90 l => rw [pieces, (h l List.mem_cons_self).exists_slabs_covers, covers_poly90]
  | poly45 l => cases hmode
  | poly45Set ls => cases hmode
  | poly l => cases hmode

end Shape

variable [PolygonLibrary]

namespace Coverage

variable {c d e : Coverage} {s : Shape}

@[simp] theorem mode_empty (m : Mode) : (empty m).mode = m := by
  cases m <;> rfl

theorem insert_ok (h : c.insert s = .ok d) : d.mode = c.mode ∧ s.mode ≤ c.mode := by
  simp only [insert] at h
  split at h
  · cases h
  · rename_i hmode
    refine ⟨?_, Mode.not_lt.1 hmode⟩
    split at h <;> cases h <;> rfl

theorem merge_ok (h : c.merge d = .ok e) : e.mode = c.mode ∧ d.mode ≤ c.mode := by
  simp only [merge] at h
  split at h
  · cases h
  · rename_i hmode
    refine ⟨?_, Mode.not_lt.1 hmode⟩
    split at h <;> cases h <;> rfl

theorem convert_ok {m : Mode} (h : c.convert m = .ok d) : d.mode = m := by
  simp only [convert] at h
  split at h
  · cases h
  · rename_i hmode
    cases m with
    | poly90 =>
        cases h
        exact Mode.eq_poly90_of_le (Mode.not_lt.1 hmode)
    | poly45 =>
        cases h
        rfl
    | poly =>
        cases h
        rfl

/-- Rectangles to which a shape is added cover the pieces of the shape from then on. -/
theorem covers_insert_pieces {rects : RectSet} (h : c.insert s = .ok (.poly90 rects)) :
    ∃ before, c = .poly90 before ∧ ∀ sq, rects.Covers sq ↔ before.Covers sq ∨ ∃ r ∈ s.pieces, r.Covers sq := by
  obtain ⟨hmode, hle⟩ := insert_ok h
  cases c with
  | poly45 ps => cases hmode
  | poly ps => cases hmode
  | poly90 before =>
      refine ⟨before, rfl, fun sq => ?_⟩
      cases s with
      | rect r =>
          cases h
          simp [RectSet.covers_insert, Shape.pieces]
      | poly90 l =>
          cases h
          exact RectSet.covers_insertAll
      | poly45 l => exact absurd hle (by change ¬ Mode.poly45 ≤ .poly90; decide)
      | poly45Set ls => exact absurd hle (by change ¬ Mode.poly45 ≤ .poly90; decide)
      | poly l => exact absurd hle (by change ¬ Mode.poly ≤ .poly90; decide)

/-- A proper shape that is added to rectangles is a rectilinear one, and they cover it from then on. -/
theorem covers_insert {rects : RectSet} (h : c.insert s = .ok (.poly90 rects)) (hs : s.Proper) :
    ∃ before, c = .poly90 before ∧ ∀ sq, rects.Covers sq ↔ before.Covers sq ∨ s.Covers sq := by
  obtain ⟨hmode, hle⟩ := insert_ok h
  obtain ⟨before, rfl, hcovers⟩ := covers_insert_pieces h
  refine ⟨before, rfl, fun sq => (hcovers sq).trans (or_congr_right ?_)⟩
  exact (hs.rectilinear (Mode.eq_poly90_of_le hle)).exists_pieces_covers (Mode.eq_poly90_of_le hle) sq

theorem covers_merge {rects : RectSet} (h : c.merge d = .ok (.poly90 rects)) :
    ∃ before more, c = .poly90 before ∧ d = .poly90 more ∧
      ∀ sq, rects.Covers sq ↔ before.Covers sq ∨ more.Covers sq := by
  obtain ⟨hmode, hle⟩ := merge_ok h
  cases c with
  | poly45 ls => cases hmode
  | poly ls => cases hmode
  | poly90 before =>
      cases d with
      | poly90 more =>
          cases h
          exact ⟨before, more, rfl, rfl, fun sq => RectSet.covers_insertAll⟩
      | poly45 ls => exact absurd hle (by change ¬ Mode.poly45 ≤ .poly90; decide)
      | poly ls => exact absurd hle (by change ¬ Mode.poly ≤ .poly90; decide)

end Coverage

namespace LayerGeometry

variable {g g' master : LayerGeometry} {s : Shape} {horiz : Bool} {t : Transform} {m : Mode}

theorem add_ok (h : g.add s horiz = .ok g') :
    ∃ data, g.data.insert s = .ok data ∧ g' = ⟨data, g.drawn ++ [⟨s, horiz⟩], s.box.union g.box⟩ := by
  obtain ⟨data, hdata, hg⟩ := Success.bind_iff.1 h
  exact ⟨data, hdata, (Success.pure_iff.1 hg).symm⟩

theorem record_ok (h : g.record master t = .ok g') :
    master.mode ≤ g.mode ∧ ∃ data, g.data.merge (master.data.transform t) = .ok data ∧
      g' = ⟨data, g.drawn, (master.box.transform t).union g.box⟩ := by
  simp only [record] at h
  split at h
  · cases h
  · rename_i hmode
    obtain ⟨data, hdata, hg⟩ := Success.bind_iff.1 h
    exact ⟨Mode.not_lt.1 hmode, data, hdata, (Success.pure_iff.1 hg).symm⟩

/-- A change of mode keeps the drawn shapes and the box. The data either stays, or was empty, or is converted. -/
theorem withMode_ok (h : g.withMode m = .ok g') :
    ∃ data, g' = { g with data } ∧ data.mode = m ∧
      (data = g.data ∨ (g.box.isEmpty = true ∧ data = .empty m) ∨ (g.mode < m)) := by
  simp only [withMode] at h
  split at h
  · rename_i heq
    cases h
    exact ⟨g.data, rfl, heq.symm, .inl rfl⟩
  · split at h
    · split at h
      · rename_i hempty
        cases h
        exact ⟨.empty m, rfl, Coverage.mode_empty m, .inr (.inl ⟨(Bool.and_eq_true _ _ ▸ hempty).1, rfl⟩)⟩
      · cases h
    · rename_i hne hnot
      obtain ⟨data, hdata, hg⟩ := Success.bind_iff.1 h
      exact ⟨data, (Success.pure_iff.1 hg).symm, Coverage.convert_ok hdata,
        .inr (.inr (Mode.lt_of_not_lt hne hnot))⟩

theorem mode_drawn_of_withMode (h : g.withMode m = .ok g') : g'.mode = m ∧ g'.drawn = g.drawn := by
  obtain ⟨data, rfl, hmode, -⟩ := withMode_ok h
  exact ⟨hmode, rfl⟩

theorem isEmpty_empty (m : Mode) : (empty m).isEmpty = true := by
  cases m with
  | poly90 => rfl
  | poly45 => exact PolygonLibrary.isEmpty_none
  | poly => exact PolygonLibrary.isEmpty_none

theorem withMode_empty (m n : Mode) : (empty m).withMode n = .ok (empty n) := by
  have hmode : (empty m).mode = m := Coverage.mode_empty m
  rw [withMode, hmode, isEmpty_empty, if_pos rfl]
  split
  · rename_i hsame
    rw [hsame]
  · split
    · rfl
    · -- Converting no data makes no polygons.
      rename_i hne hnot
      have hmore := Mode.lt_of_not_lt hne hnot
      cases m <;> cases n <;> first | rfl | exact absurd hmore (by decide)

end LayerGeometry

/-- An element of an instance: its bound master, and where that is placed. -/
structure Element where
  master : Master
  xform : Transform

namespace LayerGeometry

/-- `Composed key g merged` says that `g` arises from an empty layer by drawing proper shapes, by merging the layers
for `key` of the elements `merged`, and by changes of mode. -/
inductive Composed (key : LayerKey) : LayerGeometry → Set Element → Prop
  | empty (m : Mode) : Composed key (.empty m) ∅
  | add {g g' merged s horiz} (h : Composed key g merged) (hs : s.Proper) (hg : g.add s horiz = .ok g') :
      Composed key g' merged
  | record {g g' merged master e} (h : Composed key g merged)
      (hmaster : e.master.cell.layers.get? key = some master) (hg : g.record master e.xform = .ok g') :
      Composed key g' (insert e merged)
  | withMode {g g' merged m} (h : Composed key g merged) (hg : g.withMode m = .ok g') : Composed key g' merged

variable {g g' master : LayerGeometry} {s : Shape} {horiz : Bool} {t : Transform} {m : Mode} {key : LayerKey}
  {merged : Set Element}

theorem Composed.proper (h : Composed key g merged) : ∀ d ∈ g.drawn, d.shape.Proper := by
  induction h with
  | empty m => exact fun d hd => (List.not_mem_nil hd).elim
  | add h hs hg ih =>
      obtain ⟨data, -, rfl⟩ := add_ok hg
      exact List.forall_mem_append.2 ⟨ih, List.forall_mem_singleton.2 hs⟩
  | record h hmaster hg ih =>
      obtain ⟨-, data, -, rfl⟩ := record_ok hg
      exact ih
  | withMode h hg ih =>
      obtain ⟨data, rfl, -⟩ := withMode_ok hg
      exact ih

private theorem replay_ok {drawn : List Drawn} (hproper : ∀ d ∈ drawn, d.shape.Proper) (h : Composed key g ∅)
    (hg : drawn.foldlM (fun acc d => acc.add d.shape d.horiz) g = .ok g') :
    Composed key g' ∅ ∧ g'.drawn = g.drawn ++ drawn ∧ g'.mode = g.mode := by
  induction drawn generalizing g with
  | nil =>
      cases hg
      exact ⟨h, (List.append_nil _).symm, rfl⟩
  | cons d rest ih =>
      rw [List.foldlM_cons] at hg
      obtain ⟨next, hnext, hrest⟩ := Success.bind_iff.1 hg
      obtain ⟨hd, hproper⟩ := List.forall_mem_cons.1 hproper
      obtain ⟨hcomposed, hdrawn, hmode⟩ := ih hproper (h.add hd hnext) hrest
      obtain ⟨data, hdata, rfl⟩ := add_ok hnext
      refine ⟨hcomposed, ?_, hmode.trans (Coverage.insert_ok hdata).1⟩
      rw [hdrawn, List.append_assoc, List.singleton_append]

theorem withoutMasters_empty (m : Mode) : (empty m).withoutMasters = .ok (empty m) := by
  cases m <;> rfl

/-- What is left without masters is composed of the drawn shapes alone, and these are all kept. -/
theorem Composed.withoutMasters (h : Composed key g merged) (hg : g.withoutMasters = .ok g') :
    Composed key g' ∅ ∧ g'.drawn = g.drawn ∧ g'.mode = g.mode := by
  obtain ⟨hcomposed, hdrawn, hmode⟩ := replay_ok h.proper (.empty g.mode) hg
  exact ⟨hcomposed, hdrawn, hmode.trans (Coverage.mode_empty _)⟩

/-- `Holds g shapes` says that `g` is a merged view of proper shapes: no shape is too general for its mode, the box is
the empty one exactly if there are no shapes, and rectangles cover what the shapes cover. -/
structure Holds (g : LayerGeometry) (shapes : Set Shape) : Prop where
  proper : ∀ s ∈ shapes, s.Proper
  modes : ∀ s ∈ shapes, s.mode ≤ g.mode
  box : g.box.isEmpty = false ∧ shapes.Nonempty ∨ g.box = .empty ∧ shapes = ∅
  covers : ∀ rects, g.data = .poly90 rects → ∀ sq, rects.Covers sq ↔ ∃ s ∈ shapes, s.Covers sq

theorem holds_empty (m : Mode) : (empty m).Holds ∅ where
  proper _ hs := hs.elim
  modes _ hs := hs.elim
  box := .inr ⟨rfl, rfl⟩
  covers rects hdata sq := by
    cases m <;> cases hdata
    simp

variable {shapes : Set Shape}

theorem Holds.eq_empty (h : g.Holds shapes) (hbox : g.box.isEmpty = true) : shapes = ∅ := by
  rcases h.box with ⟨hne, -⟩ | ⟨-, hshapes⟩
  · simp [hbox] at hne
  · exact hshapes

theorem Holds.add (h : g.Holds shapes) (hs : s.Proper) (hg : g.add s horiz = .ok g') :
    g'.Holds (insert s shapes) := by
  obtain ⟨data, hdata, rfl⟩ := add_ok hg
  obtain ⟨hmode, hle⟩ := Coverage.insert_ok hdata
  have hmode : mode ⟨data, g.drawn ++ [⟨s, horiz⟩], s.box.union g.box⟩ = g.mode := hmode
  refine ⟨?_, ?_, ?_, ?_⟩
  · exact Set.forall_mem_insert.2 ⟨hs, h.proper⟩
  · rw [hmode]
    exact Set.forall_mem_insert.2 ⟨hle, h.modes⟩
  · exact .inl ⟨Box.isEmpty_of_le (Box.le_union_left _ _) hs.isEmpty_box, Set.insert_nonempty _ _⟩
  · intro rects hrects sq
    simp only at hrects
    rw [hrects] at hdata
    obtain ⟨before, hbefore, hcovers⟩ := Coverage.covers_insert hdata hs
    rw [hcovers, h.covers before hbefore, or_comm]
    simp [Set.mem_insert_iff, or_and_right, exists_or]

/-- Placed rectangles of a layer cover what its shapes cover, placed alike. -/
theorem Holds.covers_transform {rects : RectSet} (h : g.Holds shapes) (hdata : g.data = .poly90 rects) (t : Transform)
    (sq : Point) : (rects.transform t).Covers sq ↔ ∃ s ∈ Shape.transform t '' shapes, s.Covers sq := by
  have hmode : g.mode = .poly90 := congrArg Coverage.mode hdata
  obtain ⟨c, rfl⟩ : ∃ c, t.square c = sq := ⟨_, t.square_invert sq⟩
  rw [RectSet.covers_transform, h.covers rects hdata, Set.exists_mem_image]
  refine exists_congr fun s => and_congr_right fun hs => ?_
  have hle : s.mode ≤ .poly90 := hmode ▸ h.modes s hs
  exact (((h.proper s hs).rectilinear (Mode.eq_poly90_of_le hle)).covers_transform t c).symm

/-- Merging a placed layer adds its shapes, placed alike. -/
theorem Holds.record {inner : Set Shape} (h : g.Holds shapes) (hinner : master.Holds inner)
    (hg : g.record master t = .ok g') : g'.Holds (Shape.transform t '' inner ∪ shapes) := by
  obtain ⟨hle, data, hdata, rfl⟩ := record_ok hg
  have hmode : mode ⟨data, g.drawn, (master.box.transform t).union g.box⟩ = g.mode := (Coverage.merge_ok hdata).1
  refine ⟨?_, ?_, ?_, ?_⟩
  · rintro s (⟨s, hs, rfl⟩ | hs)
    · exact (hinner.proper s hs).transform t
    · exact h.proper s hs
  · rw [hmode]
    rintro s (⟨s, hs, rfl⟩ | hs)
    · rw [Shape.mode_transform]
      exact Mode.le_trans (hinner.modes s hs) hle
    · exact h.modes s hs
  · rcases hinner.box with ⟨hbox, hne⟩ | ⟨hbox, rfl⟩
    · refine .inl ⟨Box.isEmpty_of_le (Box.le_union_left _ _) ?_, (hne.image _).inl⟩
      rw [Box.isEmpty_transform, hbox]
    · rw [hbox, Set.image_empty, Set.empty_union, Box.transform_of_isEmpty Box.isEmpty_empty]
      rcases h.box with ⟨hbox, hne⟩ | ⟨hbox, hshapes⟩
      · exact .inl ⟨Box.isEmpty_of_le (Box.le_union_right _ _) hbox, hne⟩
      · exact .inr ⟨by simp only [hbox]; rfl, hshapes⟩
  · intro rects hrects sq
    simp only at hrects
    rw [hrects] at hdata
    obtain ⟨before, more, hbefore, hmore, hcovers⟩ := Coverage.covers_merge hdata
    rw [hcovers, h.covers before hbefore, or_comm]
    cases hmaster : master.data with
    | poly45 ls => rw [hmaster] at hmore; cases hmore
    | poly ls => rw [hmaster] at hmore; cases hmore
    | poly90 rs =>
        rw [hmaster] at hmore
        cases hmore
        rw [hinner.covers_transform hmaster]
        simp [or_and_right, exists_or]

theorem Holds.withMode (h : g.Holds shapes) (hg : g.withMode m = .ok g') : g'.Holds shapes := by
  obtain ⟨data, rfl, hmode, hdata⟩ := withMode_ok hg
  refine ⟨h.proper, ?_, h.box, ?_⟩
  · intro s hs
    change s.mode ≤ data.mode
    rcases hdata with rfl | ⟨hbox, -⟩ | hmore
    · exact h.modes s hs
    · rw [h.eq_empty hbox] at hs
      exact hs.elim
    · rw [hmode]
      exact Mode.le_trans (h.modes s hs) (Nat.le_of_lt hmore)
  · intro rects hrects sq
    simp only at hrects
    rcases hdata with rfl | ⟨hbox, hempty⟩ | hmore
    · exact h.covers rects hrects sq
    · rw [hempty] at hrects
      cases m <;> cases hrects
      simp [h.eq_empty hbox]
    · rw [hrects] at hmode
      subst hmode
      exact absurd hmore (Nat.not_lt_zero _)

/-- The shapes that were drawn on a layer. -/
def own (g : LayerGeometry) : Set Shape := {s | ∃ d ∈ g.drawn, d.shape = s}

/-- A composed layer holds its drawn shapes, and the shapes of all merged masters, each placed as its element. -/
theorem Composed.holds (h : Composed key g merged) (shapesOf : Master → Set Shape)
    (hmasters : ∀ e ∈ merged, ∀ master, e.master.cell.layers.get? key = some master →
      master.Holds (shapesOf e.master)) :
    g.Holds (g.own ∪ ⋃ e ∈ merged, Shape.transform e.xform '' shapesOf e.master) := by
  induction h with
  | empty m =>
      have hnone : (LayerGeometry.empty m).own = ∅ := by simp [own, LayerGeometry.empty]
      rw [hnone, Set.biUnion_empty, Set.union_empty]
      exact holds_empty m
  | @add g g' merged s horiz h hs hg ih =>
      have hown : g'.own = insert s g.own := by
        obtain ⟨data, -, rfl⟩ := add_ok hg
        ext s'
        simp [own, or_and_right, exists_or, or_comm, eq_comm]
      rw [hown, Set.insert_union]
      exact (ih hmasters).add hs hg
  | @record g g' merged master e h hmaster hg ih =>
      have hown : g'.own = g.own := by
        obtain ⟨-, data, -, rfl⟩ := record_ok hg
        rfl
      obtain ⟨hhere, hmasters⟩ := Set.forall_mem_insert.1 hmasters
      rw [hown, Set.biUnion_insert, Set.union_left_comm]
      exact (ih hmasters).record (hhere master hmaster) hg
  | @withMode g g' merged m h hg ih =>
      have hown : g'.own = g.own := by
        obtain ⟨data, rfl, -⟩ := withMode_ok hg
        rfl
      rw [hown]
      exact (ih hmasters).withMode hg

end LayerGeometry

end MaskLayout
