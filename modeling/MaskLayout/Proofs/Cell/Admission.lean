import MaskLayout.Proofs.Cell.Layer

/-!
# What a layer admits

What a layer admits. A shape, a placed master or a mode is refused for one reason only: the layer is less general than
what it would have to hold. Shapes that are not too general can be drawn in any order, and a composed layer is never less
general than its drawn shapes, so these can always be drawn anew.
-/

namespace MaskLayout

variable [PolygonLibrary]

namespace Coverage

variable {c d : Coverage} {s : Shape}

theorem mode_transform (c : Coverage) (t : Transform) : (c.transform t).mode = c.mode := by
  cases c <;> rfl

theorem exists_insert_iff : (∃ d, c.insert s = .ok d) ↔ s.mode ≤ c.mode := by
  constructor
  · rintro ⟨d, hd⟩
    exact (insert_ok hd).2
  · intro hle
    simp only [insert, if_neg (Mode.not_lt.2 hle)]
    cases c with
    | poly90 rects =>
        cases s with
        | rect r => exact ⟨_, rfl⟩
        | poly90 l => exact ⟨_, rfl⟩
        | poly45 l => exact absurd (Mode.eq_poly90_of_le hle) (by simp [Shape.mode])
        | poly45Set ls => exact absurd (Mode.eq_poly90_of_le hle) (by simp [Shape.mode])
        | poly l => exact absurd (Mode.eq_poly90_of_le hle) (by simp [Shape.mode])
    | poly45 ls => exact ⟨_, rfl⟩
    | poly ls => exact ⟨_, rfl⟩

theorem exists_merge_iff : (∃ e, c.merge d = .ok e) ↔ d.mode ≤ c.mode := by
  constructor
  · rintro ⟨e, he⟩
    exact (merge_ok he).2
  · intro hle
    simp only [merge, if_neg (Mode.not_lt.2 hle)]
    cases c with
    | poly90 rects => cases d <;> exact ⟨_, rfl⟩
    | poly45 ls => exact ⟨_, rfl⟩
    | poly ls => exact ⟨_, rfl⟩

theorem exists_convert {m : Mode} (hle : c.mode ≤ m) : ∃ d, c.convert m = .ok d := by
  simp only [convert, if_neg (Mode.not_lt.2 hle)]
  cases m <;> exact ⟨_, rfl⟩

end Coverage

namespace LayerGeometry

variable {g g' master : LayerGeometry} {s : Shape} {horiz : Bool} {t : Transform} {m : Mode} {key : LayerKey}
  {merged : Set Element} {d : Drawn} {drawn drawn' : List Drawn}

theorem exists_add_iff : (∃ g', g.add s horiz = .ok g') ↔ s.mode ≤ g.mode := by
  simp only [add, Success.bind_iff, Success.pure_iff]
  constructor
  · rintro ⟨_, data, hdata, -⟩
    exact Coverage.exists_insert_iff.1 ⟨data, hdata⟩
  · intro hle
    obtain ⟨data, hdata⟩ := Coverage.exists_insert_iff.2 hle
    exact ⟨_, data, hdata, rfl⟩

theorem exists_record_iff : (∃ g', g.record master t = .ok g') ↔ master.mode ≤ g.mode := by
  constructor
  · rintro ⟨g', hg'⟩
    exact (record_ok hg').1
  · intro hle
    have hdata : (master.data.transform t).mode ≤ g.data.mode := by rwa [Coverage.mode_transform]
    obtain ⟨data, hmerge⟩ := Coverage.exists_merge_iff.2 hdata
    rw [record, if_neg (Mode.not_lt.2 hle)]
    exact ⟨_, Success.bind_iff.2 ⟨data, hmerge, rfl⟩⟩

theorem exists_withMode (h : g.mode ≤ m ∨ g.isEmpty = true) : ∃ g', g.withMode m = .ok g' := by
  by_cases hsame : m = g.mode
  · exact ⟨g, if_pos hsame⟩
  by_cases hless : m < g.mode
  · have hempty : g.isEmpty = true := h.resolve_left (Mode.not_le.2 hless)
    exact ⟨_, by rw [withMode, if_neg hsame, if_pos hless, if_pos hempty]⟩
  · obtain ⟨data, hdata⟩ := Coverage.exists_convert (c := g.data) (Mode.not_lt.1 hless)
    rw [withMode, if_neg hsame, if_neg hless]
    exact ⟨_, Success.bind_iff.2 ⟨data, hdata, rfl⟩⟩

/-- `g.Plain m drawn` says that `g` has mode `m` and holds just the shapes `drawn`. -/
structure Plain (g : LayerGeometry) (m : Mode) (drawn : List Drawn) : Prop where
  drawn_eq : g.drawn = drawn
  mode_eq : g.mode = m
  box_le_iff : ∀ u, g.box ≤ u ↔ Box.empty ≤ u ∧ ∀ d ∈ drawn, d.shape.box ≤ u
  covers : ∀ rects, g.data = .poly90 rects → ∀ sq, rects.Covers sq ↔ ∃ d ∈ drawn, ∃ r ∈ d.shape.pieces, r.Covers sq

theorem plain_empty (m : Mode) : (empty m).Plain m [] where
  drawn_eq := rfl
  mode_eq := Coverage.mode_empty m
  box_le_iff u := by simp [empty]
  covers rects hdata sq := by
    cases m <;> cases hdata
    simp

theorem Plain.add (h : g.Plain m drawn) (hg : g.add d.shape d.horiz = .ok g') : g'.Plain m (drawn ++ [d]) := by
  obtain ⟨data, hdata, heq⟩ := add_ok hg
  have hmode : data.mode = g.mode := (Coverage.insert_ok hdata).1
  refine ⟨?_, ?_, fun u => ?_, fun rects hrects sq => ?_⟩
  · rw [heq, h.drawn_eq]
  · rw [heq]
    exact hmode.trans h.mode_eq
  · rw [heq, Box.union_le_iff, h.box_le_iff, List.forall_mem_append, List.forall_mem_singleton]
    tauto
  · rw [heq] at hrects
    obtain rfl : data = .poly90 rects := hrects
    obtain ⟨before, hbefore, hcovers⟩ := Coverage.covers_insert_pieces hdata
    rw [hcovers, h.covers before hbefore]
    simp only [List.mem_append, List.mem_singleton, or_and_right, exists_or, exists_eq_left]

/-- Shapes that are not too general for a mode can be drawn in any order. -/
theorem exists_plain (hmodes : ∀ d ∈ drawn, d.shape.mode ≤ m) : ∃ g, ofDrawn m drawn = .ok g ∧ g.Plain m drawn := by
  induction drawn using List.reverseRecOn with
  | nil => exact ⟨empty m, rfl, plain_empty m⟩
  | append_singleton drawn d ih =>
      obtain ⟨hmodes, hdm⟩ := List.forall_mem_append.1 hmodes
      obtain ⟨g, hg, hplain⟩ := ih hmodes
      have hle : d.shape.mode ≤ g.mode := hplain.mode_eq ▸ hdm d List.mem_cons_self
      obtain ⟨g', hg'⟩ : ∃ g', g.add d.shape d.horiz = .ok g' := exists_add_iff.2 hle
      refine ⟨g', ?_, hplain.add hg'⟩
      rw [ofDrawn, List.foldlM_append]
      refine Success.bind_iff.2 ⟨g, hg, ?_⟩
      rw [List.foldlM_cons]
      exact Success.bind_iff.2 ⟨g', hg', rfl⟩

/-- Shapes can be drawn only where none is too general. -/
theorem modes_le_of_ofDrawn (hg : ofDrawn m drawn = .ok g) : g.mode = m ∧ ∀ d ∈ drawn, d.shape.mode ≤ m := by
  induction drawn using List.reverseRecOn generalizing g with
  | nil =>
      cases hg
      exact ⟨Coverage.mode_empty m, List.forall_mem_nil _⟩
  | append_singleton drawn d ih =>
      rw [ofDrawn, List.foldlM_append] at hg
      obtain ⟨before, hbefore, hlast⟩ := Success.bind_iff.1 hg
      obtain ⟨hmode, hmodes⟩ := ih hbefore
      rw [List.foldlM_cons] at hlast
      obtain ⟨after, hadd, hafter⟩ := Success.bind_iff.1 hlast
      cases hafter
      obtain ⟨data, hdata, rfl⟩ := add_ok hadd
      obtain ⟨hsame, hle⟩ := Coverage.insert_ok hdata
      exact ⟨hsame.trans hmode, List.forall_mem_append.2 ⟨hmodes, List.forall_mem_singleton.2 (hmode ▸ hle)⟩⟩

theorem plain_of_ofDrawn (hg : ofDrawn m drawn = .ok g) : g.Plain m drawn := by
  obtain ⟨plain, hplain, hspec⟩ := exists_plain (modes_le_of_ofDrawn hg).2
  exact Except.ok.inj (hplain.symm.trans hg) ▸ hspec

variable {plain : LayerGeometry}

theorem Plain.box_eq (h : g.Plain m drawn) (h' : plain.Plain m drawn') (hperm : drawn.Perm drawn') :
    g.box = plain.box := by
  refine eq_of_forall_ge_iff fun u => ?_
  rw [h.box_le_iff, h'.box_le_iff]
  simp only [hperm.mem_iff]

theorem Plain.covers_iff {rects rects' : RectSet} (h : g.Plain m drawn) (h' : plain.Plain m drawn')
    (hperm : drawn.Perm drawn') (hg : g.data = .poly90 rects) (hplain : plain.data = .poly90 rects') (sq : Point) :
    rects.Covers sq ↔ rects'.Covers sq := by
  rw [h.covers rects hg, h'.covers rects' hplain]
  simp only [hperm.mem_iff]

/-- A change of mode leaves a layer at least as general as the shapes within its box. -/
theorem modes_le_of_withMode (hg : g.withMode m = .ok g') (hpoints : ∀ d ∈ drawn, d.shape.points ≠ [])
    (hboxes : ∀ d ∈ drawn, d.shape.box ≤ g.box) (hmodes : ∀ d ∈ drawn, d.shape.mode ≤ g.mode) :
    ∀ d ∈ drawn, d.shape.mode ≤ g'.mode := by
  obtain ⟨data, rfl, hmode, hdata⟩ := withMode_ok hg
  intro d hd
  change d.shape.mode ≤ data.mode
  rcases hdata with rfl | ⟨hbox, -⟩ | hmore
  · exact hmodes d hd
  · -- Only a layer with an empty box becomes less general, and that has no room for a shape.
    have hne := Box.isEmpty_of_le (hboxes d hd) (Shape.isEmpty_box_of_points (hpoints d hd))
    rw [hbox] at hne
    cases hne
  · rw [hmode]
    exact Mode.le_trans (hmodes d hd) (Nat.le_of_lt hmore)

theorem Composed.boxes_le (h : Composed key g merged) : ∀ d ∈ g.drawn, d.shape.box ≤ g.box := by
  induction h with
  | empty m => exact fun d hd => (List.not_mem_nil hd).elim
  | add h hs hg ih =>
      obtain ⟨data, -, rfl⟩ := add_ok hg
      refine List.forall_mem_append.2 ⟨fun d hd => (ih d hd).trans (Box.le_union_right _ _), ?_⟩
      exact List.forall_mem_singleton.2 (Box.le_union_left _ _)
  | record h hmaster hg ih =>
      obtain ⟨-, data, -, rfl⟩ := record_ok hg
      exact fun d hd => (ih d hd).trans (Box.le_union_right _ _)
  | withMode h hg ih =>
      obtain ⟨data, rfl, -⟩ := withMode_ok hg
      exact ih

/-- A composed layer is at least as general as its drawn shapes. -/
theorem Composed.modes_le (h : Composed key g merged) : ∀ d ∈ g.drawn, d.shape.mode ≤ g.mode := by
  induction h with
  | empty m => exact fun d hd => (List.not_mem_nil hd).elim
  | add h hs hg ih =>
      obtain ⟨data, hdata, rfl⟩ := add_ok hg
      obtain ⟨hmode, hle⟩ := Coverage.insert_ok hdata
      simp only [mode, hmode] at *
      exact List.forall_mem_append.2 ⟨ih, List.forall_mem_singleton.2 hle⟩
  | record h hmaster hg ih =>
      obtain ⟨-, data, hdata, rfl⟩ := record_ok hg
      simp only [mode, (Coverage.merge_ok hdata).1] at *
      exact ih
  | withMode h hg ih =>
      have hmodes := modes_le_of_withMode hg (fun d hd => (h.proper d hd).points) h.boxes_le ih
      obtain ⟨data, rfl, -⟩ := withMode_ok hg
      exact hmodes

/-- The drawn shapes of a composed layer can be drawn anew. -/
theorem Composed.exists_withoutMasters (h : Composed key g merged) : ∃ g', g.withoutMasters = .ok g' := by
  obtain ⟨g', hg', -⟩ := exists_plain h.modes_le
  exact ⟨g', hg'⟩

end LayerGeometry

end MaskLayout
