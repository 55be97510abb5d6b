import MaskLayout.Proofs.Grid.Acceptance

/-!
# Half-tracks and coordinates

Half-tracks, by their centers and by their colors. On every level of a loaded grid half-tracks and the coordinates that
they are centered on are in bijection and in the same order, below zero as well; every other coordinate is refused. The
colors of a level take turns over its tracks, two half-tracks to a track.
-/

namespace MaskLayout

namespace TrackLevel

variable {tech : Tech} {t : TrackLevel} {coord : Int}

/-- Half-tracks are centered in their order, as they lie a positive half-pitch apart. -/
theorem Usable.center_lt_iff (h : t.Usable tech) {j k : Int} : t.center j < t.center k ↔ j < k := by
  rw [center, center, Int.add_lt_add_iff_left]
  exact Int.mul_lt_mul_right h.half

theorem error_of_halfTrackAt {x : LayoutError} (h : t.halfTrackAt coord = .error x) :
    x = .outOfRange (.offTrack coord) := by
  simp only [halfTrackAt] at h
  split at h
  · exact (Except.error.inj h).symm
  · cases h

/-- A coordinate is refused for one reason: no half-track is centered on it. -/
theorem Usable.halfTrackAt_error_iff (h : t.Usable tech) {x : LayoutError} :
    t.halfTrackAt coord = .error x ↔ x = .outOfRange (.offTrack coord) ∧ coord ∉ Set.range t.center := by
  constructor
  · intro hx
    refine ⟨error_of_halfTrackAt hx, ?_⟩
    rintro ⟨k, hk⟩
    rw [h.halfTrackAt_iff.2 hk] at hx
    cases hx
  · rintro ⟨rfl, hnone⟩
    cases hresult : t.halfTrackAt coord with
    | ok k => exact absurd ⟨k, h.halfTrackAt_iff.1 hresult⟩ hnone
    | error y => rw [error_of_halfTrackAt hresult]

/-- `t.ColoredBy color` says that the layers of a level take turns: both half-tracks of a track have one color, the
first tracks have the layers in their order, and the colors come back after as many tracks as there are layers. -/
structure ColoredBy (t : TrackLevel) (color : Int → LayerKey) : Prop where
  track : ∀ j, color (2 * j + 1) = color (2 * j)
  first : ∀ (j : Nat) (hj : j < t.layers.length), color (2 * j) = t.layers[j]
  period : ∀ k, color (k + 2 * t.layers.length) = color k

theorem coloredBy_of_colorAt? {color : Int → LayerKey} (h : ∀ k, t.colorAt? k = some (color k)) :
    t.ColoredBy color := by
  have hcolor {j k : Int} (hjk : t.colorAt? j = t.colorAt? k) : color j = color k := by
    rwa [h, h, Option.some.injEq] at hjk
  constructor
  · intro j
    refine hcolor ?_
    have hhalf : (2 * j + 1) / 2 = 2 * j / 2 := by omega
    rw [colorAt?, colorAt?, hhalf]
  · intro j hj
    have hplace : (2 * (j : Int) / 2 % t.layers.length).toNat = j := by
      rw [Int.mul_ediv_cancel_left _ (by decide), Int.emod_eq_of_lt (by omega) (by omega), Int.toNat_natCast]
    have hfirst := h (2 * j)
    rw [colorAt?, hplace, List.getElem?_eq_getElem hj, Option.some.injEq] at hfirst
    exact hfirst.symm
  · intro k
    refine hcolor ?_
    have hhalf : (k + 2 * t.layers.length) / 2 = k / 2 + t.layers.length := by omega
    rw [colorAt?, colorAt?, hhalf, Int.add_emod_right]

end TrackLevel

namespace RoutingGrid

variable {g : RoutingGrid} {level : Int} {t : TrackLevel}

/-- The layers that a loaded grid answers for the half-tracks of a level color it, and all of them are named. -/
theorem Loaded.exists_coloring (h : g.Loaded) (ht : g.trackLevel level = .ok t) :
    ∃ color, t.ColoredBy color ∧
      ∀ k, g.layerKey level k = .ok (color k) ∧ g.tech.value.checkKey (color k) = .ok () := by
  choose color hcolor hnamed using (h.colored t (mem_of_trackLevel ht)).colorAt?
  refine ⟨color, TrackLevel.coloredBy_of_colorAt? hcolor, fun k => ⟨?_, hnamed k⟩⟩
  rw [layerKey, ht, Success.ok_bind, hcolor]
  rfl

/-- On every level of a loaded grid half-tracks and the coordinates that they are centered on are in bijection: either
way back leads to where one came from, and nothing but a coordinate without a half-track is refused. The bijection keeps
the order. -/
theorem Loaded.halfTracks_biject (h : g.Loaded) (hlow : g.bot ≤ level) (hhigh : level ≤ g.top) :
    ∃ t, g.trackLevel level = .ok t ∧
      (∀ k, t.halfTrackAt (t.center k) = .ok k) ∧
      (∀ coord k, t.halfTrackAt coord = .ok k → t.center k = coord) ∧
      (∀ coord x, t.halfTrackAt coord = .error x ↔
        x = .outOfRange (.offTrack coord) ∧ coord ∉ Set.range t.center) ∧
      ∀ j k, t.center j < t.center k ↔ j < k := by
  obtain ⟨t, ht⟩ := exists_trackLevel hlow hhigh
  have husable := h.usable t (mem_of_trackLevel ht)
  refine ⟨t, ht, fun k => husable.halfTrackAt_iff.2 rfl, fun coord k hk => husable.halfTrackAt_iff.1 hk, ?_, ?_⟩
  · exact fun coord x => husable.halfTrackAt_error_iff
  · exact fun j k => husable.center_lt_iff

/-- Half-tracks below zero, five apart, on a level that is centered on five. -/
theorem halfTracks_biject_lanes : ∃ g t, load laneTech (laneRules 2) = .ok g ∧ g.trackLevel 1 = .ok t ∧
    t.center (-3) = -10 ∧ t.halfTrackAt (-10) = .ok (-3) ∧ t.halfTrackAt (-7) = .error (.outOfRange (.offTrack (-7))) ∧
    -7 ∉ Set.range t.center ∧ t.center (-4) < t.center (-3) := by
  obtain ⟨g, hg⟩ : ∃ g, load laneTech (laneRules 2) = .ok g := ⟨_, rfl⟩
  have hlow : g.bot ≤ 1 := by cases hg; decide
  have hhigh : 1 ≤ g.top := by cases hg; decide
  obtain ⟨t, ht, hback, -, hrefused, horder⟩ := (Loaded.load hg).halfTracks_biject hlow hhigh
  have hcenter : t.center (-3) = -10 := by cases hg; cases ht; rfl
  have hoff : t.halfTrackAt (-7) = .error (.outOfRange (.offTrack (-7))) := by cases hg; cases ht; rfl
  exact ⟨g, t, hg, ht, hcenter, hcenter ▸ hback (-3), hoff, ((hrefused _ _).1 hoff).2,
    (horder (-4) (-3)).2 (by decide)⟩

end RoutingGrid

end MaskLayout
