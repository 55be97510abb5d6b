import MaskLayout.Proofs.Cell.Reachable
import MaskLayout.Proofs.Grid.HalfTracks
import MaskLayout.Proofs.Grid.Spacing

/-!
# Wires and pins over bundles of tracks

Wires and pins over bundles of tracks. In a reachable cell with a grid nothing can fail once the level and the width
of the bundles are known to be good: the grid names a layer for every half-track, and the rectangle of a wire is never
empty. So bundles are drawn as a whole, each where its half-track is centered and on the layer of its color.
-/

namespace MaskLayout

namespace TrackLevel

variable {t : TrackLevel} {w lower upper halfTrack : Int}

/-- A wire of width `w` on a half-track. Across the track it starts half its width, rounded down, below the center of
the half-track; along the track it lies between its two ends, in whatever order they are given. -/
structure Wire (t : TrackLevel) (w lower upper halfTrack : Int) (r : Rect) : Prop where
  low : r.lo.coord t.dir.other = t.center halfTrack - w / 2
  high : r.hi.coord t.dir.other = t.center halfTrack - w / 2 + w
  first : r.lo.coord t.dir = min lower upper
  last : r.hi.coord t.dir = max lower upper

theorem wire_wireRect (hw : 0 ≤ w) :
    t.Wire w lower upper halfTrack (t.wireRect lower upper (t.center halfTrack) w) := by
  obtain ⟨hlow, hhigh⟩ := across_wireRect (t := t) hw lower upper (t.center halfTrack)
  rw [Int.tdiv_eq_ediv_of_nonneg hw] at hlow hhigh
  refine ⟨hlow, hhigh, ?_, ?_⟩
  · rw [wireRect]
    cases t.dir <;> rfl
  · rw [wireRect]
    cases t.dir <;> rfl

/-- The wire on a half-track, with the layer of its color. -/
def wireOn (t : TrackLevel) (color : Int → LayerKey) (w lower upper halfTrack : Int) : LayerKey × Rect :=
  (color halfTrack, t.wireRect lower upper (t.center halfTrack) w)

/-- A wire with its layer as a shape, which prefers to run along its track. -/
def wireShape (t : TrackLevel) (p : LayerKey × Rect) : ShapeOn := ⟨p.1, .rect p.2, t.dir == .horiz⟩

end TrackLevel

/-- A wire with its layer as a pin. -/
def Pin.over (net label : String) (p : LayerKey × Rect) : Pin := ⟨p.1.layer, net, label, p.2.toBox⟩

/-- The half-tracks of bundles that were accepted are as far apart as was asked for, although a single bundle keeps no
pitch. -/
theorem TrackId.halfTracks_of_create {level halfTrack width count pitch : Int} {tracks : TrackId}
    (h : create level halfTrack width count pitch = .ok tracks) :
    1 ≤ width ∧ 1 ≤ count ∧ tracks.level = level ∧ tracks.width = width ∧
      tracks.halfTracks = (List.range count.toNat).map fun (i : Nat) => halfTrack + i * pitch := by
  rw [create] at h
  split at h
  · cases h
  · cases h
    refine ⟨by omega, by omega, rfl, rfl, List.map_congr_left fun i hi => ?_⟩
    have hlt : i < count.toNat := List.mem_range.1 hi
    by_cases hcount : count = 1
    · have hzero : i = 0 := by omega
      subst hzero
      rw [Int.natCast_zero, Int.zero_mul, Int.zero_mul]
    · rw [if_neg hcount]

theorem WireArray.eq_of_create {tracks : TrackId} {lower upper : Int} {wires : WireArray}
    (h : create tracks lower upper = .ok wires) : wires = ⟨tracks, lower, upper⟩ := by
  rw [create] at h
  split at h
  · cases h
  · exact (Except.ok.inj h).symm

namespace RoutingGrid

variable {g : RoutingGrid} {level width : Int}

/-- Whether a grid has a level. -/
def Defines (g : RoutingGrid) (level : Int) : Prop := g.bot ≤ level ∧ level ≤ g.top

/-- Why bundles of tracks are refused: the grid does not have their level, or they span no track. -/
inductive Refuses (g : RoutingGrid) (level width : Int) : LayoutError → Prop
  | level (h : ¬ g.Defines level) : Refuses g level width (.outOfRange (.level level))
  | width (hlevel : g.Defines level) (h : width < 1) : Refuses g level width (.outOfRange (.trackCount width))

theorem exists_trackLevel_iff : (∃ t, g.trackLevel level = .ok t) ↔ g.Defines level := by
  constructor
  · rintro ⟨t, ht⟩
    by_contra hnot
    rw [trackLevel_of_outside hnot] at ht
    cases ht
  · rintro ⟨hlow, hhigh⟩
    exact exists_trackLevel hlow hhigh

/-- `g.Bundles level halfTrack lower upper width pitch t placed` says that `placed` are the wires of bundles of `width`
tracks, with the layers that they are on. The first one is centered on `halfTrack`, and each is `pitch` half-tracks from
the next. Their level has the tracks `t`, colored in turn. -/
structure Bundles (g : RoutingGrid) (level halfTrack lower upper width pitch : Int) (t : TrackLevel)
    (placed : List (LayerKey × Rect)) : Prop where
  level : g.trackLevel level = .ok t
  wires : ∃ w color, t.wireWidth width = .ok w ∧ t.ColoredBy color ∧ ∀ (i : Nat) key r, placed[i]? = some (key, r) →
    key = color (halfTrack + i * pitch) ∧ t.Wire w lower upper (halfTrack + i * pitch) r

end RoutingGrid

section Library

variable [PolygonLibrary]

namespace CellOf

/-- The shapes of a list that are on a layer, as the layer lists them. -/
def drawnOn (shapes : List ShapeOn) (key : LayerKey) : List Drawn :=
  (shapes.filter fun o => o.key = key).map fun o => ⟨o.shape, o.horiz⟩

/-- `c.Gains shapes c'` says that `c'` is `c` with more shapes drawn, in the order of the list, and that besides the
pins nothing else is different. -/
structure Gains (c : Cell) (shapes : List ShapeOn) (c' : Cell) : Prop where
  layers : c.Adds (drawnOn shapes) (fun _ => ∅) c'
  rest : c' = { c with layers := c'.layers, pins := c'.pins }

/-- The rectangle of a pin on the pin purpose of its layer, if the technology draws pins. -/
def pinShapes (c : Cell) (layer : Int) (r : Rect) : List ShapeOn :=
  if c.tech.value.drawPins then
    [⟨⟨layer, c.tech.value.pinPurpose⟩, .rect r, decide (r.height ≤ r.width)⟩]
  else []

theorem pinShapes_congr {c d : Cell} (h : d.tech = c.tech) (layer : Int) (r : Rect) :
    d.pinShapes layer r = c.pinShapes layer r := by
  rw [pinShapes, pinShapes, h]

theorem pinsOn_insert (c : Cell) (o : Pin) (layer : Int) :
    pinsOn { c with pins := c.pins.insert o.layer (c.pinsOn o.layer ++ [o]) } layer =
      c.pinsOn layer ++ [o].filter fun p => p.layer = layer := by
  by_cases hlayer : o.layer = layer
  · subst hlayer
    simp [pinsOn]
  · simp [pinsOn, hlayer, KeyMap.get?_insert_of_ne (Ne.symm hlayer)]

variable {c d c' : Cell} {shapes shapes' : List ShapeOn}

theorem Gains.of_pins (pins : KeyMap Int (List Pin)) : c.Gains [] { c with pins } := ⟨.of_eq rfl rfl rfl, rfl⟩

theorem Gains.refl (c : Cell) : c.Gains [] c := .of_pins c.pins

omit [PolygonLibrary] in
theorem drawnOn_append (shapes shapes' : List ShapeOn) (key : LayerKey) :
    drawnOn (shapes ++ shapes') key = drawnOn shapes key ++ drawnOn shapes' key := by
  rw [drawnOn, List.filter_append, List.map_append, drawnOn, drawnOn]

omit [PolygonLibrary] in
theorem drawnOn_singleton (o : ShapeOn) (key : LayerKey) :
    drawnOn [o] key = if key = o.key then [⟨o.shape, o.horiz⟩] else [] := by
  by_cases hkey : key = o.key
  · simp [drawnOn, hkey]
  · simp [drawnOn, hkey, Ne.symm hkey]

theorem Gains.trans (h : c.Gains shapes d) (h' : d.Gains shapes' c') : c.Gains (shapes ++ shapes') c' where
  layers := by
    have hsum := h.layers.trans h'.layers
    rw [funext (drawnOn_append shapes shapes')]
    simpa only [Set.union_self] using hsum
  rest := by
    rw [h'.rest, h.rest]

theorem Gains.of_draw {o : ShapeOn} (ho : o.shape.Proper) {g : LayerGeometry}
    (h : (c.layerAt o.key).add o.shape o.horiz = .ok g) : c.Gains [o] { c with layers := c.layers.insert o.key g } where
  layers := by
    have hadds := Adds.of_layer (c := c) (.of_add ho h)
    rw [funext (drawnOn_singleton o)]
    simpa using hadds
  rest := rfl

theorem Gains.tech (h : c.Gains shapes c') : c'.tech = c.tech := by
  rw [h.rest]

variable {t : TrackLevel} {net label : String} {placed placed' : List (LayerKey × Rect)}

/-- `c.Wired t placed c'` says that `c'` is `c` with wires drawn along the tracks of `t`, and nothing else. -/
structure Wired (c : Cell) (t : TrackLevel) (placed : List (LayerKey × Rect)) (c' : Cell) : Prop where
  gains : c.Gains (placed.map t.wireShape) c'
  pins : c'.pins = c.pins

theorem Wired.refl (c : Cell) (t : TrackLevel) : c.Wired t [] c := ⟨.refl c, rfl⟩

theorem Wired.trans (h : c.Wired t placed d) (h' : d.Wired t placed' c') : c.Wired t (placed ++ placed') c' where
  gains := by
    rw [List.map_append]
    exact h.gains.trans h'.gains
  pins := h'.pins.trans h.pins

/-- `c.Pinned net label placed c'` says that `c'` is `c` with wires as new pins at the end of the pins of their layers,
each of them also drawn if the technology draws pins, and with nothing else. -/
structure Pinned (c : Cell) (net label : String) (placed : List (LayerKey × Rect)) (c' : Cell) : Prop where
  gains : c.Gains (placed.flatMap fun p => c.pinShapes p.1.layer p.2) c'
  pins : ∀ layer, c'.pinsOn layer =
    c.pinsOn layer ++ (placed.map (Pin.over net label)).filter fun p => p.layer = layer

theorem Pinned.refl (c : Cell) (net label : String) : c.Pinned net label [] c :=
  ⟨.refl c, fun _ => (List.append_nil _).symm⟩

theorem Pinned.trans (h : c.Pinned net label placed d) (h' : d.Pinned net label placed' c') :
    c.Pinned net label (placed ++ placed') c' where
  gains := by
    have hdrawn := h'.gains
    simp only [pinShapes_congr h.gains.tech] at hdrawn
    rw [List.flatMap_append]
    exact h.gains.trans hdrawn
  pins layer := by
    rw [h'.pins, h.pins, List.append_assoc, List.map_append, List.filter_append]

end CellOf

namespace Edit

open CellOf

variable {B : Master → Prop} {c c' : Cell}

theorem gains_of_shape {o o' : ShapeOn} (ho : o.shape.Proper) (h : CellObject.addTo o c = .ok o' c') :
    c.Gains [o] c' ∧ c'.pins = c.pins := by
  simp only [CellObject.addTo, bind_iff, get_iff, check_iff] at h
  obtain ⟨_, _, ⟨rfl, rfl⟩, _, _, ⟨-, rfl⟩, h⟩ := h
  split at h
  · simp only [bind_iff, throw_iff, false_and, exists_false] at h
  · simp only [bind_iff, pure_iff, draw, onLayer_iff] at h
    obtain ⟨_, _, ⟨g, hg, rfl⟩, -, rfl⟩ := h
    exact ⟨.of_draw ho hg, rfl⟩

theorem gains_of_pin {o o' : Pin} {r : Rect} (hr : r.toBox = o.box) (h : CellObject.addTo o c = .ok o' c') :
    c.Gains (c.pinShapes o.layer r) c' ∧ c'.pins = c.pins.insert o.layer (c.pinsOn o.layer ++ [o]) := by
  simp only [CellObject.addTo, bind_iff, get_iff, check_iff] at h
  obtain ⟨_, _, ⟨rfl, rfl⟩, _, _, ⟨-, rfl⟩, h⟩ := h
  rw [Box.toRect?_eq_some_iff.2 hr] at h
  dsimp only at h
  rw [pinShapes]
  split at h
  · rename_i hdraw
    simp only [bind_iff, modify_iff, pure_iff, draw, onLayer_iff] at h
    obtain ⟨_, _, ⟨g, hg, rfl⟩, _, _, rfl, -, rfl⟩ := h
    rw [if_pos hdraw]
    -- The box is drawn before the pin is listed, so listing it changes a cell that has gained the shape already.
    refine ⟨?_, rfl⟩
    let shown : ShapeOn := ⟨⟨o.layer, c.tech.value.pinPurpose⟩, .rect r, decide (r.height ≤ r.width)⟩
    exact (Gains.of_draw (o := shown) (Shape.proper_rect r) hg).trans (.of_pins _)
  · rename_i hplain
    simp only [bind_iff, modify_iff, pure_iff] at h
    obtain ⟨_, _, rfl, -, rfl⟩ := h
    rw [if_neg hplain]
    exact ⟨.of_pins _, rfl⟩

/-- A wire is drawn on every layer that the technology names. -/
theorem ends_add_wire (h : c.Regular B) (t : TrackLevel) {p : LayerKey × Rect}
    (hkey : c.tech.value.checkKey p.1 = .ok ()) :
    Ends (add (t.wireShape p)) c (fun _ c' => c.Keeps B c' ∧ c.Wired t [p] c') fun _ _ => False := by
  have hproper : (t.wireShape p).shape.Proper := Shape.proper_rect p.2
  refine ends_add.2 ((Ends.and_ok (decides_shape h _) fun _ _ hrun => gains_of_shape hproper hrun).mono ?_ ?_)
  · rintro _ c' ⟨⟨-, -, hkeeps⟩, hgains, hpins⟩
    exact ⟨hkeeps hproper, hgains, hpins⟩
  · rintro x c' ⟨-, hnot⟩
    exact hnot ⟨hkey, Nat.zero_le _⟩

/-- A pin with the box of a rectangle is added to every layer that the technology names. -/
theorem ends_add_pin (h : c.Regular B) (net label : String) {p : LayerKey × Rect}
    (hkey : c.tech.value.checkKey p.1 = .ok ()) :
    Ends (add (Pin.over net label p)) c (fun _ c' => c.Keeps B c' ∧ c.Pinned net label [p] c') fun _ _ => False := by
  refine ends_add.2 ((Ends.and_ok (decides_pin h _) fun _ _ hrun => gains_of_pin rfl hrun).mono ?_ ?_)
  · rintro _ c' ⟨⟨-, -, hkeeps⟩, hgains, hpins⟩
    refine ⟨hkeeps, ?_, fun layer => ?_⟩
    · rw [List.flatMap_singleton]
      exact hgains
    · rw [List.map_singleton, ← pinsOn_insert, pinsOn, hpins]
      rfl
  · rintro x c' ⟨-, hnot⟩
    exact hnot ⟨(Tech.checkKey_iff.1 hkey).1, p.2, rfl⟩

/-- What is put on tracks one after another, each time on the layer of the half-track. -/
theorem ends_placed {α : Type} (h : c.Regular B) {level width lower upper : Int} {l : List α} (trackOf : α → Int)
    (put : TrackLevel → LayerKey × Rect → Edit Unit) (Placed : Cell → TrackLevel → List (LayerKey × Rect) → Cell → Prop)
    (hstart : ∀ t, Placed c t [] c)
    (htrans : ∀ t placed placed' d d', Placed c t placed d → Placed d t placed' d' → Placed c t (placed ++ placed') d')
    (hput : ∀ t p d, d.Regular B → d.tech.value.checkKey p.1 = .ok () →
      Ends (put t p) d (fun _ d' => d.Keeps B d' ∧ Placed d t [p] d') fun _ _ => False) :
    Ends (do
        let c ← get
        let g ← check c.theGrid
        let t ← check (g.trackLevel level)
        let w ← check (t.wireWidth width)
        l.forM fun a => do
          let key ← check (g.layerKey level (trackOf a))
          put t (key, t.wireRect lower upper (t.center (trackOf a)) w)) c
      (fun _ c' => ∃ g t w, c.tracks level width = .ok (g, t, w) ∧ ∀ color, (∀ k, g.layerKey level k = .ok (color k)) →
        Placed c t (l.map fun a => t.wireOn color w lower upper (trackOf a)) c')
      fun x c' => c.tracks level width = .error x ∧ c' = c := by
  -- The invariant is stated for whatever coloring agrees with the grid, as the grid is only known once it is looked up.
  refine (ends_tracks h trackOf (fun t w k key => put t (key, t.wireRect lower upper (t.center k) w))
    (fun g t w done d => c.Keeps B d ∧ ∀ color, (∀ k, g.layerKey level k = .ok (color k)) →
      Placed c t (done.map fun a => t.wireOn color w lower upper (trackOf a)) d)
    (fun _ t _ => ⟨h.keeps, fun _ _ => hstart t⟩) ?_).mono ?_ fun _ _ hx => hx
  · rintro g t w - done a d key hkey hnamed ⟨hd, hdone⟩
    refine (hput t _ d hd.regular (hd.tech ▸ hnamed)).mono ?_ fun _ _ hx => hx
    rintro _ d' ⟨hkeeps, hplaced⟩
    refine ⟨hd.trans hkeeps, fun color hcolor => ?_⟩
    obtain rfl : key = color (trackOf a) := Except.ok.inj (hkey.symm.trans (hcolor _))
    rw [List.map_append]
    exact htrans t _ _ d d' (hdone color hcolor) hplaced
  · rintro _ c' ⟨g, t, w, htracks, -, hc'⟩
    exact ⟨g, t, w, htracks, hc'⟩

theorem ends_addWires (h : c.Regular B) (wires : WireArray) :
    Ends (addWires wires) c
      (fun _ c' => ∃ g t w, c.tracks wires.tracks.level wires.tracks.width = .ok (g, t, w) ∧
        ∀ color, (∀ k, g.layerKey wires.tracks.level k = .ok (color k)) →
          c.Wired t (wires.tracks.halfTracks.map (t.wireOn color w wires.lower wires.upper)) c')
      fun x c' => c.tracks wires.tracks.level wires.tracks.width = .error x ∧ c' = c :=
  ends_placed h (fun k => k) (fun t p => add (t.wireShape p)) Wired (.refl c) (fun _ _ _ _ _ h h' => h.trans h')
    fun t _ _ hd hkey => ends_add_wire hd t hkey

theorem ends_addPins (h : c.Regular B) (net label : String) (level halfTrack lower upper width count pitch : Int) :
    Ends (addPins net label level halfTrack lower upper width count pitch) c
      (fun _ c' => ∃ g t w, c.tracks level width = .ok (g, t, w) ∧ ∀ color, (∀ k, g.layerKey level k = .ok (color k)) →
        c.Pinned net label ((List.range count.toNat).map fun (i : Nat) =>
          t.wireOn color w lower upper (halfTrack + i * pitch)) c')
      fun x c' => c.tracks level width = .error x ∧ c' = c :=
  ends_placed h (fun i : Nat => halfTrack + i * pitch) (fun _ p => add (Pin.over net label p))
    (fun c _ => c.Pinned net label) (fun _ => .refl c net label) (fun _ _ _ _ _ h h' => h.trans h')
    fun _ _ _ hd hkey => ends_add_pin hd net label hkey

end Edit

namespace RoutingGrid

variable {g : RoutingGrid} {t : TrackLevel} {level width w : Int}

omit [PolygonLibrary] in
/-- On a level of a loaded grid the wires of bundles have the layers that the grid answers for their half-tracks. -/
theorem Loaded.exists_bundles (h : g.Loaded) (ht : g.trackLevel level = .ok t) (hw : t.wireWidth width = .ok w) :
    ∃ color, (∀ k, g.layerKey level k = .ok (color k)) ∧ ∀ halfTrack lower upper pitch n,
      g.Bundles level halfTrack lower upper width pitch t
        ((List.range n).map fun (i : Nat) => t.wireOn color w lower upper (halfTrack + i * pitch)) := by
  obtain ⟨color, hcolored, hcolor⟩ := h.exists_coloring ht
  refine ⟨color, fun k => (hcolor k).1, fun halfTrack lower upper pitch n => ⟨ht, w, color, hw, hcolored, ?_⟩⟩
  intro i key r hi
  rw [List.getElem?_map, Option.map_eq_some_iff] at hi
  obtain ⟨j, hj, hplaced⟩ := hi
  obtain ⟨hlt, rfl⟩ := List.getElem?_eq_some_iff.1 hj
  rw [List.getElem_range] at hplaced
  cases hplaced
  exact ⟨rfl, TrackLevel.wire_wireRect ((h.usable t (mem_of_trackLevel ht)).wireWidth_pos hw).le⟩

end RoutingGrid

namespace CellOf

variable {c : Cell} {g : RoutingGrid} {t : TrackLevel} {level width w : Int}

theorem tracks_of_grid (hg : c.grid = some g) {g' : RoutingGrid} (h : c.tracks level width = .ok (g', t, w)) :
    g' = g ∧ g.trackLevel level = .ok t ∧ t.wireWidth width = .ok w := by
  obtain ⟨hg', ht, hw⟩ := tracks_ok_iff.1 h
  obtain rfl := Option.some.inj (hg.symm.trans (Tech.found_iff.1 hg'))
  exact ⟨rfl, ht, hw⟩

theorem refuses_of_tracks (hg : c.grid = some g) {x : LayoutError} (h : c.tracks level width = .error x) :
    g.Refuses level width x := by
  have hgrid : c.theGrid = .ok g := Tech.found_iff.2 hg
  rw [tracks_error_iff, hgrid] at h
  obtain ⟨⟨⟩⟩ | ⟨g', ⟨⟩, hlevel | ⟨t, ht, hwidth⟩⟩ := h
  · by_cases hdefines : g.Defines level
    · obtain ⟨t, ht⟩ := RoutingGrid.exists_trackLevel_iff.2 hdefines
      rw [ht] at hlevel
      cases hlevel
    · rw [RoutingGrid.trackLevel_of_outside hdefines] at hlevel
      cases hlevel
      exact .level hdefines
  · obtain ⟨hless, rfl⟩ := TrackLevel.wireWidth_error_iff.1 hwidth
    exact .width (RoutingGrid.exists_trackLevel_iff.1 ⟨t, ht⟩) hless

/-- In a reachable cell with a grid, wires over bundles of tracks are drawn exactly if the grid has their level, and pins
over bundles are added exactly if they also span a track; a refusal says which of these fails and leaves the cell as it
is. As many of them are added as were asked for, each with the width of a wire over its tracks, centered on its half-track
and on the layer of its color. -/
theorem Reachable.bundles_drawn (h : Reachable c) (hg : c.grid = some g) :
    (∀ level halfTrack width count pitch lower upper tracks wires,
      TrackId.create level halfTrack width count pitch = .ok tracks → WireArray.create tracks lower upper = .ok wires →
      Edit.Ends (Edit.addWires wires) c
        (fun _ c' => g.Defines level ∧ ∃ t placed, g.Bundles level halfTrack lower upper width pitch t placed ∧
          (placed.length : Int) = count ∧ c.Wired t placed c')
        fun x c' => (¬ g.Defines level ∧ x = .outOfRange (.level level)) ∧ c' = c) ∧
    ∀ net label level halfTrack lower upper width count pitch,
      Edit.Ends (Edit.addPins net label level halfTrack lower upper width count pitch) c
        (fun _ c' => (g.Defines level ∧ 1 ≤ width) ∧ ∃ t placed,
          g.Bundles level halfTrack lower upper width pitch t placed ∧
          (placed.length : Int) = max count 0 ∧ c.Pinned net label placed c')
        fun x c' => g.Refuses level width x ∧ c' = c := by
  have hregular := h.regular
  obtain ⟨hloaded, -⟩ := hregular.grid g hg
  constructor
  · intro level halfTrack width count pitch lower upper tracks wires htracks hwires
    obtain ⟨hwidth, hcount, rfl, rfl, hhalfTracks⟩ := TrackId.halfTracks_of_create htracks
    obtain rfl := WireArray.eq_of_create hwires
    refine (Edit.ends_addWires hregular _).mono ?_ ?_
    · rintro _ c' ⟨g', t, w, hok, hwired⟩
      obtain ⟨rfl, ht, hw⟩ := tracks_of_grid hg hok
      obtain ⟨color, hcolor, hbundles⟩ := hloaded.exists_bundles ht hw
      have hdrawn := hwired color hcolor
      rw [hhalfTracks, List.map_map] at hdrawn
      refine ⟨RoutingGrid.exists_trackLevel_iff.1 ⟨t, ht⟩, t, _, hbundles _ _ _ _ _, ?_, hdrawn⟩
      rw [List.length_map, List.length_range]
      omega
    · rintro x c' ⟨hx, rfl⟩
      cases refuses_of_tracks hg hx with
      | level hnot => exact ⟨⟨hnot, rfl⟩, rfl⟩
      | width _ hless => exact absurd hless (Int.not_lt.2 hwidth)
  · intro net label level halfTrack lower upper width count pitch
    refine (Edit.ends_addPins hregular net label level halfTrack lower upper width count pitch).mono ?_ ?_
    · rintro _ c' ⟨g', t, w, hok, hpinned⟩
      obtain ⟨rfl, ht, hw⟩ := tracks_of_grid hg hok
      obtain ⟨color, hcolor, hbundles⟩ := hloaded.exists_bundles ht hw
      have hdefines := RoutingGrid.exists_trackLevel_iff.1 ⟨t, ht⟩
      have hwidth := TrackLevel.one_le_of_wireWidth hw
      refine ⟨⟨hdefines, hwidth⟩, t, _, hbundles _ _ _ _ _, ?_, hpinned color hcolor⟩
      rw [List.length_map, List.length_range]
      omega
    · rintro x c' ⟨hx, rfl⟩
      exact ⟨refuses_of_tracks hg hx, rfl⟩

end CellOf

end Library

open scoped ExactPolygons

namespace CellOf

/-- The rules of two layers of one type, whose pins are drawn. -/
def rowRules : TechRules := { stackRules with layerTypes := .ofList [("M1", "Mx"), ("M2", "Mx")] }

/-- The technology of these rules. -/
def rowTech : Shared Tech where
  serial := 2
  value := { stackTech.value with layerTypes := .ofList [(1, "Mx"), (2, "Mx")] }

theorem loaded_rowTech : rowTech.value.Loaded := ⟨rowRules, by decide +kernel⟩

/-- Wires five wide on every third half-track of the level with two colors, the first of them below zero. -/
def rowWires : WireArray := ⟨⟨2, -3, 1, 3, 3⟩, 10, 20⟩

/-- Where bundles stand on the upright tracks of the level with two colors, whose half-tracks are 4 apart. -/
theorem bundles_lane {g : RoutingGrid} {t : TrackLevel} {halfTrack lower upper width pitch w : Int}
    {placed : List (LayerKey × Rect)} (hg : RoutingGrid.load rowTech (RoutingGrid.laneRules 2) = .ok g)
    (hw : ∀ t, g.trackLevel 2 = .ok t → t.wireWidth width = .ok w)
    (h : g.Bundles 2 halfTrack lower upper width pitch t placed) (i : Nat) (key : LayerKey) (r : Rect)
    (hi : placed[i]? = some (key, r)) :
    r.lo = ⟨(halfTrack + i * pitch) * 4 - w / 2, min lower upper⟩ ∧
      r.hi = ⟨(halfTrack + i * pitch) * 4 - w / 2 + w, max lower upper⟩ := by
  obtain ⟨w', color, hw', -, hwires⟩ := h.wires
  obtain ⟨-, hwire⟩ := hwires i key r hi
  obtain rfl : w = w' := Except.ok.inj ((hw t h.level).symm.trans hw')
  have htracks : t.dir = .vert ∧ t.offset = 0 ∧ t.pitch / 2 = 4 := by
    cases hg
    cases h.level
    exact ⟨rfl, rfl, rfl⟩
  obtain ⟨hlow, hhigh, hfirst, hlast⟩ := hwire
  simp only [htracks, TrackLevel.center, Dir.other, Point.coord, Int.zero_add] at hlow hhigh hfirst hlast
  exact ⟨Point.ext hlow hfirst, Point.ext hhigh hlast⟩

/-- Wires and pins, whose ends are given in the other order, on tracks of two colors; and pins that span no track. -/
theorem bundles_drawn_rows : ∃ (c : Cell) (g : RoutingGrid), Reachable c ∧ c.grid = some g ∧
    (∃ c' t placed, Edit.addWires rowWires c = .ok () c' ∧ g.Bundles 2 (-3) 10 20 1 3 t placed ∧ placed.length = 3 ∧
      (∀ (i : Nat) key r, placed[i]? = some (key, r) → r.lo = ⟨12 * i - 14, 10⟩ ∧ r.hi = ⟨12 * i - 9, 20⟩) ∧
      c.Wired t placed c') ∧
    (∃ c' t placed, Edit.addPins "a" "a:" 2 (-3) 20 10 2 2 (-1) c = .ok () c' ∧
      g.Bundles 2 (-3) 20 10 2 (-1) t placed ∧ placed.length = 2 ∧
      (∀ (i : Nat) key r, placed[i]? = some (key, r) → r.lo = ⟨-20 - 4 * i, 10⟩ ∧ r.hi = ⟨-4 - 4 * i, 20⟩) ∧
      c.Pinned "a" "a:" placed c') ∧
    Edit.addPins "a" "a:" 2 (-3) 20 10 0 2 (-1) c = .error (.outOfRange (.trackCount 0)) c := by
  obtain ⟨g, hg⟩ : ∃ g, RoutingGrid.load rowTech (RoutingGrid.laneRules 2) = .ok g := ⟨_, rfl⟩
  obtain ⟨c, hc⟩ : ∃ c, (CellOf.empty rowTech "rows" .poly90 : Cell).withGrid g = .ok c := by
    cases hg
    exact ⟨_, rfl⟩
  have hreachable : Reachable c := .withGrid (.empty loaded_rowTech "rows" .poly90) (.load hg) hc
  have hgrid : c.grid = some g := by
    cases hg
    cases hc
    rfl
  have hdefines : g.Defines 2 := by
    cases hg
    exact ⟨by decide, by decide⟩
  have hsingle : ∀ t, g.trackLevel 2 = .ok t → t.wireWidth 1 = .ok 5 := by
    cases hg
    rintro _ ⟨⟩
    rfl
  have hdouble : ∀ t, g.trackLevel 2 = .ok t → t.wireWidth 2 = .ok 16 := by
    cases hg
    rintro _ ⟨⟩
    rfl
  obtain ⟨hwires, hpins⟩ := hreachable.bundles_drawn hgrid
  refine ⟨c, g, hreachable, hgrid, ?_, ?_, ?_⟩
  · have hends := hwires 2 (-3) 1 3 3 10 20 rowWires.tracks rowWires rfl rfl
    cases hrun : Edit.addWires rowWires c with
    | error x c' => exact absurd hdefines (hends.of_error hrun).1.1
    | ok u c' =>
        obtain ⟨-, t, placed, hbundles, hlength, hwired⟩ := hends.of_ok hrun
        refine ⟨c', t, placed, rfl, hbundles, by omega, fun i key r hi => ?_, hwired⟩
        obtain ⟨hlo, hhi⟩ := bundles_lane hg hsingle hbundles i key r hi
        rw [hlo, hhi, Point.mk.injEq, Point.mk.injEq]
        omega
  · have hends := hpins "a" "a:" 2 (-3) 20 10 2 2 (-1)
    cases hrun : Edit.addPins "a" "a:" 2 (-3) 20 10 2 2 (-1) c with
    | error x c' =>
        cases (hends.of_error hrun).1 with
        | level hnot => exact absurd hdefines hnot
        | width _ hless => exact absurd hless (by decide)
    | ok u c' =>
        obtain ⟨-, t, placed, hbundles, hlength, hpinned⟩ := hends.of_ok hrun
        refine ⟨c', t, placed, rfl, hbundles, by omega, fun i key r hi => ?_, hpinned⟩
        obtain ⟨hlo, hhi⟩ := bundles_lane hg hdouble hbundles i key r hi
        rw [hlo, hhi, Point.mk.injEq, Point.mk.injEq]
        omega
  · have hends := hpins "a" "a:" 2 (-3) 20 10 0 2 (-1)
    cases hrun : Edit.addPins "a" "a:" 2 (-3) 20 10 0 2 (-1) c with
    | ok u c' => exact absurd (hends.of_ok hrun).1.2 (by decide)
    | error x c' =>
        obtain ⟨hrefuses, rfl⟩ := hends.of_error hrun
        cases hrefuses with
        | level hnot => exact absurd hdefines hnot
        | width _ _ => rfl

end CellOf

end MaskLayout
