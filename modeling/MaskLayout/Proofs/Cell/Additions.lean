import MaskLayout.Proofs.Cell.Regular

/-!
# Additions to a regular cell

Additions to a regular cell. For every kind of object it is said what decides whether it is added; an object that is
refused leaves the cell as it is, and one that is added leaves a regular cell. Arrays are decided before their first
element, so they are added as a whole or not at all.
-/

namespace MaskLayout

variable [PolygonLibrary]

namespace CellOf

/-- Whether a cell accepts a master: they share a technology, and the master is not more general. -/
def Accepts (c : Cell) (m : Master) : Prop := m.cell.tech = c.tech ∧ m.cell.mode ≤ c.mode

/-- Whether a cell admits a new instance: its name, if it is given, is free, and the cell accepts its master. -/
def Admits (c : Cell) (o : Instance) : Prop :=
  (o.name ≠ "" → c.instance? o.name = none) ∧ ∀ m, o.bound? = some m → c.Accepts m

/-- Whether the layers of a master fit it, and it has the property `B` if a cell accepts it. -/
def Offers (B : Master → Prop) (c : Cell) (m : Master) : Prop := m.cell.LayersFit ∧ (c.Accepts m → B m)

/-- Whether a cell has a routing grid with a level where a wire over some tracks has a width. -/
def HasTracks (c : Cell) (level width : Int) : Prop :=
  ∃ g t w, c.theGrid = .ok g ∧ g.trackLevel level = .ok t ∧ t.wireWidth width = .ok w

/-- The grid of a cell, a level of it, and the width of a wire over some tracks there. -/
def tracks (c : Cell) (level width : Int) : Except LayoutError (RoutingGrid × TrackLevel × Int) := do
  let g ← c.theGrid
  let t ← g.trackLevel level
  let w ← t.wireWidth width
  return (g, t, w)

theorem tracks_ok_iff {c : Cell} {level width w : Int} {g : RoutingGrid} {t : TrackLevel} :
    c.tracks level width = .ok (g, t, w) ↔
      c.theGrid = .ok g ∧ g.trackLevel level = .ok t ∧ t.wireWidth width = .ok w := by
  simp only [tracks, Success.bind_iff, Success.pure_iff, Prod.mk.injEq]
  constructor
  · rintro ⟨_, hg, _, ht, _, hw, rfl, rfl, rfl⟩
    exact ⟨hg, ht, hw⟩
  · rintro ⟨hg, ht, hw⟩
    exact ⟨g, hg, t, ht, w, hw, rfl, rfl, rfl⟩

theorem tracks_error_iff {c : Cell} {level width : Int} {x : LayoutError} :
    c.tracks level width = .error x ↔ c.theGrid = .error x ∨ ∃ g, c.theGrid = .ok g ∧
      (g.trackLevel level = .error x ∨ ∃ t, g.trackLevel level = .ok t ∧ t.wireWidth width = .error x) := by
  simp only [tracks, Success.bind_error_iff, pure, Except.pure, reduceCtorEq, and_false, exists_false, or_false]

end CellOf

namespace InstanceOf

/-- Whether all layers that an instance merges, if it has elements, are within a mode. -/
def Recordable (i : Instance) (mode : Mode) : Prop :=
  ∀ m, i.bound? = some m → ∀ e ∈ m.cell.layers.entries, ∀ _t ∈ i.elements, e.2.mode ≤ mode

theorem recordable_of_mode_le {i : Instance} {mode : Mode}
    (h : ∀ m, i.bound? = some m → m.cell.LayersFit ∧ m.cell.mode ≤ mode) : i.Recordable mode := by
  intro m hm e he t ht
  obtain ⟨hfit, hmode⟩ := h m hm
  have hlayer := hfit.mode e.1
  rw [CellOf.layerAt, KeyMap.get?_eq_some_iff.2 he, Option.getD_some] at hlayer
  rwa [hlayer]

end InstanceOf

namespace Edit

open CellOf

variable {B : Master → Prop} {c : Cell} {key : LayerKey}

/-- A shape that is not more general than the cell can be drawn on every layer. -/
theorem ends_draw (h : c.Regular B) {s : Shape} {horiz : Bool} {done : Unit → Cell → Prop}
    {failed : LayoutError → Cell → Prop} (hle : s.mode ≤ c.mode)
    (hdone : ∀ g, (c.layerAt key).add s horiz = .ok g → done () { c with layers := c.layers.insert key g }) :
    Ends (draw key s horiz) c done failed := by
  rw [← h.mode key] at hle
  obtain ⟨g, hg⟩ := LayerGeometry.exists_add_iff.2 hle
  exact (ends_onLayer_of_ok hg).2 (hdone g hg)

theorem decides_shape (h : c.Regular B) (o : ShapeOn) :
    Decides (CellObject.addTo o) c (c.tech.value.checkKey o.key = .ok () ∧ o.shape.mode ≤ c.mode)
      fun o' c' => o' = o ∧ (o.shape.Proper → c.Keeps B c') := by
  refine decides_get_bind.2 (decides_require_bind fun hkey => ?_)
  split
  · rename_i hmore
    exact ⟨rfl, Mode.not_le.2 hmore⟩
  · rename_i hle
    rw [Mode.not_lt] at hle
    rw [Decides, ends_bind]
    refine ends_draw h hle fun g hg => ⟨hle, rfl, fun hs => ?_⟩
    exact h.grow hkey (.of_add hs hg)

/-- A rectangle can be drawn on every layer that the technology names, and is found there from then on. -/
theorem ends_draw_rect (h : c.Regular B) {r : Rect} {horiz : Bool} {done : Unit → Cell → Prop}
    {failed : LayoutError → Cell → Prop} (hkey : c.tech.value.checkKey key = .ok ())
    (hdone : ∀ layers, c.Keeps B { c with layers } →
      (∃ d ∈ (layerAt { c with layers } key).drawn, d.shape = .rect r) → done () { c with layers }) :
    Ends (draw key (.rect r) horiz) c done failed := by
  refine ends_draw h (Nat.zero_le _) fun g hg => ?_
  have hgrows : (c.layerAt key).Grows key [⟨.rect r, horiz⟩] ∅ g := .of_add (Shape.proper_rect r) hg
  refine hdone _ (h.grow hkey hgrows) ⟨⟨.rect r, horiz⟩, ?_, rfl⟩
  rw [layerAt_insert_self, hgrows.drawn]
  exact List.mem_append_right _ List.mem_cons_self

theorem decides_pin (h : c.Regular B) (o : Pin) :
    Decides (CellObject.addTo o) c
      ((∃ name, c.tech.value.layerName o.layer = .ok name) ∧ ∃ r : Rect, r.toBox = o.box)
      fun o' c' => o' = o ∧ c.Keeps B c' := by
  refine decides_get_bind.2 ((decides_check_bind (p := fun _ => ∃ r : Rect, r.toBox = o.box)
    fun name hlayer => ?_).congr (by simp))
  split
  · rename_i hbox
    refine ⟨rfl, ?_⟩
    rintro ⟨r, hr⟩
    rw [Box.toRect?_eq_some_iff.2 hr] at hbox
    cases hbox
  · rename_i r hr
    have hbox := Box.toRect?_eq_some_iff.1 hr
    split
    · rw [Decides, ends_bind]
      refine ends_draw_rect h (h.tech.checkKey_pin hlayer) fun layers hkeeps hdrawn => ⟨⟨r, hbox⟩, rfl, ?_⟩
      obtain ⟨d, hd, hshape⟩ := hdrawn
      exact hkeeps.trans (hkeeps.regular.withPin hlayer fun _ => ⟨d, hd, r, hshape, hbox⟩)
    · rename_i hplain
      exact ⟨⟨r, hbox⟩, rfl, h.withPin hlayer fun hdraw => absurd hdraw hplain⟩

theorem decides_label (h : c.Regular B) (o : Label) :
    Decides (CellObject.addTo o) c (c.tech.value.checkKey o.key = .ok ()) fun o' c' => o' = o ∧ c.Keeps B c' := by
  refine decides_get_bind.2 ((decides_require_bind (p := True) fun hkey => ?_).congr (and_iff_left trivial))
  exact ⟨trivial, rfl, h.withLabel hkey⟩

theorem decides_blockage (h : c.Regular B) (o : Blockage) :
    Decides (CellObject.addTo o) c (∀ layer, o.layer = some layer → ∃ name, c.tech.value.layerName layer = .ok name)
      fun o' c' => o' = o ∧ ((o.layer = none → o.type = .placement) → c.Keeps B c') := by
  refine decides_get_bind.2 ?_
  split
  · rename_i layer hlayer
    refine (decides_check_bind (p := fun _ => True) fun name hname => ?_).congr (by simp [hlayer])
    exact ⟨trivial, rfl, fun _ => h.withLayerBlockage hlayer hname⟩
  · rename_i hlayer
    exact ⟨by simp [hlayer], rfl, fun htype => h.withAreaBlockage ⟨hlayer, htype hlayer⟩⟩

theorem decides_boundary (h : c.Regular B) (o : Boundary) :
    Decides (CellObject.addTo o) c True fun o' c' => o' = o ∧ c.Keeps B c' :=
  ⟨trivial, rfl, h.withBoundary o⟩

theorem decides_via (h : c.Regular B) (o : ViaDrawing) :
    Decides (CellObject.addTo o) c (∃ layers, c.tech.value.viaLayersOf o.via.id = .ok layers)
      fun o' c' => o' = o ∧ c.Keeps B c' := by
  refine decides_get_bind.2 ((decides_check_bind (p := fun _ => True) fun layers hlayers => ?_).congr (by simp))
  obtain ⟨bot, top⟩ := layers
  dsimp only
  split
  · obtain ⟨hbot, htop⟩ := h.tech.checkKey_via hlayers
    rw [Decides, ends_bind]
    refine ends_draw_rect h hbot fun layers hbelow _ => ?_
    rw [ends_bind]
    refine ends_draw_rect hbelow.regular htop fun layers habove _ => ⟨trivial, rfl, ?_⟩
    exact hbelow.trans (habove.trans (habove.regular.withVia hlayers))
  · exact ⟨trivial, rfl, h.withVia hlayers⟩

theorem decides_checkMaster (name : String) (m : Master) (c : Cell) :
    Decides (checkMaster name m) c (c.Accepts m) fun _ c' => c' = c := by
  simp only [Decides, checkMaster, ends_bind, ends_get]
  split
  · rename_i htech
    exact ⟨rfl, fun hp => htech hp.1⟩
  · rename_i htech
    split
    · rename_i hmode
      exact ⟨rfl, fun hp => Mode.not_lt.2 hp.2 hmode⟩
    · rename_i hmode
      exact ⟨⟨not_not.1 htech, Mode.not_lt.1 hmode⟩, rfl⟩

/-- A placed layer of a master is merged exactly if it is not more general than the cell. -/
theorem ends_record (h : c.Regular B) {e : Element} {master : LayerGeometry}
    (hmaster : e.master.cell.layers.get? key = some master) (htech : e.master.cell.tech = c.tech)
    (hfit : e.master.cell.LayersFit) :
    Ends (onLayer key fun own => own.record master e.xform) c
      (fun _ c' => (c.Keeps B c' ∧ c'.instanceMap = c.instanceMap) ∧ master.mode ≤ c.mode)
      fun _ c' => (c.Keeps B c' ∧ c'.instanceMap = c.instanceMap) ∧ ¬ master.mode ≤ c.mode := by
  have hkey : c.tech.value.checkKey key = .ok () := htech ▸ hfit.named key master hmaster
  rw [ends_onLayer]
  refine ⟨fun g hg => ⟨⟨h.grow hkey (.of_record hmaster hg), rfl⟩, ?_⟩, fun x hx => ⟨⟨h.grow hkey (.refl _ _), rfl⟩, ?_⟩⟩
  · rw [← h.mode key]
    exact LayerGeometry.exists_record_iff.1 ⟨g, hg⟩
  · rw [← h.mode key, ← LayerGeometry.exists_record_iff]
    rintro ⟨g, hg⟩
    rw [hx] at hg
    cases hg

/-- An instance is merged exactly if all that it merges is within the mode of the cell. What it merges before it meets a
layer that is not remains merged. -/
theorem ends_recordInstance (h : c.Regular B) {i : Instance}
    (hmaster : ∀ m, i.bound? = some m → m.cell.tech = c.tech ∧ m.cell.LayersFit) :
    Ends (recordInstance i) c
      (fun _ c' => (c.Keeps B c' ∧ c'.instanceMap = c.instanceMap) ∧ i.Recordable c.mode)
      fun _ c' => (c.Keeps B c' ∧ c'.instanceMap = c.instanceMap) ∧ ¬ i.Recordable c.mode := by
  unfold recordInstance
  split
  · rename_i r hr
    refine ⟨⟨h.keeps, rfl⟩, fun m hm => ?_⟩
    simp [InstanceOf.bound?, hr] at hm
  · rename_i m hm
    have hbound : i.bound? = some m := by rw [InstanceOf.bound?, hm]
    obtain ⟨htech, hfit⟩ := hmaster m hbound
    simp only [InstanceOf.Recordable, hbound, Option.some.injEq, forall_eq']
    refine ends_forM_iff ⟨h.keeps, rfl⟩ ?_
    rintro ⟨key, g⟩ hentry d ⟨hd, hinstances⟩
    refine ends_forM_iff ⟨hd, hinstances⟩ ?_
    rintro t - d' ⟨hd', hinstances'⟩
    have hrecord := ends_record (e := ⟨m, t⟩) hd'.regular (KeyMap.get?_eq_some_iff.2 hentry) (htech.trans hd'.tech.symm) hfit
    simp only [hd'.mode] at hrecord
    exact hrecord.mono (fun _ _ h' => ⟨⟨hd'.trans h'.1.1, h'.1.2.trans hinstances'⟩, h'.2⟩)
      fun _ _ h' => ⟨⟨hd'.trans h'.1.1, h'.1.2.trans hinstances'⟩, h'.2⟩

theorem ends_nextName {done : String → Cell → Prop} {failed : LayoutError → Cell → Prop}
    (hdone : ∀ name n, c.instance? name = none → done name { c with nameCount := n }) :
    Ends nextName c done failed := by
  simp only [nextName, ends_bind, ends_get, ends_set, ends_pure]
  refine hdone _ _ (instance?_eq_none_iff.2 fun e he hname => ?_)
  exact freshIndex_not_mem (c.instanceMap.map (·.1)) c.nameCount (hname ▸ List.mem_map_of_mem he)

/-- An accepted instance whose name is settled is merged and takes its place; nothing of that can fail. -/
private theorem ends_place (h : c.Regular B) {o : Instance}
    (haccepts : ∀ m, o.bound? = some m → c.Accepts m ∧ m.cell.LayersFit ∧ B m) :
    Ends (do
        recordInstance o
        modify fun c => c.withInstance o.name o
        return o) c (fun _ c' => c.Keeps B c') fun _ _ => False := by
  have hrecordable : o.Recordable c.mode :=
    InstanceOf.recordable_of_mode_le fun m hm => ⟨(haccepts m hm).2.1, (haccepts m hm).1.2⟩
  rw [ends_bind]
  refine (ends_recordInstance h fun m hm => ?_).mono ?_ fun _ _ hx => absurd hrecordable hx.2
  · obtain ⟨⟨htech, -⟩, hfit, -⟩ := haccepts m hm
    exact ⟨htech, hfit⟩
  · rintro _ d ⟨⟨hd, -⟩, -⟩
    refine hd.trans (hd.regular.withInstance rfl fun m hm => ?_)
    obtain ⟨⟨htech, -⟩, hfit, hB⟩ := haccepts m hm
    exact ⟨hB, htech.trans hd.tech.symm, hfit⟩

/-- A name that is given or found does not make a difference to how a change goes on. -/
private theorem ends_named {name : String} {next : String → Edit Instance} {done : Instance → Cell → Prop}
    {failed : LayoutError → Cell → Prop} (hnext : ∀ name n, Ends (next name) { c with nameCount := n } done failed) :
    Ends (if name = "" then nextName >>= next else pure name >>= next) c done failed := by
  split
  · rw [ends_bind]
    exact ends_nextName fun found n _ => hnext found n
  · rw [ends_bind]
    exact hnext name c.nameCount

theorem decides_inst (h : c.Regular B) (o : Instance) (hoffers : ∀ m, o.bound? = some m → c.Offers B m) :
    Decides (CellObject.addTo o) c (c.Admits o) fun _ c' => c.Keeps B c' := by
  have hplace (hadmits : c.Admits o) (name : String) (n : Nat) :
      Ends (do
          recordInstance { o with name }
          modify fun c => c.withInstance name { o with name }
          return { o with name }) { c with nameCount := n }
        (fun _ c' => c.Admits o ∧ c.Keeps B c') fun _ c' => c' = c ∧ ¬ c.Admits o := by
    have hcount := h.withNameCount n
    refine (ends_place hcount.regular (o := { o with name }) fun m hm => ?_).mono
      (fun _ _ hkeeps => ⟨hadmits, hcount.trans hkeeps⟩) fun _ _ hx => hx.elim
    exact ⟨hadmits.2 m hm, (hoffers m hm).1, (hoffers m hm).2 (hadmits.2 m hm)⟩
  simp only [Decides, CellObject.addTo, ends_bind, ends_get]
  split
  · rename_i htaken
    refine ⟨rfl, fun hp => ?_⟩
    rw [hp.1 htaken.1] at htaken
    cases htaken.2
  rename_i hfree
  have hfree : o.name ≠ "" → c.instance? o.name = none := by simpa using hfree
  split
  · rename_i m hm
    rw [ends_bind]
    refine Ends.mono (decides_checkMaster o.name m c) ?_ fun _ _ hx => ⟨hx.1, fun hp => hx.2 (hp.2 m hm)⟩
    rintro _ d ⟨haccepts, rfl⟩
    refine ends_named (hplace ⟨hfree, fun m' hm' => ?_⟩)
    obtain rfl := Option.some.inj (hm.symm.trans hm')
    exact haccepts
  · rename_i hnone
    refine ends_named (hplace ⟨hfree, fun m hm => ?_⟩)
    rw [hnone] at hm
    cases hm

theorem decides_addRects (h : c.Regular B) (key : LayerKey) (horiz : Bool) (r : Rect) (tiling : Tiling) :
    Decides (addRects key horiz r tiling) c (tiling.offsets ≠ [] → c.tech.value.checkKey key = .ok ())
      fun _ c' => c.Keeps B c' := by
  refine decides_forM h.keeps fun offset _ d hd => ?_
  refine ((decides_shape hd.regular _).add fun _ _ hdone => hd.trans (hdone.2 ?_)).congr ?_
  · exact Shape.proper_rect _
  · rw [hd.tech]
    exact and_iff_left (Nat.zero_le _)

theorem decides_addVias (h : c.Regular B) (v : Via) (dirs : Option ViaDirs) (tiling : Tiling) :
    Decides (addVias v dirs tiling) c (∃ layers, c.tech.value.viaLayersOf v.id = .ok layers)
      fun _ c' => c.Keeps B c' := by
  refine decides_get_bind.2 ((decides_check_bind (p := fun _ => True) fun layers hlayers => ?_).congr (by simp))
  refine (decides_forM (p := True) h.keeps fun offset _ d hd => ?_).congr (by simp)
  refine ((decides_via hd.regular _).add fun _ _ hdone => hd.trans hdone.2).congr (iff_true_intro ?_)
  rw [hd.tech]
  exact ⟨layers, hlayers⟩

/-- A traversal of tracks of a level can only fail before it starts, as each of its tracks has a layer that the
technology names. -/
theorem ends_tracks {α : Type} (h : c.Regular B) {level width : Int} {l : List α} (trackOf : α → Int)
    (put : TrackLevel → Int → Int → LayerKey → Edit Unit) (P : RoutingGrid → TrackLevel → Int → List α → Cell → Prop)
    (hstart : ∀ g t w, P g t w [] c)
    (hput : ∀ g t w, c.tracks level width = .ok (g, t, w) → ∀ done a d key, g.layerKey level (trackOf a) = .ok key →
      c.tech.value.checkKey key = .ok () → P g t w done d →
        Ends (put t w (trackOf a) key) d (fun _ d' => P g t w (done ++ [a]) d') fun _ _ => False) :
    Ends (do
        let c ← get
        let g ← check c.theGrid
        let t ← check (g.trackLevel level)
        let w ← check (t.wireWidth width)
        l.forM fun a => do
          let key ← check (g.layerKey level (trackOf a))
          put t w (trackOf a) key) c
      (fun _ c' => ∃ g t w, c.tracks level width = .ok (g, t, w) ∧ P g t w l c')
      fun x c' => c.tracks level width = .error x ∧ c' = c := by
  simp only [ends_bind, ends_get, ends_check]
  refine ⟨fun g hg => ⟨fun t ht => ⟨fun w hw => ?_, fun x hx => ?_⟩, fun x hx => ?_⟩, fun x hx => ?_⟩
  · have htracks : c.tracks level width = .ok (g, t, w) := tracks_ok_iff.2 ⟨hg, ht, hw⟩
    obtain ⟨hloaded, htech⟩ := h.grid g (Tech.found_iff.1 hg)
    suffices hloop : Ends (l.forM fun a => do
        let key ← check (g.layerKey level (trackOf a))
        put t w (trackOf a) key) c (fun _ c' => P g t w l c') fun _ _ => False from
      hloop.mono (fun _ _ hc' => ⟨g, t, w, htracks, hc'⟩) fun _ _ hx => hx.elim
    refine ends_forM_induction (P g t w) (hstart g t w) fun done a rest d _ hd => ?_
    obtain ⟨key, hkey, hnamed⟩ := hloaded.exists_layerKey ht (trackOf a)
    rw [hkey, check, pure_bind]
    exact hput g t w htracks done a d key hkey (htech ▸ hnamed) hd
  · exact ⟨tracks_error_iff.2 (.inr ⟨g, hg, .inr ⟨t, ht, hx⟩⟩), trivial⟩
  · exact ⟨tracks_error_iff.2 (.inr ⟨g, hg, .inl hx⟩), trivial⟩
  · exact ⟨tracks_error_iff.2 (.inl hx), trivial⟩

private theorem decides_tracks {α : Type} (h : c.Regular B) {level width : Int} {l : List α} (trackOf : α → Int)
    (put : TrackLevel → Int → Int → LayerKey → Edit Unit)
    (hput : ∀ t w halfTrack key d, c.Keeps B d → c.tech.value.checkKey key = .ok () →
      Decides (put t w halfTrack key) d True fun _ d' => c.Keeps B d') :
    Decides (do
        let c ← get
        let g ← check c.theGrid
        let t ← check (g.trackLevel level)
        let w ← check (t.wireWidth width)
        l.forM fun a => do
          let key ← check (g.layerKey level (trackOf a))
          put t w (trackOf a) key) c (c.HasTracks level width) fun _ c' => c.Keeps B c' := by
  refine (ends_tracks h trackOf put (fun _ _ _ _ d => c.Keeps B d) (fun _ _ _ => h.keeps)
    fun g t w _ _ a d key _ hkey hd => ?_).mono ?_ ?_
  · exact Ends.mono (hput t w (trackOf a) key d hd hkey) (fun _ _ hd' => hd'.2) fun _ _ hx => hx.2 trivial
  · rintro _ c' ⟨g, t, w, htracks, hc'⟩
    exact ⟨⟨g, t, w, tracks_ok_iff.1 htracks⟩, hc'⟩
  · rintro x c' ⟨hx, rfl⟩
    refine ⟨rfl, ?_⟩
    rintro ⟨g, t, w, htracks⟩
    rw [tracks_ok_iff.2 htracks] at hx
    cases hx

theorem decides_addWires (h : c.Regular B) (wires : WireArray) :
    Decides (addWires wires) c (c.HasTracks wires.tracks.level wires.tracks.width) fun _ c' => c.Keeps B c' := by
  refine decides_tracks h (fun halfTrack => halfTrack) (fun t w halfTrack key =>
    add (ShapeOn.mk key (.rect (t.wireRect wires.lower wires.upper (t.center halfTrack) w)) (t.dir == .horiz))) ?_
  intro t w halfTrack key d hd hkey
  refine ((decides_shape hd.regular _).add fun _ _ hdone => hd.trans (hdone.2 ?_)).congr (iff_true_intro ?_)
  · exact Shape.proper_rect _
  · rw [hd.tech]
    exact ⟨hkey, Nat.zero_le _⟩

theorem decides_addPins (h : c.Regular B) (net label : String) (level halfTrack lower upper width count pitch : Int) :
    Decides (addPins net label level halfTrack lower upper width count pitch) c (c.HasTracks level width)
      fun _ c' => c.Keeps B c' := by
  refine decides_tracks h (fun i : Nat => halfTrack + i * pitch) (fun t w h key =>
    add (Pin.mk key.layer net label (t.wireRect lower upper (t.center h) w).toBox)) ?_
  intro t w h key d hd hkey
  refine ((decides_pin hd.regular _).add fun _ _ hdone => hd.trans hdone.2).congr (iff_true_intro ⟨?_, _, rfl⟩)
  rw [hd.tech]
  exact (Tech.checkKey_iff.1 hkey).1

end Edit

end MaskLayout
