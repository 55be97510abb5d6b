import MaskLayout.Proofs.Cell.Merge
import MaskLayout.Proofs.Cell.Names

/-!
# Runs of operations

Runs of operations on a cell. In every cell that comes about by operations that succeed, each layer is composed of
what was drawn on it and of the elements of the instances that are there, and has the mode of the cell.
-/

namespace MaskLayout

variable [PolygonLibrary]

open InstanceOf

/-- An operation on a cell. -/
inductive CellOp where
  | shape (o : ShapeOn)
  | rects (key : LayerKey) (horiz : Bool) (r : Rect) (tiling : Tiling)
  | pin (o : Pin)
  | pins (net label : String) (level halfTrack lower upper width count pitch : Int)
  | via (o : ViaDrawing)
  | vias (v : Via) (dirs : Option ViaDirs) (tiling : Tiling)
  | wires (wires : WireArray)
  | label (o : Label)
  | blockage (o : Blockage)
  | boundary (o : Boundary)
  | inst (o : Instance)
  | renameInstance (old new : String)
  | setMaster (name : String) (m : Master)
  | setParam (name param : String) (value : ParamValue)
  | setMode (m : Mode)
  | setName (name : String)

namespace CellOp

/-- What an operation does to a cell. -/
def edit : CellOp → Edit Unit
  | shape o => Edit.add o
  | rects key horiz r tiling => Edit.addRects key horiz r tiling
  | pin o => Edit.add o
  | pins net text level halfTrack lower upper width count pitch =>
    Edit.addPins net text level halfTrack lower upper width count pitch
  | via o => Edit.add o
  | vias v dirs tiling => Edit.addVias v dirs tiling
  | wires ws => Edit.addWires ws
  | label o => Edit.add o
  | blockage o => Edit.add o
  | boundary o => Edit.add o
  | inst o => Edit.add o
  | renameInstance old new => Edit.renameInstance old new
  | setMaster name m => Edit.setMaster name m
  | setParam name param value => Edit.setParam name param value
  | setMode m => Edit.setMode m
  | setName name => Edit.setName name

/-- The masters that an operation binds. -/
def masters : CellOp → List Master
  | inst o => o.bound?.toList
  | setMaster _ m => [m]
  | _ => []

/-- Whether the shape of an operation has points and is rectilinear if its kind says so, as all shapes that clients make but
polygons without points, and arrays of instances have elements. -/
def Admissible : CellOp → Prop
  | shape o => o.shape.Proper
  | inst o => 1 ≤ o.tiling.nx ∧ 1 ≤ o.tiling.ny
  | _ => True

end CellOp

namespace CellOf

/-- `Sound B c` says that the layers of `c` are composed of what is drawn and of the elements of its instances, whose
arrays are not empty and whose masters have the property `B`. -/
structure Sound (B : Master → Prop) (c : Cell) : Prop where
  composed : ∀ key, LayerGeometry.Composed key (c.layerAt key) (c.merged key)
  mode : ∀ key, (c.layerAt key).mode = c.mode
  named : Named c.instanceMap
  tiling : ∀ i ∈ c.instances, 1 ≤ i.tiling.nx ∧ 1 ≤ i.tiling.ny
  masters : ∀ i ∈ c.instances, ∀ m, i.bound? = some m → B m

/-- Whether a cell still has all shapes that were drawn on another one. -/
def KeepsDrawn (c c' : Cell) : Prop := ∀ key, (c.layerAt key).drawn <+: (c'.layerAt key).drawn

variable {B : Master → Prop} {c c' d : Cell}

theorem sound_empty (tech : Shared Tech) (name : String) (mode : Mode) :
    Sound B (CellOf.empty tech name mode) where
  composed key := by
    have hnone : (CellOf.empty tech name mode : Cell).merged key = ∅ := by simp [merged, instances, CellOf.empty]
    rw [hnone]
    exact .empty mode
  mode key := Coverage.mode_empty mode
  named := named_nil
  tiling i hi := (List.not_mem_nil hi).elim
  masters i hi := (List.not_mem_nil hi).elim

theorem merged_congr (h : ∀ e, (∃ i ∈ c'.instances, e ∈ i.placed) ↔ ∃ i ∈ c.instances, e ∈ i.placed)
    (key : LayerKey) : c'.merged key = c.merged key := by
  ext e
  simp only [merged, Set.mem_inter_iff, Set.mem_iUnion, exists_prop, h e]

theorem Sound.of_adds (h : Sound B c) {drawn : LayerKey → List Drawn} (hadds : c.Adds drawn (fun _ => ∅) c') :
    Sound B c' ∧ c.KeepsDrawn c' := by
  have hmerged (key : LayerKey) : c'.merged key = c.merged key := by rw [merged, merged, hadds.instances]
  refine ⟨⟨fun key => ?_, fun key => ?_, ?_, ?_, ?_⟩, fun key => ?_⟩
  · have hcomposed := (hadds.layers key).composed _ (h.composed key)
    rwa [Set.empty_union, ← hmerged] at hcomposed
  · rw [(hadds.layers key).mode, h.mode, hadds.mode]
  · rw [hadds.instanceMap]
    exact h.named
  · rw [hadds.instances]
    exact h.tiling
  · rw [hadds.instances]
    exact h.masters
  · rw [(hadds.layers key).drawn]
    exact List.prefix_append _ _

end CellOf

namespace Edit

open CellOf

variable {B : Master → Prop} {c c' : Cell}

theorem checkMaster_ok {name : String} {m : Master} {u : Unit} (h : checkMaster name m c = .ok u c') : c = c' := by
  simp only [checkMaster, bind_iff, get_iff] at h
  obtain ⟨_, _, ⟨rfl, rfl⟩, h⟩ := h
  split at h
  · simp [bind_iff] at h
  · split at h
    · simp at h
    · exact (pure_iff.1 h).2

theorem nextName_ok {name : String} (h : nextName c = .ok name c') :
    c.instance? name = none ∧ ∃ n, c' = { c with nameCount := n } := by
  simp only [nextName, bind_iff, get_iff, set_iff, pure_iff] at h
  obtain ⟨_, _, ⟨rfl, rfl⟩, _, _, rfl, rfl, rfl⟩ := h
  refine ⟨instance?_eq_none_iff.2 fun e he heq => ?_, _, rfl⟩
  exact freshIndex_not_mem (c.instanceMap.map (·.1)) c.nameCount (heq ▸ List.mem_map.2 ⟨e, he, rfl⟩)

/-- A name is free whether it was given or found. -/
private theorem named_ok {name : String} {o : Instance} {next : String → Edit Instance}
    (hfree : ¬ (name ≠ "" ∧ (c.instance? name).isSome = true))
    (h : (if name = "" then nextName >>= next else pure name >>= next) c = .ok o c') :
    ∃ name d, c.instance? name = none ∧ (∃ n, d = { c with nameCount := n }) ∧ next name d = .ok o c' := by
  split at h
  · obtain ⟨found, d, hfound, hnext⟩ := bind_iff.1 h
    obtain ⟨hne, hd⟩ := nextName_ok hfound
    exact ⟨found, d, hne, hd, hnext⟩
  · rename_i hgiven
    obtain ⟨_, d, hpure, hnext⟩ := bind_iff.1 h
    obtain ⟨rfl, rfl⟩ := pure_iff.1 hpure
    have hnone : c.instance? name = none :=
      Option.not_isSome_iff_eq_none.1 fun hsome => hfree ⟨hgiven, hsome⟩
    exact ⟨name, c, hnone, ⟨c.nameCount, rfl⟩, hnext⟩

/-- A new instance gets a free name, its elements are merged, and it takes its place among the others. -/
theorem addInstance_ok {o o' : Instance} (h : (CellObject.addTo o : Edit Instance) c = .ok o' c') :
    ∃ name n d, c.instance? name = none ∧ recordInstance { o with name } { c with nameCount := n } = .ok () d ∧
      c' = d.withInstance name { o with name } := by
  simp only [CellObject.addTo, bind_iff, get_iff] at h
  obtain ⟨_, _, ⟨rfl, rfl⟩, h⟩ := h
  split at h
  · simp [bind_iff] at h
  rename_i hfree
  have hrun : ∃ name d, c.instance? name = none ∧ (∃ n, d = { c with nameCount := n }) ∧
      ((do
        recordInstance { o with name }
        modify fun c => c.withInstance name { o with name }
        return { o with name }) : Edit Instance) d = .ok o' c' := by
    cases hbound : o.bound? with
    | some m =>
        simp only [hbound] at h
        obtain ⟨_, d, hcheck, h⟩ := bind_iff.1 h
        obtain rfl := checkMaster_ok hcheck
        exact named_ok hfree h
    | none =>
        simp only [hbound] at h
        exact named_ok hfree h
  obtain ⟨name, d, hname, ⟨n, rfl⟩, hrun⟩ := hrun
  simp only [bind_iff, modify_iff, pure_iff] at hrun
  obtain ⟨_, d, hrecord, _, _, rfl, -, rfl⟩ := hrun
  exact ⟨name, n, d, hname, hrecord, rfl⟩

end Edit

namespace CellOf

variable {B : Master → Prop} {c c' : Cell}

theorem KeepsDrawn.of_eq (h : ∀ key, (c'.layerAt key).drawn = (c.layerAt key).drawn) : c.KeepsDrawn c' := by
  intro key
  rw [h key]

/-- Instances that come and go without elements, or under another name, leave a cell sound. -/
theorem Sound.congr (h : Sound B c) (hmode : c'.mode = c.mode) (hlayers : c'.layers = c.layers) (hnamed : Named c'.instanceMap)
    (hsame : ∀ i ∈ c'.instances,
      ∃ j ∈ c.instances, j.tiling = i.tiling ∧ ∀ m, i.bound? = some m → j.bound? = some m)
    (hplaced : ∀ e, (∃ i ∈ c'.instances, e ∈ i.placed) ↔ ∃ i ∈ c.instances, e ∈ i.placed) :
    Sound B c' ∧ c.KeepsDrawn c' := by
  have hat (key : LayerKey) : c'.layerAt key = c.layerAt key := by rw [layerAt, layerAt, hlayers, hmode]
  refine ⟨⟨fun key => ?_, fun key => ?_, hnamed, fun i hi => ?_, fun i hi m hm => ?_⟩, .of_eq fun key => ?_⟩
  · rw [hat, merged_congr hplaced]
    exact h.composed key
  · rw [hat, hmode]
    exact h.mode key
  · obtain ⟨j, hj, htiling, -⟩ := hsame i hi
    exact htiling ▸ h.tiling j hj
  · obtain ⟨j, hj, -, hbound⟩ := hsame i hi
    exact h.masters j hj m (hbound m hm)
  · rw [hat]

theorem Sound.inst (h : Sound B c) {o o' : Instance} (htiling : 1 ≤ o.tiling.nx ∧ 1 ≤ o.tiling.ny)
    (hmasters : ∀ m, o.bound? = some m → B m) (hrun : (CellObject.addTo o : Edit Instance) c = .ok o' c') :
    Sound B c' ∧ c.KeepsDrawn c' := by
  obtain ⟨name, n, d, hfree, hrecord, rfl⟩ := Edit.addInstance_ok hrun
  have hadds := Edit.merges_recordInstance _ _ _ _ hrecord
  have hnamed : Named d.instanceMap := by
    rw [hadds.instanceMap]
    exact h.named
  have hown : ({ o with name } : Instance).name = name := rfl
  have hmem (i : Instance) :
      i ∈ (d.withInstance name { o with name }).instances ↔ i = { o with name } ∨ i ∈ c.instances := by
    rw [hnamed.mem_withInstance hown, hadds.instances]
    exact or_congr_right (and_iff_left_of_imp (h.named.name_ne_of_instance? hfree i))
  refine ⟨⟨fun key => ?_, fun key => ?_, hnamed.withInstance hown, fun i hi => ?_, fun i hi m hm => ?_⟩,
    .of_eq fun key => ?_⟩
  · have hmerged : (d.withInstance name { o with name }).merged key =
        (InstanceOf.placed { o with name } ∩ Element.onKey key) ∪ c.merged key := by
      ext e
      simp only [merged, Set.mem_inter_iff, Set.mem_union, Set.mem_iUnion, exists_prop, hmem, or_and_right,
        exists_or, exists_eq_left]
    rw [hmerged]
    exact (hadds.layers key).composed _ (h.composed key)
  · exact ((hadds.layers key).mode.trans (h.mode key)).trans hadds.mode.symm
  · rcases (hmem i).1 hi with rfl | hi
    · exact htiling
    · exact h.tiling i hi
  · rcases (hmem i).1 hi with rfl | hi
    · exact hmasters m hm
    · exact h.masters i hi m hm
  · have hdrawn := (hadds.layers key).drawn
    rw [List.append_nil] at hdrawn
    exact hdrawn

theorem Sound.renameInstance (h : Sound B c) {old new : String} {u : Unit}
    (hrun : Edit.renameInstance old new c = .ok u c') : Sound B c' ∧ c.KeepsDrawn c' := by
  simp only [Edit.renameInstance, Edit.bind_iff, Edit.get_iff] at hrun
  obtain ⟨_, _, ⟨rfl, rfl⟩, hrun⟩ := hrun
  split at hrun
  · simp only [Edit.bind_iff, Edit.check_iff, Edit.pure_iff] at hrun
    obtain ⟨_, _, ⟨-, rfl⟩, -, rfl⟩ := hrun
    exact ⟨h, .of_eq fun _ => rfl⟩
  split at hrun
  · simp [Edit.bind_iff] at hrun
  rename_i hfree
  rw [Option.not_isSome_iff_eq_none] at hfree
  simp only [Edit.bind_iff, Edit.check_iff, Edit.set_iff] at hrun
  obtain ⟨i, _, ⟨hfound, rfl⟩, rfl⟩ := hrun
  obtain ⟨hi, rfl⟩ := h.named.mem_of_theInstance hfound
  have hothers := h.named.withoutInstance i.name
  have hown : ({ i with name := new } : Instance).name = new := rfl
  have hmem (k : Instance) :
      k ∈ ((c.withoutInstance i.name).withInstance new { i with name := new }).instances ↔
        k = { i with name := new } ∨ k ∈ c.instances ∧ k.name ≠ i.name := by
    rw [hothers.mem_withInstance hown, h.named.mem_withoutInstance]
    exact or_congr_right (and_iff_left_of_imp fun hk => h.named.name_ne_of_instance? hfree k hk.1)
  refine h.congr rfl rfl (hothers.withInstance hown) (fun k hk => ?_) fun e => ⟨?_, ?_⟩
  · rcases (hmem k).1 hk with rfl | ⟨hk, -⟩
    · exact ⟨i, hi, rfl, fun m hm => hm⟩
    · exact ⟨k, hk, rfl, fun m hm => hm⟩
  · rintro ⟨k, hk, he⟩
    rcases (hmem k).1 hk with rfl | ⟨hk, -⟩
    · exact ⟨i, hi, he⟩
    · exact ⟨k, hk, he⟩
  · rintro ⟨k, hk, he⟩
    by_cases hname : k.name = i.name
    · obtain rfl := h.named.eq_of_name hk hi hname
      exact ⟨_, (hmem _).2 (.inl rfl), he⟩
    · exact ⟨k, (hmem k).2 (.inr ⟨hk, hname⟩), he⟩

theorem Sound.setParam (h : Sound B c) {name param : String} {value : ParamValue} {u : Unit}
    (hrun : Edit.setParam name param value c = .ok u c') : Sound B c' ∧ c.KeepsDrawn c' := by
  simp only [Edit.setParam, Edit.bind_iff, Edit.get_iff, Edit.check_iff, Edit.set_iff] at hrun
  obtain ⟨_, _, ⟨rfl, rfl⟩, i, _, ⟨hfound, rfl⟩, i', _, ⟨hi', rfl⟩, rfl⟩ := hrun
  obtain ⟨hi, rfl⟩ := h.named.mem_of_theInstance hfound
  cases hmaster : i.master with
  | bound m => simp [InstanceOf.setParam, hmaster] at hi'
  | ref r =>
      have hnone : i.placed = ∅ := by simp [InstanceOf.placed, InstanceOf.bound?, hmaster]
      simp only [InstanceOf.setParam, hmaster, Except.ok.injEq] at hi'
      have hown : i'.name = i.name := by rw [← hi']
      have hmem (k : Instance) := h.named.mem_withInstance (j := k) hown
      refine h.congr rfl rfl (h.named.withInstance hown) (fun k hk => ?_) fun e => ⟨?_, ?_⟩
      · rcases (hmem k).1 hk with rfl | ⟨hk, -⟩
        · exact ⟨i, hi, by rw [← hi'], fun m hm => by rw [← hi'] at hm; cases hm⟩
        · exact ⟨k, hk, rfl, fun m hm => hm⟩
      · rintro ⟨k, hk, he⟩
        rcases (hmem k).1 hk with rfl | ⟨hk, -⟩
        · rw [← hi'] at he
          cases he.1
        · exact ⟨k, hk, he⟩
      · rintro ⟨k, hk, he⟩
        refine ⟨k, (hmem k).2 (.inr ⟨hk, fun hname => ?_⟩), he⟩
        obtain rfl := h.named.eq_of_name hk hi hname
        rw [hnone] at he
        exact he

/-- Another master for an instance leaves all drawn shapes, and merges the elements that are there from then on. -/
theorem Sound.setMaster (h : Sound B c) {name : String} {m : Master} (hm : B m) {u : Unit}
    (hrun : Edit.setMaster name m c = .ok u c') :
    Sound B c' ∧ ∀ key, (c'.layerAt key).drawn = (c.layerAt key).drawn := by
  simp only [Edit.setMaster, Edit.bind_iff, Edit.get_iff, Edit.check_iff, Edit.set_iff] at hrun
  obtain ⟨_, _, ⟨rfl, rfl⟩, i, _, ⟨hfound, rfl⟩, _, _, hcheck, _, _, rfl, hrebuild⟩ := hrun
  obtain rfl := Edit.checkMaster_ok hcheck
  obtain ⟨hi, rfl⟩ := h.named.mem_of_theInstance hfound
  obtain ⟨hmode, hmap, hlayers⟩ := Edit.rebuild_ok hrebuild fun key => ⟨_, h.composed key⟩
  have hinstances : c'.instances = (c.withInstance i.name (i.bind m)).instances := congrArg (·.map (·.2)) hmap
  have hown : (i.bind m).name = i.name := rfl
  have hmem (k : Instance) (hk : k ∈ c'.instances) : k = i.bind m ∨ k ∈ c.instances := by
    rw [hinstances] at hk
    exact ((h.named.mem_withInstance hown).1 hk).imp_right And.left
  refine ⟨⟨fun key => ?_, fun key => ?_, ?_, fun k hk => ?_, fun k hk n hn => ?_⟩, fun key => (hlayers key).2.1⟩
  · have hcomposed := (hlayers key).2.2
    rwa [merged, ← hinstances] at hcomposed
  · rw [(hlayers key).1, hmode]
    exact h.mode key
  · rw [hmap]
    exact h.named.withInstance hown
  · rcases hmem k hk with rfl | hk
    · exact h.tiling i hi
    · exact h.tiling k hk
  · rcases hmem k hk with rfl | hk
    · cases hn
      exact hm
    · exact h.masters k hk n hn

theorem Sound.setMode (h : Sound B c) {m : Mode} {u : Unit} (hrun : Edit.setMode m c = .ok u c') :
    Sound B c' ∧ c.KeepsDrawn c' := by
  obtain ⟨hmode, hmap, hlayers⟩ := Edit.setMode_ok hrun
  have hinstances : c'.instances = c.instances := congrArg (·.map (·.2)) hmap
  have hmerged (key : LayerKey) : c'.merged key = c.merged key := by rw [merged, merged, hinstances]
  refine ⟨⟨fun key => ?_, fun key => ?_, ?_, ?_, ?_⟩, .of_eq fun key => (hlayers key).2.1⟩
  · rw [hmerged]
    exact (hlayers key).2.2 _ (h.composed key)
  · rw [(hlayers key).1, hmode]
  · rw [hmap]
    exact h.named
  · rw [hinstances]
    exact h.tiling
  · rw [hinstances]
    exact h.masters

/-- An operation that succeeds keeps a cell sound, and keeps all that was drawn. -/
theorem Sound.edit (h : Sound B c) {op : CellOp} (hop : op.Admissible) (hmasters : ∀ m ∈ op.masters, B m) {u : Unit}
    (hrun : op.edit c = .ok u c') : Sound B c' ∧ c.KeepsDrawn c' := by
  have hdraws (hd : Edit.Draws op.edit) : Sound B c' ∧ c.KeepsDrawn c' := by
    obtain ⟨drawn, hadds⟩ := hd c u c' hrun
    exact h.of_adds hadds
  cases op with
  | shape o => exact hdraws (Edit.draws_shape hop).add
  | rects key horiz r tiling => exact hdraws (Edit.draws_addRects key horiz r tiling)
  | pin o => exact hdraws (Edit.draws_pin o).add
  | pins net text level halfTrack lower upper width count pitch =>
      exact hdraws (Edit.draws_addPins net text level halfTrack lower upper width count pitch)
  | via o => exact hdraws (Edit.draws_via o).add
  | vias v dirs tiling => exact hdraws (Edit.draws_addVias v dirs tiling)
  | wires ws => exact hdraws (Edit.draws_addWires ws)
  | label o => exact hdraws (Edit.draws_label o).add
  | blockage o => exact hdraws (Edit.draws_blockage o).add
  | boundary o => exact hdraws (Edit.draws_boundary o).add
  | inst o =>
      obtain ⟨_, d, hmake, hrest⟩ := Edit.bind_iff.1 hrun
      obtain ⟨o', d', hadd, hpure⟩ := Edit.bind_iff.1 hmake
      obtain ⟨-, rfl⟩ := Edit.pure_iff.1 hpure
      obtain ⟨-, rfl⟩ := Edit.pure_iff.1 hrest
      exact h.inst hop (fun m hm => hmasters m (Option.mem_toList.2 hm)) hadd
  | renameInstance old new => exact h.renameInstance hrun
  | setMaster name m =>
      obtain ⟨hsound, hdrawn⟩ := h.setMaster (hmasters m List.mem_cons_self) hrun
      exact ⟨hsound, .of_eq hdrawn⟩
  | setParam name param value => exact h.setParam hrun
  | setMode m => exact h.setMode hrun
  | setName name => exact hdraws (Edit.draws_modify fun _ => ⟨rfl, rfl, rfl⟩)

/-- Cells that come about by operations that succeed, and that bind only masters that come about alike. -/
inductive Built : Cell → Prop
  | empty (tech : Shared Tech) (name : String) (mode : Mode) : Built (CellOf.empty tech name mode)
  | withGrid {c c' : Cell} {g : RoutingGrid} (h : Built c) (hg : c.withGrid g = .ok c') : Built c'
  | edit {c c' : Cell} {op : CellOp} (h : Built c) (hop : op.Admissible) (hmasters : ∀ m ∈ op.masters, Built m.cell)
      (hrun : op.edit c = .ok () c') : Built c'

theorem Built.sound (h : Built c) : Sound (fun m => Built m.cell) c := by
  induction h with
  | empty tech name mode => exact sound_empty tech name mode
  | withGrid h hg ih =>
      simp only [CellOf.withGrid] at hg
      split at hg
      · cases hg
        exact ⟨ih.composed, ih.mode, ih.named, ih.tiling, ih.masters⟩
      · cases hg
  | edit h hop hmasters hrun ih => exact (ih.edit hop hmasters hrun).1

end CellOf

end MaskLayout
