import MaskLayout.Proofs.Cell.Additions

/-!
# Alterations of a regular cell

Changes of what a regular cell holds already. A new name, a parameter and a mode are decided before anything is changed.
Another master for an instance is not: the instance is bound first, and the layers are made anew then, which fails as
soon as an instance merges more than the mode of the cell allows.
-/

namespace MaskLayout

variable [PolygonLibrary]

namespace CellOf

/-- Whether all instances but one, if it is there, merge only what the mode of the cell allows. -/
def Settled (c : Cell) (name : String) : Prop := ∀ i ∈ c.instances, i.name ≠ name → i.Recordable c.mode

/-- `c.Rebinds name m c'` says that `c` has an instance of a name and accepts the master `m`, and that `c'` has the
instances of `c` with this one bound to `m`. -/
def Rebinds (c : Cell) (name : String) (m : Master) (c' : Cell) : Prop :=
  ∃ i, c.theInstance name = .ok i ∧ c.Accepts m ∧ c'.instanceMap = (c.withInstance name (i.bind m)).instanceMap

end CellOf

namespace Edit

open CellOf

variable {B : Master → Prop} {c : Cell} {m : Master} {name : String}

theorem decides_renameInstance (h : c.Regular B) (old new : String) :
    Decides (renameInstance old new) c ((∃ i, c.theInstance old = .ok i) ∧ (old = new ∨ c.instance? new = none))
      fun _ c' => c.Keeps B c' := by
  refine decides_get_bind.2 ?_
  split
  · rename_i hsame
    refine (decides_check_bind (p := fun _ => True) fun i hi => ?_).congr (by simp [hsame])
    exact ⟨trivial, h.keeps⟩
  rename_i hother
  split
  · rename_i htaken
    refine ⟨rfl, fun hp => ?_⟩
    rw [hp.2.resolve_left hother] at htaken
    cases htaken
  · rename_i hfree
    rw [Option.not_isSome_iff_eq_none] at hfree
    refine (decides_check_bind (p := fun _ => True) fun i hi => ?_).congr (by simp [hfree])
    have hkeeps := h.withoutInstance old
    exact ⟨trivial, hkeeps.trans (hkeeps.regular.withInstance rfl (h.masters i (h.instances.mem_of_theInstance hi).1))⟩

theorem decides_setParam (h : c.Regular B) (name param : String) (value : ParamValue) :
    Decides (setParam name param value) c (∃ i, c.theInstance name = .ok i ∧ i.bound? = none)
      fun _ c' => c.Keeps B c' := by
  refine decides_get_bind.2 (decides_check_bind fun i hi => ?_)
  cases hmaster : i.master with
  | bound m =>
      have hbound : i.bound? = some m := by rw [InstanceOf.bound?, hmaster]
      simp [Decides, InstanceOf.setParam, hmaster, hbound, check]
  | ref r =>
      have hbound : i.bound? = none := by rw [InstanceOf.bound?, hmaster]
      simp only [InstanceOf.setParam, hmaster, check, pure_bind]
      refine ⟨hbound, h.withInstance (h.instances.mem_of_theInstance hi).2 fun m hm => ?_⟩
      cases hm

theorem decides_setName (h : c.Regular B) (name : String) :
    Decides (setName name) c True fun _ c' => c.Keeps B c' := ⟨trivial, h.withName name⟩

/-- Layers that hold nothing, or are not more general than a mode, get it one after the other, all under their keys. -/
private theorem ends_layerModes (h : c.Regular B) {m : Mode}
    (hable : ∀ key, (c.layerAt key).mode ≤ m ∨ (c.layerAt key).isEmpty = true) :
    Ends (c.layers.keys.forM fun key => onLayer key fun g => g.withMode m) c
      (fun _ d => ∃ layers, d = { c with layers } ∧ ∀ key g, layers.get? key = some g → c.tech.value.checkKey key = .ok ())
      fun _ _ => False := by
  have hloop : Ends (c.layers.keys.forM fun key => onLayer key fun g => g.withMode m) c
      (fun _ d => ∃ layers, d = { c with layers } ∧ (∀ key, (d.layerAt key).mode ≤ m ∨ (d.layerAt key).isEmpty = true) ∧
        ∀ key g, layers.get? key = some g → c.tech.value.checkKey key = .ok ()) fun _ _ => False := by
    refine ends_forM ⟨c.layers, rfl, hable, h.named⟩ ?_
    rintro key hkey _ ⟨layers, rfl, hable, hnamed⟩
    obtain ⟨g, hg⟩ := LayerGeometry.exists_withMode (hable key)
    rw [ends_onLayer_of_ok hg]
    refine ⟨_, rfl, fun k => ?_, fun k g' hg' => ?_⟩
    · by_cases hk : k = key
      · subst hk
        rw [layerAt_insert_self]
        exact .inl (Nat.le_of_eq (congrArg Mode.rank (LayerGeometry.mode_drawn_of_withMode hg).1))
      · rw [layerAt_insert_of_ne hk]
        exact hable k
    · by_cases hk : k = key
      · obtain ⟨g, hg⟩ := KeyMap.mem_keys_iff.1 hkey
        exact hk ▸ h.named key g hg
      · rw [KeyMap.get?_insert_of_ne hk] at hg'
        exact hnamed k g' hg'
  refine hloop.mono ?_ fun _ _ hx => hx
  rintro _ d ⟨layers, hd, -, hnamed⟩
  exact ⟨layers, hd, hnamed⟩

/-- A mode is accepted if it is not less general, or if nothing is on any layer. -/
theorem decides_setMode (h : c.Regular B) (m : Mode) :
    Decides (setMode m) c (c.mode ≤ m ∨ ∀ key, (c.layerAt key).isEmpty = true)
      fun _ c' => c'.Regular B ∧ c'.tech = c.tech ∧ c'.mode = m ∧ c'.instanceMap = c.instanceMap := by
  have hblank : (∀ key, (c.layerAt key).isEmpty = true) ↔ c.layers.values.any (fun g => !g.isEmpty) = false := by
    rw [forall_layerAt_iff (p := fun g => g.isEmpty = true) (LayerGeometry.isEmpty_empty _), List.any_eq_false]
    simp only [Bool.not_eq_true', Bool.not_eq_false, KeyMap.forall_mem_values_iff]
  by_cases hp : c.mode ≤ m ∨ ∀ key, (c.layerAt key).isEmpty = true
  · have hable (key : LayerKey) : (c.layerAt key).mode ≤ m ∨ (c.layerAt key).isEmpty = true := by
      rw [h.mode]
      exact hp.imp_right fun hall => hall key
    have hguard : ¬ (m < c.mode ∧ c.layers.values.any (fun g => !g.isEmpty) = true) := by
      rintro ⟨hless, hany⟩
      rw [hblank.1 (hp.resolve_left (Mode.not_le.2 hless))] at hany
      cases hany
    have hends : Ends (setMode m) c (fun _ c' => ∃ layers, c' = { c with layers, mode := m } ∧
        ∀ key g, layers.get? key = some g → c.tech.value.checkKey key = .ok ()) fun _ _ => False := by
      simp only [setMode, ends_bind, ends_get, if_neg hguard]
      refine (ends_layerModes h hable).mono ?_ fun _ _ hx => hx
      rintro _ _ ⟨layers, rfl, hnamed⟩
      exact ⟨layers, rfl, hnamed⟩
    refine (hends.and_ok fun _ _ hrun => setMode_ok hrun).mono ?_ fun _ _ hx => hx.elim
    rintro _ _ ⟨⟨layers, rfl, hnamed⟩, -, -, hlayers⟩
    refine ⟨hp, h.withLayers ⟨fun key => (hlayers key).1, hnamed⟩ (fun key => ?_) fun key => ?_, rfl, rfl, rfl⟩
    · rw [(hlayers key).2.1]
      exact List.Subset.refl _
    · obtain ⟨merged, hmerged⟩ := h.composed key
      exact ⟨merged, (hlayers key).2.2 merged hmerged⟩
  · have hguard : m < c.mode ∧ c.layers.values.any (fun g => !g.isEmpty) = true := by
      rw [not_or, Mode.not_le, hblank, Bool.not_eq_false] at hp
      exact hp
    simp only [Decides, setMode, ends_bind, ends_get, if_pos hguard]
    exact ⟨rfl, hp⟩

/-- Every layer of a regular cell can be made anew from what was drawn on it. -/
theorem ends_stripLayer (h : c.Regular B) (key : LayerKey) :
    Ends (stripLayer key) c (fun _ c' => c.Keeps B c' ∧ c'.instanceMap = c.instanceMap) fun _ _ => False := by
  simp only [stripLayer, ends_bind, ends_get]
  split
  · exact ⟨h.keeps, rfl⟩
  · rename_i g hg
    have hat : c.layerAt key = g := by rw [layerAt, hg, Option.getD_some]
    obtain ⟨merged, hcomposed⟩ := h.composed key
    rw [hat] at hcomposed
    obtain ⟨g', hg'⟩ := hcomposed.exists_withoutMasters
    obtain ⟨halone, hdrawn, hmode⟩ := hcomposed.withoutMasters hg'
    rw [hg', check, pure_bind]
    refine ⟨h.insertLayer (h.named key g hg) (hmode.trans (hat ▸ h.mode key)) ?_ ⟨∅, halone⟩, rfl⟩
    rw [hat, hdrawn]
    exact List.Subset.refl _

/-- The layers of a cell are made anew exactly if every instance merges only what the mode of the cell allows. -/
theorem ends_rebuild (h : c.Regular B) :
    Ends rebuild c
      (fun _ c' => (c.Keeps B c' ∧ c'.instanceMap = c.instanceMap) ∧ ∀ i ∈ c.instances, i.Recordable c.mode)
      fun _ c' => (c.Keeps B c' ∧ c'.instanceMap = c.instanceMap) ∧ ¬ ∀ i ∈ c.instances, i.Recordable c.mode := by
  simp only [rebuild, ends_bind, ends_get]
  have hstrip : Ends (c.layers.keys.forM stripLayer) c
      (fun _ c' => c.Keeps B c' ∧ c'.instanceMap = c.instanceMap) fun _ _ => False := by
    refine ends_forM ⟨h.keeps, rfl⟩ ?_
    rintro key - d ⟨hd, hmap⟩
    exact (ends_stripLayer hd.regular key).mono (fun _ _ h' => ⟨hd.trans h'.1, h'.2.trans hmap⟩) fun _ _ hx => hx
  refine hstrip.mono ?_ fun _ _ hx => hx.elim
  rintro _ d ⟨hd, hmap⟩
  refine ends_forM_iff ⟨hd, hmap⟩ ?_
  rintro i hi d' ⟨hd', hmap'⟩
  have hrecord : Ends (recordInstance i) d'
      (fun _ e => (d'.Keeps B e ∧ e.instanceMap = d'.instanceMap) ∧ i.Recordable d'.mode)
      fun _ e => (d'.Keeps B e ∧ e.instanceMap = d'.instanceMap) ∧ ¬ i.Recordable d'.mode := by
    refine ends_recordInstance hd'.regular fun m hm => ?_
    obtain ⟨-, htech, hfit⟩ := h.masters i hi m hm
    exact ⟨htech.trans hd'.tech.symm, hfit⟩
  rw [hd'.mode] at hrecord
  exact hrecord.mono (fun _ _ h' => ⟨⟨hd'.trans h'.1.1, h'.1.2.trans hmap'⟩, h'.2⟩)
    fun _ _ h' => ⟨⟨hd'.trans h'.1.1, h'.1.2.trans hmap'⟩, h'.2⟩

/-- An accepted master for an instance that is there is bound in any case. The change succeeds exactly if all other
instances merge only what the mode of the cell allows. -/
theorem ends_setMaster (h : c.Regular B) (hoffers : c.Offers B m) :
    Ends (setMaster name m) c
      (fun _ c' => (c.Keeps B c' ∧ c.Rebinds name m c') ∧ c.Settled name)
      fun _ c' => c' = c ∧ ¬ ((∃ i, c.theInstance name = .ok i) ∧ c.Accepts m) ∨
        (c.Keeps B c' ∧ c.Rebinds name m c') ∧ ¬ c.Settled name := by
  simp only [setMaster, ends_bind, ends_get, ends_check, true_and]
  refine ⟨fun i hi => ?_, fun y hy => .inl fun hp => by simp [hy] at hp⟩
  refine Ends.mono (decides_checkMaster name m c) ?_ fun _ _ hx => .inl ⟨hx.1, fun hp => hx.2 hp.2⟩
  rintro _ d ⟨haccepts, hd⟩
  subst d
  obtain ⟨hmem, rfl⟩ := h.instances.mem_of_theInstance hi
  have hown : (i.bind m).name = i.name := rfl
  have hbinds : c.Binds B (i.bind m) := by
    rintro _ ⟨⟩
    exact ⟨hoffers.2 haccepts, haccepts.1, hoffers.1⟩
  have hnew : (i.bind m).Recordable c.mode := by
    refine InstanceOf.recordable_of_mode_le ?_
    rintro _ ⟨⟩
    exact ⟨hoffers.1, haccepts.2⟩
  have hsettled : (∀ j ∈ (c.withInstance i.name (i.bind m)).instances, j.Recordable c.mode) ↔ c.Settled i.name := by
    simp only [h.instances.mem_withInstance hown, forall_eq_or_imp, hnew, true_and, and_imp]
    rfl
  have hinsert := h.withInstance hown hbinds
  rw [ends_set]
  refine (ends_rebuild hinsert.regular).mono ?_ ?_
  · rintro _ c' ⟨⟨hkeeps, hmap⟩, hall⟩
    exact ⟨⟨hinsert.trans hkeeps, i, hi, haccepts, hmap⟩, hsettled.1 hall⟩
  · rintro _ c' ⟨⟨hkeeps, hmap⟩, hnot⟩
    exact .inr ⟨⟨hinsert.trans hkeeps, i, hi, haccepts, hmap⟩, fun hall => hnot (hsettled.2 hall)⟩

end Edit

end MaskLayout
