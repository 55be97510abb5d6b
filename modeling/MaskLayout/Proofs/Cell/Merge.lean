import MaskLayout.Proofs.Cell.Edit

/-!
# Merging masters

Merging masters into a cell, and making its layers anew. An instance merges every element of its array on every layer
of its master; a rebuild keeps what was drawn and merges the elements of the instances that are there.
-/

namespace MaskLayout

variable [PolygonLibrary]

namespace InstanceOf

/-- The elements of an instance. An instance of a cell defined elsewhere has none. -/
def placed (i : Instance) : Set Element := {e | i.bound? = some e.master ∧ e.xform ∈ i.elements}

end InstanceOf

namespace Element

/-- The elements whose master has a layer for a key. -/
def onKey (key : LayerKey) : Set Element := {e | ∃ g, e.master.cell.layers.get? key = some g}

end Element

namespace CellOf

/-- The elements of all instances whose masters have a layer for a key. -/
def merged (c : Cell) (key : LayerKey) : Set Element := (⋃ i ∈ c.instances, i.placed) ∩ Element.onKey key

end CellOf

namespace Edit

open CellOf

variable {α : Type} {c c' : Cell}

/-- A change that merges the same elements wherever it succeeds, and draws nothing. -/
def Merges (merged : LayerKey → Set Element) (e : Edit α) : Prop :=
  ∀ c a c', e c = .ok a c' → c.Adds (fun _ => []) merged c'

theorem Merges.forM {f : α → Edit Unit} {merged : α → LayerKey → Set Element} {l : List α}
    (hf : ∀ a ∈ l, Merges (merged a) (f a)) : Merges (fun key => ⋃ a ∈ l, merged a key) (l.forM f) := by
  intro c _ c' h
  refine forM_induction (fun done d => c.Adds (fun _ => []) (fun key => ⋃ a ∈ done, merged a key) d) ?_ ?_ h
  · simpa using Adds.of_eq (c := c) rfl rfl rfl
  · intro done a rest d d' hl hdone hrun
    have ha : a ∈ l := hl ▸ List.mem_append_right _ List.mem_cons_self
    have hset : (fun key => merged a key ∪ ⋃ b ∈ done, merged b key) =
        fun key => ⋃ b ∈ done ++ [a], merged b key := by
      funext key
      ext e
      simp [or_comm]
    exact hset ▸ hdone.trans (hf a ha d () d' hrun)

theorem merges_record {key : LayerKey} {g : LayerGeometry} {e : Element}
    (hg : e.master.cell.layers.get? key = some g) :
    Merges (fun k => {x ∈ ({e} : Set Element) | k = key}) (onLayer key fun own => own.record g e.xform) := by
  intro c _ c' h
  obtain ⟨g', hg', rfl⟩ := onLayer_iff.1 h
  simpa using Adds.of_layer (LayerGeometry.Grows.of_record hg hg')

/-- An instance merges its elements on all layers that their master has. -/
theorem merges_recordInstance (i : Instance) :
    Merges (fun key => i.placed ∩ Element.onKey key) (recordInstance i) := by
  unfold recordInstance
  split
  · rename_i r hr
    intro c _ c' h
    obtain ⟨-, rfl⟩ := pure_iff.1 h
    have hnone : i.placed = ∅ := by simp [InstanceOf.placed, InstanceOf.bound?, hr]
    simpa [hnone] using Adds.of_eq (c := c) rfl rfl rfl
  · rename_i m hm
    have hplaced : (fun key => i.placed ∩ Element.onKey key) = fun key =>
        ⋃ entry ∈ m.cell.layers.entries, ⋃ t ∈ i.elements, {x ∈ ({⟨m, t⟩} : Set Element) | key = entry.1} := by
      funext key
      ext ⟨master, t⟩
      simp only [InstanceOf.placed, InstanceOf.bound?, hm, Element.onKey, KeyMap.get?_eq_some_iff, Set.mem_inter_iff,
        Set.mem_ofPred_eq, Option.some.injEq, Set.mem_iUnion, Set.mem_singleton_iff, Element.mk.injEq, exists_prop]
      constructor
      · rintro ⟨⟨rfl, ht⟩, g, hg⟩
        exact ⟨(key, g), hg, t, ht, ⟨rfl, rfl⟩, rfl⟩
      · rintro ⟨⟨_, g⟩, hg, _, ht, ⟨rfl, rfl⟩, rfl⟩
        exact ⟨⟨rfl, ht⟩, g, hg⟩
    rw [hplaced]
    refine Merges.forM fun ⟨key, g⟩ hentry => Merges.forM fun t _ => ?_
    exact merges_record (e := ⟨m, t⟩) (KeyMap.get?_eq_some_iff.2 hentry)

/-- A change of every layer for itself, one after the other, changes each of them once and nothing else. -/
theorem forM_layers {R : LayerGeometry → LayerGeometry → Prop} {f : LayerKey → Edit Unit}
    (hf : ∀ c key g c', c.layers.get? key = some g → f key c = .ok () c' →
      ∃ g', R g g' ∧ c' = { c with layers := c.layers.insert key g' })
    (h : c.layers.keys.forM f c = .ok () c') :
    ∃ layers, c' = { c with layers } ∧ ∀ key, Option.Rel R (c.layers.get? key) (layers.get? key) := by
  have hrun := forM_induction (fun done d => ∃ layers, d = { c with layers } ∧ ∀ key,
    (key ∈ done → Option.Rel R (c.layers.get? key) (layers.get? key)) ∧
    (key ∉ done → layers.get? key = c.layers.get? key)) ⟨c.layers, rfl, fun key => ⟨by simp, by simp⟩⟩ ?_ h
  · obtain ⟨layers, rfl, hlayers⟩ := hrun
    refine ⟨layers, rfl, fun key => ?_⟩
    by_cases hkey : key ∈ c.layers.keys
    · exact (hlayers key).1 hkey
    · rw [(hlayers key).2 hkey]
      rw [KeyMap.mem_keys_iff, ← Option.isSome_iff_exists, Option.not_isSome_iff_eq_none] at hkey
      rw [hkey]
      exact .none
  · rintro done a rest d d' hkeys ⟨layers, rfl, hlayers⟩ hstep
    have hnew : a ∉ done := by
      have hnodup := hkeys ▸ c.layers.nodup_keys
      exact fun ha => (List.nodup_append.1 hnodup).2.2 a ha a List.mem_cons_self rfl
    obtain ⟨g, hg⟩ : ∃ g, c.layers.get? a = some g :=
      KeyMap.mem_keys_iff.1 (hkeys ▸ List.mem_append_right _ List.mem_cons_self)
    obtain ⟨g', hR, rfl⟩ := hf _ a g d' (((hlayers a).2 hnew).trans hg) hstep
    refine ⟨layers.insert a g', rfl, fun key => ?_⟩
    by_cases hkey : key = a
    · subst hkey
      rw [KeyMap.get?_insert_self, hg]
      exact ⟨fun _ => .some hR, fun hnot => absurd (List.mem_append_right _ List.mem_cons_self) hnot⟩
    · rw [KeyMap.get?_insert_of_ne hkey, List.mem_append, List.mem_singleton, or_iff_left hkey]
      exact hlayers key

theorem layerAt_rel {R : LayerGeometry → LayerGeometry → Prop} {layers : KeyMap LayerKey LayerGeometry}
    {key : LayerKey} {m n : Mode} (h : Option.Rel R (c.layers.get? key) (layers.get? key))
    (hempty : R (.empty m) (.empty n)) :
    R ((c.layers.get? key).getD (.empty m)) ((layers.get? key).getD (.empty n)) := by
  generalize c.layers.get? key = g at h ⊢
  generalize layers.get? key = g' at h ⊢
  cases h with
  | some hR => exact hR
  | none => exact hempty

/-- The drawn shapes of each layer outlast a rebuild, and the elements of the instances are what is merged then. -/
theorem rebuild_ok {u : Unit} (h : rebuild c = .ok u c')
    (hcomposed : ∀ key, ∃ merged, LayerGeometry.Composed key (c.layerAt key) merged) :
    c'.mode = c.mode ∧ c'.instanceMap = c.instanceMap ∧ ∀ key, (c'.layerAt key).mode = (c.layerAt key).mode ∧
      (c'.layerAt key).drawn = (c.layerAt key).drawn ∧ LayerGeometry.Composed key (c'.layerAt key) (c.merged key) := by
  simp only [rebuild, bind_iff, get_iff] at h
  obtain ⟨_, _, ⟨rfl, rfl⟩, _, d, hstrip, hmerge⟩ := h
  have hlayer : ∀ d key g d', d.layers.get? key = some g → stripLayer key d = .ok () d' →
      ∃ g', g.withoutMasters = .ok g' ∧ d' = { d with layers := d.layers.insert key g' } := by
    intro d key g d' hg hrun
    simp only [stripLayer, bind_iff, get_iff] at hrun
    obtain ⟨_, _, ⟨rfl, rfl⟩, hrun⟩ := hrun
    simp only [hg, bind_iff, check_iff, set_iff] at hrun
    obtain ⟨g', _, ⟨hg', rfl⟩, rfl⟩ := hrun
    exact ⟨g', hg', rfl⟩
  obtain ⟨layers, rfl, hlayers⟩ := forM_layers hlayer hstrip
  have hadds := Merges.forM (fun i _ => merges_recordInstance i) _ _ _ hmerge
  refine ⟨hadds.mode, hadds.instanceMap, fun key => ?_⟩
  have hat := layerAt_rel (m := c.mode) (n := c.mode) (hlayers key) (LayerGeometry.withoutMasters_empty _)
  obtain ⟨before, hbefore⟩ := hcomposed key
  obtain ⟨halone, hdrawn, hmode⟩ := hbefore.withoutMasters hat
  have hgrows := hadds.layers key
  refine ⟨hgrows.mode.trans hmode, ?_, ?_⟩
  · rw [hgrows.drawn, List.append_nil]
    exact hdrawn
  · have hall := hgrows.composed ∅ halone
    rw [Set.union_empty] at hall
    rwa [merged, Set.iUnion₂_inter]

/-- A change of mode changes the mode of every layer, and keeps what is drawn and merged there. -/
theorem setMode_ok {m : Mode} {u : Unit} (h : setMode m c = .ok u c') :
    c'.mode = m ∧ c'.instanceMap = c.instanceMap ∧ ∀ key, (c'.layerAt key).mode = m ∧
      (c'.layerAt key).drawn = (c.layerAt key).drawn ∧
      ∀ merged, LayerGeometry.Composed key (c.layerAt key) merged →
        LayerGeometry.Composed key (c'.layerAt key) merged := by
  simp only [setMode, bind_iff, get_iff] at h
  obtain ⟨_, _, ⟨rfl, rfl⟩, h⟩ := h
  split at h
  · simp [bind_iff] at h
  simp only [bind_iff, modify_iff] at h
  obtain ⟨_, d, hrun, rfl⟩ := h
  have hlayer : ∀ d key g d', d.layers.get? key = some g → onLayer key (·.withMode m) d = .ok () d' →
      ∃ g', g.withMode m = .ok g' ∧ d' = { d with layers := d.layers.insert key g' } := by
    intro d key g d' hg hrun
    obtain ⟨g', hg', rfl⟩ := onLayer_iff.1 hrun
    rw [layerAt, hg] at hg'
    exact ⟨g', hg', rfl⟩
  obtain ⟨layers, rfl, hlayers⟩ := forM_layers hlayer hrun
  refine ⟨rfl, rfl, fun key => ?_⟩
  have hat := layerAt_rel (m := c.mode) (n := m) (hlayers key) (LayerGeometry.withMode_empty _ _)
  obtain ⟨hmode, hdrawn⟩ := LayerGeometry.mode_drawn_of_withMode hat
  exact ⟨hmode, hdrawn, fun before hbefore => hbefore.withMode hat⟩

end Edit

end MaskLayout
