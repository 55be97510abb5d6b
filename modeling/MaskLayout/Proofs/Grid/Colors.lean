import MaskLayout.Grid.Load
import MaskLayout.Proofs.Tech.Names

/-!
# Colors of tracks

The colors of a loaded routing grid. Every level has at least one color, every color is a layer whose key passes the
check of the grid's technology, and so every half-track of a level has such a layer, also below zero.
-/

namespace MaskLayout

/-- Whether a level has colors, all of them layers that the technology names. -/
structure TrackLevel.Colored (tech : Tech) (t : TrackLevel) : Prop where
  nonempty : t.layers ≠ []
  named : ∀ key ∈ t.layers, tech.checkKey key = .ok ()

namespace TrackLevel

variable {tech : Tech} {t : TrackLevel}

theorem colored_of_load {r : Reporter RuleFault LayoutError} {rules : TrackRules} (h : load tech r rules = .ok t) :
    t.Colored tech := by
  simp only [load, Success.bind_iff, Success.pure_iff, Reporter.ensure_iff, Reporter.require_iff] at h
  obtain ⟨_, -, _, -, _, -, _, hnonempty, layers, hlayers, _, -, rfl⟩ := h
  constructor
  · rintro rfl
    have hnil : rules.layers = [] := List.forall₂_nil_right_iff.1 (Success.mapM_iff.1 hlayers)
    simp [hnil] at hnonempty
  · intro key hkey
    obtain ⟨names, -, hresolved⟩ := Success.exists_of_mem_mapM hlayers hkey
    exact Tech.checkKey_of_layerKey (Reporter.instead_iff.1 hresolved)

/-- Every half-track of a level takes one of its colors. -/
theorem Colored.colorAt? (h : t.Colored tech) (halfTrack : Int) :
    ∃ key, t.colorAt? halfTrack = some key ∧ tech.checkKey key = .ok () := by
  have hpos : 0 < (t.layers.length : Int) := by
    have := List.length_pos_iff.2 h.nonempty
    omega
  have hlow := Int.emod_nonneg (halfTrack / 2) (Int.ne_of_gt hpos)
  have hhigh := Int.emod_lt_of_pos (halfTrack / 2) hpos
  have hlt : ((halfTrack / 2) % t.layers.length).toNat < t.layers.length := by omega
  exact ⟨_, List.getElem?_eq_getElem hlt, h.named _ (List.getElem_mem hlt)⟩

/-- A level without its alignment. -/
def unaligned (t : TrackLevel) : TrackLevel := { t with blockPitch := none }

theorem map_unaligned_alignRange (a : Alignment) (l : List TrackLevel) :
    (alignRange a l).map unaligned = l.map unaligned := by
  induction l generalizing a with
  | nil => rfl
  | cons t rest ih => rw [alignRange, List.map_cons, List.map_cons, ih, unaligned, unaligned]

end TrackLevel

namespace RoutingGrid

variable {g g' : RoutingGrid}

/-- Routing grids that come about by loading, and by dividing their levels anew. -/
inductive Loaded : RoutingGrid → Prop
  | load {tech : Shared Tech} {rules : GridRules} {g : RoutingGrid} (h : RoutingGrid.load tech rules = .ok g) : Loaded g
  | withPartition {g g' : RoutingGrid} {topIgnored topPrivate : Int} (h : Loaded g)
      (hg : g.withPartition topIgnored topPrivate = .ok g') : Loaded g'

theorem colored_of_loadLevels {tech : Tech} {bot next : Int} {entries : List (Int × TrackRules)}
    {levels : List TrackLevel} {s s' : List Place} (h : (loadLevels tech bot next entries).run s = .ok (levels, s')) :
    ∀ t ∈ levels, t.Colored tech := by
  induction entries generalizing next levels s with
  | nil =>
      cases h
      exact fun t ht => (List.not_mem_nil ht).elim
  | cons entry rest ih =>
      simp only [loadLevels, StateT.run_bind, Success.bind_iff] at h
      obtain ⟨⟨t, _⟩, ht, ⟨more, _⟩, hmore, hout⟩ := h
      cases hout
      obtain ⟨ht, -⟩ := Loading.run_within_iff.1 ht
      obtain ⟨_, -, ht⟩ := Success.bind_iff.1 ht
      exact List.forall_mem_cons.2 ⟨TrackLevel.colored_of_load ht, ih hmore⟩

/-- A new division of the levels changes nothing but their alignment. -/
theorem map_unaligned_withPartition {topIgnored topPrivate : Int} (h : g.withPartition topIgnored topPrivate = .ok g') :
    g'.tech = g.tech ∧ g'.bot = g.bot ∧ g'.levels.map TrackLevel.unaligned = g.levels.map TrackLevel.unaligned := by
  rw [withPartition] at h
  split at h
  · rename_i hranges
    cases h
    have hle : (topIgnored + 1 - g.bot).toNat ≤ (topPrivate + 1 - g.bot).toNat := by omega
    have hparts : g.levels.take (topIgnored + 1 - g.bot).toNat ++
        (g.levels.take (topPrivate + 1 - g.bot).toNat).drop (topIgnored + 1 - g.bot).toNat ++
          g.levels.drop (topPrivate + 1 - g.bot).toNat = g.levels := by
      conv_lhs => rw [← Nat.min_eq_left hle, ← List.take_take, Nat.min_eq_left hle]
      rw [List.take_append_drop, List.take_append_drop]
    refine ⟨rfl, rfl, ?_⟩
    conv_rhs => rw [← hparts]
    simp only [List.map_append, TrackLevel.map_unaligned_alignRange, List.map_map]
    rfl
  · cases h

/-- What the alignment of levels does not matter for holds of the levels of every loaded grid, if it holds of the levels
of its rules. -/
theorem Loaded.forall_levels {q : Tech → TrackLevel → Prop}
    (hcongr : ∀ {tech t u}, q tech u → t.unaligned = u.unaligned → q tech t)
    (hload : ∀ {tech rules bot levels s}, (loadAll tech rules).run' s = .ok (bot, levels) → ∀ t ∈ levels, q tech t)
    (h : g.Loaded) : ∀ t ∈ g.levels, q g.tech.value t := by
  have hpartition {g g' : RoutingGrid} {topIgnored topPrivate : Int} (hg : g.withPartition topIgnored topPrivate = .ok g')
      (hlevels : ∀ t ∈ g.levels, q g.tech.value t) : ∀ t ∈ g'.levels, q g'.tech.value t := by
    obtain ⟨htech, -, hunaligned⟩ := map_unaligned_withPartition hg
    intro t ht
    obtain ⟨u, hu, heq⟩ := List.mem_map.1 (hunaligned ▸ List.mem_map_of_mem ht)
    rw [htech]
    exact hcongr (hlevels u hu) heq.symm
  induction h with
  | load h =>
      simp only [RoutingGrid.load, Success.bind_iff] at h
      obtain ⟨⟨bot, levels⟩, hparts, hg⟩ := h
      exact hpartition hg (hload hparts)
  | withPartition h hg ih => exact hpartition hg ih

theorem Loaded.colored (h : g.Loaded) : ∀ t ∈ g.levels, t.Colored g.tech.value := by
  refine h.forall_levels (fun {_ t u} hu heq => ?_) fun hparts => ?_
  · have hlayers : t.layers = u.layers := (congrArg TrackLevel.layers heq :)
    exact ⟨hlayers ▸ hu.nonempty, hlayers ▸ hu.named⟩
  · obtain ⟨_, hrun⟩ := Loading.run_of_run' hparts
    simp only [loadAll, StateT.run_bind, Success.bind_iff] at hrun
    obtain ⟨_, -, ⟨levels, _⟩, hlevels, hout⟩ := hrun
    cases hout
    exact colored_of_loadLevels hlevels

theorem mem_of_trackLevel {level : Int} {t : TrackLevel} (h : g.trackLevel level = .ok t) : t ∈ g.levels := by
  simp only [trackLevel] at h
  split at h
  · rename_i u hu
    cases h
    split at hu
    · cases hu
    · exact List.mem_of_getElem? hu
  · cases h

/-- Every half-track of a level of a loaded grid has a layer, and the key of the layer passes the check. -/
theorem Loaded.exists_layerKey (h : g.Loaded) {level : Int} {t : TrackLevel} (ht : g.trackLevel level = .ok t)
    (halfTrack : Int) : ∃ key, g.layerKey level halfTrack = .ok key ∧ g.tech.value.checkKey key = .ok () := by
  obtain ⟨key, hkey, hnamed⟩ := (h.colored t (mem_of_trackLevel ht)).colorAt? halfTrack
  refine ⟨key, ?_, hnamed⟩
  rw [layerKey, Success.bind_iff]
  exact ⟨t, ht, by rw [hkey]; rfl⟩

end RoutingGrid

end MaskLayout
