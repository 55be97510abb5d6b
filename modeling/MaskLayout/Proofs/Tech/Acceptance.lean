import MaskLayout.Proofs.Loading
import MaskLayout.Proofs.KeyMap
import MaskLayout.Tech.Load
import Mathlib.Data.List.Chain

/-!
# Which technologies are accepted

Which technology rules are accepted. Rules are valid when all names are defined, all numbers convert and all lists are in
order; a technology is loaded from valid rules only, and from all of them. Invalid rules are refused at the first entry
that is faulty, with its place.
-/

namespace MaskLayout

/-- Whether numbers convert to coordinates. -/
def Converts (values : List Binary64) (coords : List Int) : Prop :=
  List.Forall₂ (fun v i => v.dimension? = some i) values coords

/-- A valid spacing table: as many spacings as widths, at least one, where widths ascend and spacings do not descend. -/
structure SpaceTableRules.Valid (t : SpaceTableRules) : Prop where
  nonempty : t.widths ≠ []
  lengths : t.widths.length = t.spaces.length
  rows : ∃ widths spaces, Converts t.widths widths ∧ Converts t.spaces spaces ∧ widths.Pairwise (· < ·) ∧
    spaces.Pairwise (· ≤ ·)

/-- Enclosure options are valid if there are some and none is negative. -/
def EnclosureRules.ValidOptions (e : EnclosureRules) : Prop :=
  e.options ≠ [] ∧ ∀ o ∈ e.options, 0 ≤ o.1 ∧ 0 ≤ o.2

/-- The valid enclosures of a layer: at least one, with ascending widths and valid options. -/
structure EnclosureRules.ValidLayer (es : List EnclosureRules) : Prop where
  nonempty : es ≠ []
  widths : ∃ widths, Converts (es.map (·.width)) widths ∧ widths.Pairwise (· < ·)
  options : ∀ e ∈ es, e.ValidOptions

/-- A valid via: cuts have a size, spacings are not negative, and the enclosures of both layers are valid. -/
structure ViaRules.Valid (v : ViaRules) : Prop where
  cut : 0 < v.cut.x ∧ 0 < v.cut.y
  spacing : 0 ≤ v.spacing.x ∧ 0 ≤ v.spacing.y
  spacing2 : ∀ sp, v.spacing2 = some sp → 0 ≤ sp.x ∧ 0 ≤ sp.y
  bottom : EnclosureRules.ValidLayer v.bottom
  top : EnclosureRules.ValidLayer v.top

/-- Valid technology rules. -/
structure TechRules.Valid (rules : TechRules) : Prop where
  defaultPurpose : rules.defaultPurpose ∈ rules.purposes.keys
  pinPurpose : rules.pinPurpose ∈ rules.purposes.keys
  viaLayers : ∀ id bot top, rules.viaLayers.get? id = some (bot, top) →
    bot ∈ rules.layers.keys ∧ top ∈ rules.layers.keys
  layerTypes : ∀ layer ∈ rules.layerTypes.keys, layer ∈ rules.layers.keys
  tables : ∀ tables, (tables = rules.minSpace ∨ tables = rules.lineEnd ∨ rules.sameColor = some tables) →
    ∀ t ∈ tables.values, t.Valid
  vias : ∀ id via, rules.vias.get? id = some via → id ∈ rules.viaLayers.keys ∧ via.Valid

/-- An entry of technology rules that is checked by itself. -/
inductive TechEntry where
  | viaLayers (id bot top : String)
  | layerType (layer : String)
  | table (type : String) (table : SpaceTableRules)
  | via (id : String) (via : ViaRules)

namespace TechEntry

/-- The place of an entry. -/
def place : TechEntry → Place
  | viaLayers id _ _ => .viaRule id
  | layerType layer => .layer layer
  | table type _ => .layer type
  | via id _ => .viaRule id

/-- Whether an entry is free of faults. -/
def Sound (rules : TechRules) : TechEntry → Prop
  | viaLayers _ bot top => bot ∈ rules.layers.keys ∧ top ∈ rules.layers.keys
  | layerType layer => layer ∈ rules.layers.keys
  | table _ t => t.Valid
  | via id v => id ∈ rules.viaLayers.keys ∧ v.Valid

end TechEntry

namespace TechRules

/-- The spacing tables of a class as entries. -/
def tableEntries (tables : KeyMap String SpaceTableRules) : List TechEntry :=
  tables.entries.map fun e => .table e.1 e.2

/-- The entries in the order in which they are checked: the layers of vias, layer types, the spacing tables of the three
classes, and vias, each in the order of their names. -/
def entries (rules : TechRules) : List TechEntry :=
  (rules.viaLayers.entries.map fun e => .viaLayers e.1 e.2.1 e.2.2) ++
    ((rules.layerTypes.entries.map fun e => .layerType e.1) ++
      (tableEntries rules.minSpace ++ (tableEntries rules.lineEnd ++
        ((rules.sameColor.elim [] tableEntries) ++ rules.vias.entries.map fun e => .via e.1 e.2))))

end TechRules

section Lists

variable {r : Reporter RuleFault LayoutError}

theorem all_gaps_iff (R : Int → Int → Prop) [DecidableRel R] (xs : List Int) :
    ((xs.zip (xs.drop 1)).all fun g => decide (R g.1 g.2)) = true ↔ xs.IsChain R := by
  induction xs with
  | nil => simp
  | cons a rest ih =>
      cases rest with
      | nil => simp
      | cons b rest =>
          rw [List.isChain_cons_cons, ← ih]
          simp

theorem convert_iff {values : List Binary64} {coords : List Int} {fault : Binary64 → RuleFault} :
    (values.mapM fun v => r.require v.dimension? (fault v)) = .ok coords ↔ Converts values coords := by
  simp only [Success.mapM_iff, Reporter.require_iff, Converts]

end Lists

namespace SpaceTable

theorem exists_load_iff {r : Reporter RuleFault LayoutError} {t : SpaceTableRules} :
    (∃ table, load r t = .ok table) ↔ t.Valid := by
  simp only [load, Success.bind_iff, Success.pure_iff, Reporter.ensure_iff, convert_iff, Bool.and_eq_true,
    Bool.not_eq_true', List.isEmpty_eq_false_iff, beq_iff_eq]
  constructor
  · rintro ⟨_, _, ⟨hnonempty, hlengths⟩, widths, hwidths, spaces, hspaces, _, hascending, _, hrising, -⟩
    refine ⟨hnonempty, hlengths, widths, spaces, hwidths, hspaces, ?_, ?_⟩
    · exact List.isChain_iff_pairwise.1 ((all_gaps_iff (· < ·) widths).1 hascending)
    · exact List.isChain_iff_pairwise.1 ((all_gaps_iff (· ≤ ·) spaces).1 hrising)
  · rintro ⟨hnonempty, hlengths, widths, spaces, hwidths, hspaces, hascending, hrising⟩
    refine ⟨_, (), ⟨hnonempty, hlengths⟩, widths, hwidths, spaces, hspaces, (), ?_, (), ?_, rfl⟩
    · exact (all_gaps_iff (· < ·) widths).2 (List.isChain_iff_pairwise.2 hascending)
    · exact (all_gaps_iff (· ≤ ·) spaces).2 (List.isChain_iff_pairwise.2 hrising)

theorem failsAt_load (trail : List Place) (t : SpaceTableRules) : FailsAt trail (load (Place.reporter trail) t) := by
  refine (failsAt_ensure _ _).bind fun _ => ?_
  refine (failsAt_mapM (fun _ => failsAt_require _ _) _).bind fun widths => ?_
  refine (failsAt_mapM (fun _ => failsAt_require _ _) _).bind fun spaces => ?_
  exact (failsAt_ensure _ _).bind fun _ => (failsAt_ensure _ _).bind fun _ => failsAt_ok _

end SpaceTable

namespace ViaRule

variable {r : Reporter RuleFault LayoutError}

theorem validOptions_iff {e : EnclosureRules} :
    (!e.options.isEmpty && e.options.all fun o => decide (0 ≤ o.1) && decide (0 ≤ o.2)) = true ↔ e.ValidOptions := by
  simp [EnclosureRules.ValidOptions]

/-- Enclosures are accepted if their options are valid and their widths ascend, from the width before on. -/
theorem exists_loadBuckets_iff {before : Option Int} {es : List EnclosureRules} :
    (∃ buckets, loadBuckets r before es = .ok buckets) ↔
      (∃ widths, Converts (es.map (·.width)) widths ∧ (before.toList ++ widths).IsChain (· < ·)) ∧
        ∀ e ∈ es, e.ValidOptions := by
  induction es generalizing before with
  | nil =>
      refine iff_of_true ⟨[], rfl⟩ ⟨⟨[], .nil, ?_⟩, by simp⟩
      cases before <;> simp
  | cons e rest ih =>
      have hbefore (width : Int) (widths : List Int) : (before.toList ++ width :: widths).IsChain (· < ·) ↔
          before.all (· < width) = true ∧ (width :: widths).IsChain (· < ·) := by
        cases before <;> simp
      simp only [loadBuckets, Success.bind_iff, Success.pure_iff, Reporter.ensure_iff, Reporter.require_iff,
        validOptions_iff, List.map_cons, List.forall_mem_cons]
      constructor
      · rintro ⟨_, width, hwidth, _, hless, _, hoptions, more, hmore, -⟩
        obtain ⟨⟨widths, hwidths, hchain⟩, hrest⟩ := ih.1 ⟨more, hmore⟩
        exact ⟨⟨width :: widths, .cons hwidth hwidths, (hbefore _ _).2 ⟨hless, hchain⟩⟩, hoptions, hrest⟩
      · rintro ⟨⟨widths, hconverts, hchain⟩, hoptions, hrest⟩
        obtain ⟨width, widths', hwidth, hwidths', rfl⟩ := List.forall₂_cons_left_iff.1 hconverts
        obtain ⟨hless, htail⟩ := (hbefore _ _).1 hchain
        obtain ⟨more, hmore⟩ := (@ih (some width)).2 ⟨⟨widths', hwidths', htail⟩, hrest⟩
        exact ⟨_, width, hwidth, (), hless, (), hoptions, more, hmore, rfl⟩

theorem exists_loadLayer_iff {es : List EnclosureRules} :
    (∃ buckets, loadLayer r es = .ok buckets) ↔ EnclosureRules.ValidLayer es := by
  simp only [loadLayer, Success.bind_iff, Reporter.ensure_iff, Bool.not_eq_true', List.isEmpty_eq_false_iff]
  constructor
  · rintro ⟨buckets, _, hnonempty, hbuckets⟩
    obtain ⟨⟨widths, hwidths, hchain⟩, hoptions⟩ := exists_loadBuckets_iff.1 ⟨buckets, hbuckets⟩
    exact ⟨hnonempty, ⟨widths, hwidths, List.isChain_iff_pairwise.1 hchain⟩, hoptions⟩
  · rintro ⟨hnonempty, ⟨widths, hwidths, hascending⟩, hoptions⟩
    have hchain : ((none : Option Int).toList ++ widths).IsChain (· < ·) := List.isChain_iff_pairwise.2 hascending
    obtain ⟨buckets, hbuckets⟩ := exists_loadBuckets_iff (r := r).2 ⟨⟨widths, hwidths, hchain⟩, hoptions⟩
    exact ⟨buckets, (), hnonempty, hbuckets⟩

theorem exists_load_iff {v : ViaRules} : (∃ rule, load r v = .ok rule) ↔ v.Valid := by
  simp only [load, Success.bind_iff, Success.pure_iff, Reporter.ensure_iff, Success.forM_iff, Bool.and_eq_true,
    decide_eq_true_eq, List.forall_mem_cons, Option.mem_toList]
  constructor
  · rintro ⟨_, _, hcut, _, ⟨hspacing, hspacing2⟩, bottom, hbottom, top, htop, -⟩
    exact ⟨hcut, hspacing, hspacing2, exists_loadLayer_iff.1 ⟨bottom, hbottom⟩, exists_loadLayer_iff.1 ⟨top, htop⟩⟩
  · intro h
    obtain ⟨bottom, hbottom⟩ := exists_loadLayer_iff (r := r).2 h.bottom
    obtain ⟨top, htop⟩ := exists_loadLayer_iff (r := r).2 h.top
    exact ⟨_, (), h.cut, (), ⟨h.spacing, h.spacing2⟩, bottom, hbottom, top, htop, rfl⟩

theorem failsAt_loadBuckets (trail : List Place) (before : Option Int) (es : List EnclosureRules) :
    FailsAt trail (loadBuckets (Place.reporter trail) before es) := by
  induction es generalizing before with
  | nil => exact failsAt_ok []
  | cons e rest ih =>
      refine (failsAt_require _ _).bind fun width => (failsAt_ensure _ _).bind fun _ => ?_
      exact (failsAt_ensure _ _).bind fun _ => (ih (some width)).bind fun more => failsAt_ok _

theorem failsAt_load (trail : List Place) (v : ViaRules) : FailsAt trail (load (Place.reporter trail) v) := by
  have hlayer (es : List EnclosureRules) : FailsAt trail (loadLayer (Place.reporter trail) es) :=
    (failsAt_ensure _ _).bind fun _ => failsAt_loadBuckets trail none es
  refine (failsAt_ensure _ _).bind fun _ => (failsAt_forM (fun _ => failsAt_ensure _ _) _).bind fun _ => ?_
  exact (hlayer _).bind fun bottom => (hlayer _).bind fun top => failsAt_ok _

end ViaRule

namespace Tech

variable {rules : TechRules} {r : Reporter RuleFault LayoutError} {s : List Place}

/-- The checkpoint of an entry. -/
def checkpoint (rules : TechRules) (e : TechEntry) : Checkpoint := ⟨[e.place], e.Sound rules⟩

theorem exists_loadLayerId_iff {name : String} :
    (∃ id, loadLayerId rules r name = .ok id) ↔ name ∈ rules.layers.keys := by
  simp only [loadLayerId, Reporter.require_iff, KeyMap.mem_keys_iff]

theorem passes_loadViaLayers (rules : TechRules) : Passes (loadViaLayers rules) s
    ((rules.viaLayers.entries.map fun e => TechEntry.viaLayers e.1 e.2.1 e.2.2).map (checkpoint rules)) := by
  rw [List.map_map]
  refine passes_traverse (fun id layers r => ?_) fun id layers trail => ?_
  · simp only [Success.bind_iff, Success.pure_iff]
    constructor
    · rintro ⟨_, bot, hbot, top, htop, -⟩
      exact ⟨exists_loadLayerId_iff.1 ⟨bot, hbot⟩, exists_loadLayerId_iff.1 ⟨top, htop⟩⟩
    · rintro ⟨hbot, htop⟩
      obtain ⟨bot, hbot⟩ := exists_loadLayerId_iff (r := r).2 hbot
      obtain ⟨top, htop⟩ := exists_loadLayerId_iff (r := r).2 htop
      exact ⟨_, bot, hbot, top, htop, rfl⟩
  · exact (failsAt_require _ _).bind fun bot => (failsAt_require _ _).bind fun top => failsAt_ok _

theorem passes_loadLayerTypes (rules : TechRules) : Passes (loadLayerTypes rules) s
    ((rules.layerTypes.entries.map fun e => TechEntry.layerType e.1).map (checkpoint rules)) := by
  rw [List.map_map]
  refine passes_foldlM (fun types e _ => ?_) KeyMap.empty
  exact (passes_within exists_loadLayerId_iff (failsAt_require _ _)).map fun id => types.insert id e.2

theorem passes_loadTables (rules : TechRules) (tables : KeyMap String SpaceTableRules) :
    Passes (loadTables tables) s ((TechRules.tableEntries tables).map (checkpoint rules)) := by
  rw [TechRules.tableEntries, List.map_map]
  exact passes_traverse (fun type table r => SpaceTable.exists_load_iff)
    fun type table trail => SpaceTable.failsAt_load trail table

theorem passes_loadViaRules (rules : TechRules) : Passes (loadViaRules rules) s
    ((rules.vias.entries.map fun e => TechEntry.via e.1 e.2).map (checkpoint rules)) := by
  rw [List.map_map]
  refine passes_traverse (fun id via r => ?_) fun id via trail => ?_
  · have hlisted : rules.viaLayers.contains id = true ↔ id ∈ rules.viaLayers.keys := by
      rw [KeyMap.contains, Option.isSome_iff_exists, KeyMap.mem_keys_iff]
    simp only [Success.bind_iff, Reporter.ensure_iff, hlisted]
    constructor
    · rintro ⟨rule, _, hid, hrule⟩
      exact ⟨hid, ViaRule.exists_load_iff.1 ⟨rule, hrule⟩⟩
    · rintro ⟨hid, hvalid⟩
      obtain ⟨rule, hrule⟩ := ViaRule.exists_load_iff (r := r).2 hvalid
      exact ⟨rule, (), hid, hrule⟩
  · exact (failsAt_ensure _ _).bind fun _ => ViaRule.failsAt_load trail via

/-- The purposes are checked first, and then the entries in their order. -/
theorem passes_loadAll (rules : TechRules) : Passes (loadAll rules) s (⟨[], rules.defaultPurpose ∈ rules.purposes.keys⟩ ::
    ⟨[], rules.pinPurpose ∈ rules.purposes.keys⟩ :: rules.entries.map (checkpoint rules)) := by
  have hpurpose (name : String) (fault : RuleFault) : Passes (Loading.here fun r =>
      r.require (rules.purposes.get? name) fault) s [⟨[], name ∈ rules.purposes.keys⟩] := by
    refine passes_here ?_ (failsAt_require _ _)
    simp only [Reporter.require_iff, KeyMap.mem_keys_iff]
  have hsameColor : Passes (rules.sameColor.mapM loadTables) s
      ((rules.sameColor.elim [] TechRules.tableEntries).map (checkpoint rules)) := by
    cases rules.sameColor with
    | none => exact passes_pure none
    | some tables => exact (passes_loadTables rules tables).map some
  simp only [TechRules.entries, List.map_append]
  refine (hpurpose rules.defaultPurpose _).bind fun defaultPurpose _ => ?_
  refine (hpurpose rules.pinPurpose _).bind fun pinPurpose _ => ?_
  refine (passes_loadViaLayers rules).bind fun viaLayers _ => ?_
  refine (passes_loadLayerTypes rules).bind fun layerTypes _ => ?_
  refine (passes_loadTables rules rules.minSpace).bind fun minSpace _ => ?_
  refine (passes_loadTables rules rules.lineEnd).bind fun lineEnd _ => ?_
  refine hsameColor.bind fun sameColor _ => ?_
  exact (passes_loadViaRules rules).map _

theorem valid_iff : rules.Valid ↔ rules.defaultPurpose ∈ rules.purposes.keys ∧
    rules.pinPurpose ∈ rules.purposes.keys ∧ ∀ e ∈ rules.entries, e.Sound rules := by
  have htables {tables : KeyMap String SpaceTableRules} :
      (∀ e ∈ TechRules.tableEntries tables, e.Sound rules) ↔ ∀ t ∈ tables.values, t.Valid := by
    rw [TechRules.tableEntries, List.forall_mem_map, KeyMap.values, List.forall_mem_map]
    rfl
  have hsameColor : (∀ e ∈ rules.sameColor.elim [] TechRules.tableEntries, e.Sound rules) ↔
      ∀ tables, rules.sameColor = some tables → ∀ t ∈ tables.values, t.Valid := by
    cases rules.sameColor with
    | none => simp
    | some tables => simpa using htables
  simp only [TechRules.entries, List.forall_mem_append, htables, hsameColor]
  simp only [List.forall_mem_map, TechEntry.Sound, Prod.forall, ← KeyMap.get?_eq_some_iff]
  constructor
  · intro h
    exact ⟨h.defaultPurpose, h.pinPurpose, fun id bot top hid => h.viaLayers id bot top hid,
      fun layer type hlayer => h.layerTypes layer (KeyMap.mem_keys_iff.2 ⟨type, hlayer⟩), h.tables _ (.inl rfl),
      h.tables _ (.inr (.inl rfl)), fun tables ht => h.tables tables (.inr (.inr ht)), h.vias⟩
  · rintro ⟨hdefault, hpin, hvias, hlayerTypes, hminSpace, hlineEnd, hsame, hrules⟩
    refine ⟨hdefault, hpin, hvias, fun layer hlayer => ?_, ?_, hrules⟩
    · obtain ⟨type, hlayer⟩ := KeyMap.mem_keys_iff.1 hlayer
      exact hlayerTypes layer type hlayer
    · rintro tables (rfl | rfl | ht)
      · exact hminSpace
      · exact hlineEnd
      · exact hsame tables ht

/-- A technology is loaded from valid rules, and from no others. Invalid rules are refused where the technology has a
purpose that is not listed, or else at the place of the first entry that is faulty, with no place of another entry. -/
theorem load_accepts_valid (rules : TechRules) :
    ((∃ t, load rules = .ok t) ↔ rules.Valid) ∧
    ∀ e, load rules = .error e → ∃ fault,
      (¬ (rules.defaultPurpose ∈ rules.purposes.keys ∧ rules.pinPurpose ∈ rules.purposes.keys) ∧
        e = .load fault [.tech]) ∨
      (rules.defaultPurpose ∈ rules.purposes.keys ∧ rules.pinPurpose ∈ rules.purposes.keys) ∧
        ∃ before entry after, rules.entries = before ++ entry :: after ∧ (∀ b ∈ before, b.Sound rules) ∧
          ¬ entry.Sound rules ∧ e = .load fault [.tech, entry.place] := by
  have hpasses := passes_loadAll rules (s := [.tech])
  constructor
  · rw [valid_iff]
    refine hpasses.exists_ok_iff.trans ?_
    rw [List.forall_mem_cons, List.forall_mem_cons, List.forall_mem_map]
    rfl
  · intro e he
    obtain ⟨before, p, after, hpoints, hbefore, hp, fault, rfl⟩ := hpasses.of_error he
    refine ⟨fault, ?_⟩
    rcases before with _ | ⟨first, _ | ⟨second, before⟩⟩
    · obtain ⟨rfl, -⟩ := List.cons.inj hpoints
      exact .inl ⟨fun h => hp h.1, rfl⟩
    · obtain ⟨rfl, hrest⟩ := List.cons.inj hpoints
      obtain ⟨rfl, -⟩ := List.cons.inj hrest
      exact .inl ⟨fun h => hp h.2, rfl⟩
    · simp only [List.cons_append, List.cons.injEq] at hpoints
      obtain ⟨rfl, rfl, hentries⟩ := hpoints
      obtain ⟨hdefault, hlater⟩ := List.forall_mem_cons.1 hbefore
      obtain ⟨hpin, hsound⟩ := List.forall_mem_cons.1 hlater
      obtain ⟨entries, tail, hsplit, rfl, htail⟩ := List.map_eq_append_iff.1 hentries
      obtain ⟨entry, rest, rfl, rfl, rfl⟩ := List.map_eq_cons_iff.1 htail
      exact .inr ⟨⟨hdefault, hpin⟩, entries, entry, rest, hsplit, fun b hb => hsound _ (List.mem_map_of_mem hb), hp, rfl⟩

/-- Rules of two vias on a few layers. The second via goes up to a layer of choice. -/
def stairRules (top : String) : TechRules where
  layers := .ofList [("M1", 1), ("M2", 2)]
  purposes := .ofList [("drawing", 0)]
  viaLayers := .ofList [("VA", "M1", "M2"), ("VB", "M1", top)]
  defaultPurpose := "drawing"
  pinPurpose := "drawing"
  drawPins := false
  layerTypes := .ofList [("M7", "Mx")]
  minSpace := .empty
  lineEnd := .empty
  sameColor := none
  vias := .empty

theorem load_accepts_valid_stairs :
    ¬ (stairRules "M3").Valid ∧
    ∃ before entry after, (stairRules "M3").entries = before ++ entry :: after ∧
      (∀ b ∈ before, b.Sound (stairRules "M3")) ∧ ¬ entry.Sound (stairRules "M3") ∧ entry.place = .viaRule "VB" := by
  have hload : load (stairRules "M3") = .error (.load (.layer "M3") [.tech, .viaRule "VB"]) := rfl
  obtain ⟨hiff, herror⟩ := load_accepts_valid (stairRules "M3")
  constructor
  · intro hvalid
    obtain ⟨t, ht⟩ := hiff.2 hvalid
    rw [hload] at ht
    cases ht
  · obtain ⟨fault, ⟨-, htrail⟩ | ⟨-, before, entry, after, hsplit, hbefore, hentry, htrail⟩⟩ := herror _ hload
    · cases htrail
    · refine ⟨before, entry, after, hsplit, hbefore, hentry, ?_⟩
      simp only [LayoutError.load.injEq, List.cons.injEq, and_true, true_and] at htrail
      exact htrail.2.symm

end Tech

end MaskLayout
