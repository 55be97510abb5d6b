import MaskLayout.Proofs.Grid.Colors
import Mathlib.Order.Bounds.Basic

/-!
# Which routing grids are accepted

Which routing-grid rules are accepted, and what a grid offers that was loaded. Rules are valid when their levels follow
each other, the tracks of each level are valid and the levels are divided in order; a grid is loaded from valid rules
only, and from all of them. The lowest faulty level is reported. Every level of a loaded grid has tracks of a whole
half-pitch, wires of positive width and colors, and no other level has any.
-/

namespace MaskLayout

/-- Valid tracks of a level: positive width and space with an even pitch, positive overrides, and layers that the
technology names, the first of which has a type. -/
structure TrackRules.Valid (tech : Tech) (t : TrackRules) : Prop where
  sizes : 0 < t.width ∧ 0 < t.space
  pitch : 2 ∣ t.width + t.space
  overrides : ∀ count w, t.overrides.get? count = some w → 1 ≤ count ∧ 0 < w
  layers : t.layers ≠ []
  named : ∀ l ∈ t.layers, ∃ key, tech.layerKey l.1 (some l.2) = .ok key
  typed : ∀ l key, t.layers.head? = some l → tech.layerKey l.1 (some l.2) = .ok key →
    ∃ type, tech.layerType? key.layer = some type

namespace GridRules

variable {rules : GridRules}

/-- Whether a level is the lowest one or the next one to another. -/
def Follows (rules : GridRules) (level : Int) : Prop :=
  level - 1 ∈ rules.levels.keys ∨ ∀ other ∈ rules.levels.keys, level ≤ other

/-- Whether a level is free of faults. -/
structure LevelSound (tech : Tech) (rules : GridRules) (level : Int) (t : TrackRules) : Prop where
  follows : rules.Follows level
  valid : t.Valid tech

/-- The lowest and the highest level. -/
def Spans (rules : GridRules) (bot top : Int) : Prop :=
  IsLeast {level | level ∈ rules.levels.keys} bot ∧ IsGreatest {level | level ∈ rules.levels.keys} top

/-- Whether the ignored levels and then the private ones come first. A boundary that is not given is below the lowest
level. -/
def Divided (rules : GridRules) (bot top : Int) : Prop :=
  bot - 1 ≤ rules.topIgnored.getD (bot - 1) ∧ rules.topIgnored.getD (bot - 1) ≤ rules.topPrivate.getD (bot - 1) ∧
    rules.topPrivate.getD (bot - 1) ≤ top

/-- Valid rules of a routing grid. -/
structure Valid (tech : Tech) (rules : GridRules) : Prop where
  nonempty : rules.levels.keys ≠ []
  levels : ∀ level t, rules.levels.get? level = some t → rules.LevelSound tech level t
  divided : ∀ bot top, rules.Spans bot top → rules.Divided bot top

end GridRules

namespace TrackLevel

variable {tech : Tech} {r : Reporter RuleFault LayoutError} {rules : TrackRules} {t : TrackLevel}

/-- The first of the keys has a type if the first of the names stands for such a key. -/
theorem exists_typed_iff {names : List (String × String)} {keys : List LayerKey} (hnames : names ≠ [])
    (h : names.mapM (fun l => r.instead (tech.layerKey l.1 (some l.2)) (.trackLayer l.1 l.2)) = .ok keys) :
    (∃ type, (keys.head?.bind fun key => tech.layerType? key.layer) = some type) ↔
      ∀ l key, names.head? = some l → tech.layerKey l.1 (some l.2) = .ok key →
        ∃ type, tech.layerType? key.layer = some type := by
  cases Success.mapM_iff.1 h with
  | nil => exact (hnames rfl).elim
  | @cons l key _ _ hkey _ =>
      rw [Reporter.instead_iff] at hkey
      constructor
      · rintro htype _ key' ⟨⟩ hkey'
        rw [hkey, Except.ok.injEq] at hkey'
        exact hkey' ▸ htype
      · intro htyped
        exact htyped l key rfl hkey

theorem exists_load_iff : (∃ t, load tech r rules = .ok t) ↔ rules.Valid tech := by
  have hoverrides : (rules.overrides.entries.all fun e => decide (1 ≤ e.1) && decide (0 < e.2)) = true ↔
      ∀ count w, rules.overrides.get? count = some w → 1 ≤ count ∧ 0 < w := by
    simp [KeyMap.get?_eq_some_iff]
  simp only [load, Success.bind_iff, Success.pure_iff, Reporter.ensure_iff, Reporter.require_iff, hoverrides,
    Bool.and_eq_true, decide_eq_true_eq, beq_iff_eq, Bool.not_eq_true', List.isEmpty_eq_false_iff]
  constructor
  · rintro ⟨_, _, hsizes, _, hpitch, _, hwidths, _, hlayers, keys, hkeys, type, htype, -⟩
    refine ⟨hsizes, Int.dvd_of_emod_eq_zero hpitch, hwidths, hlayers, fun l hl => ?_, ?_⟩
    · simpa only [Reporter.instead_iff] using Success.exists_mapM_iff.1 ⟨keys, hkeys⟩ l hl
    · exact (exists_typed_iff hlayers hkeys).1 ⟨type, htype⟩
  · intro h
    obtain ⟨keys, hkeys⟩ : ∃ keys, rules.layers.mapM (fun l =>
        r.instead (tech.layerKey l.1 (some l.2)) (.trackLayer l.1 l.2)) = .ok keys :=
      Success.exists_mapM_iff.2 (by simpa only [Reporter.instead_iff] using h.named)
    obtain ⟨type, htype⟩ := (exists_typed_iff h.layers hkeys).2 h.typed
    exact ⟨_, (), h.sizes, (), Int.emod_eq_zero_of_dvd h.pitch, (), h.overrides, (), h.layers, keys, hkeys, type, htype,
      rfl⟩

theorem failsAt_load (tech : Tech) (trail : List Place) (rules : TrackRules) :
    FailsAt trail (load tech (Place.reporter trail) rules) := by
  refine (failsAt_ensure _ _).bind fun _ => (failsAt_ensure _ _).bind fun _ => (failsAt_ensure _ _).bind fun _ => ?_
  refine (failsAt_ensure _ _).bind fun _ => (failsAt_mapM (fun _ => failsAt_instead _ _) _).bind fun layers => ?_
  exact (failsAt_require _ _).bind fun layerType => failsAt_ok _

/-- Tracks that can be used: they lie a whole half-pitch apart, wires over any number of them have a positive width, and
they have colors. -/
structure Usable (tech : Tech) (t : TrackLevel) : Prop where
  half : 0 < t.pitch / 2
  even : t.pitch = 2 * (t.pitch / 2)
  wires : ∀ count, 1 ≤ count → ∃ w, t.wireWidth count = .ok w ∧ 0 < w
  colored : t.Colored tech

theorem usable_of_load (h : load tech r rules = .ok t) : t.Usable tech := by
  have hcolored := colored_of_load h
  obtain ⟨hsizes, hpitch, hoverrides, -⟩ := exists_load_iff.1 ⟨t, h⟩
  simp only [load, Success.bind_iff, Success.pure_iff] at h
  obtain ⟨hwidth, hspace, hwidths⟩ : t.width = rules.width ∧ t.space = rules.space ∧ t.overrides = rules.overrides := by
    obtain ⟨_, -, _, -, _, -, _, -, layers, -, _, -, rfl⟩ := h
    exact ⟨rfl, rfl, rfl⟩
  rw [← hwidth, ← hspace] at hsizes hpitch
  rw [← hwidths] at hoverrides
  refine ⟨?_, ?_, fun count hcount => ?_, hcolored⟩
  · rw [pitch]
    omega
  · rw [pitch]
    omega
  · rw [wireWidth, if_neg (by omega)]
    refine ⟨_, rfl, ?_⟩
    cases hover : t.overrides.get? count with
    | some w => exact (hoverrides count w hover).2
    | none =>
        have hmore : 1 * t.pitch ≤ count * t.pitch := Int.mul_le_mul_of_nonneg_right hcount (by rw [pitch]; omega)
        rw [pitch] at hmore
        rw [Option.getD_none, pitch]
        omega

theorem wireWidth_error_iff {count : Int} {x : LayoutError} :
    t.wireWidth count = .error x ↔ count < 1 ∧ x = .outOfRange (.trackCount count) := by
  rw [wireWidth]
  split
  · rename_i hcount
    simp [hcount, eq_comm]
  · rename_i hcount
    simp [hcount]

theorem one_le_of_wireWidth {count w : Int} (hw : t.wireWidth count = .ok w) : 1 ≤ count := by
  by_contra hless
  rw [wireWidth_error_iff.2 ⟨Int.not_le.1 hless, rfl⟩] at hw
  cases hw

/-- A wire that has a width has a positive one. -/
theorem Usable.wireWidth_pos (h : t.Usable tech) {count w : Int} (hw : t.wireWidth count = .ok w) : 0 < w := by
  obtain ⟨w', hw', hpos⟩ := h.wires count (one_le_of_wireWidth hw)
  rw [hw, Except.ok.injEq] at hw'
  exact hw' ▸ hpos

/-- Half-tracks and the coordinates that they are centered on stand for each other. -/
theorem Usable.halfTrackAt_iff (h : t.Usable tech) {coord halfTrack : Int} :
    t.halfTrackAt coord = .ok halfTrack ↔ t.center halfTrack = coord := by
  have hpos := h.half
  rw [halfTrackAt, center, h.even]
  generalize t.pitch / 2 = half at hpos
  rw [Int.mul_ediv_cancel_left _ (by decide)]
  have hcenter (k : Int) : t.offset + k * half = coord ↔ 2 * (coord - t.offset) = 2 * half * k := by
    rw [Int.mul_comm k, Int.mul_assoc]
    omega
  split
  · rename_i hoff
    refine iff_of_false (by rintro ⟨⟩) fun hk => hoff ?_
    rw [(hcenter halfTrack).1 hk, Int.mul_tmod_right]
  · rename_i hon
    obtain ⟨k, hk⟩ := Int.dvd_of_tmod_eq_zero (not_not.1 hon)
    have hne : 2 * half ≠ 0 := by omega
    rw [hcenter, hk, Int.mul_tdiv_cancel_left _ hne, Except.ok.injEq, Int.mul_eq_mul_left_iff hne]

/-- The alignment of a level does not matter for its use. -/
theorem usable_of_unaligned {u : TrackLevel} (h : u.Usable tech) (heq : t.unaligned = u.unaligned) : t.Usable tech := by
  cases u
  cases t
  cases heq
  exact ⟨h.half, h.even, h.wires, h.colored.nonempty, h.colored.named⟩

end TrackLevel

namespace RoutingGrid

variable {tech : Tech} {rules : GridRules} {bot next : Int} {done rest : List (Int × TrackRules)} {s : List Place}

/-- The checkpoint of a level. -/
def checkpoint (tech : Tech) (rules : GridRules) (e : Int × TrackRules) : Checkpoint :=
  ⟨[.level e.1], rules.LevelSound tech e.1 e.2⟩

/-- After levels without a gap, a level follows if it has the next number. -/
theorem follows_iff {level : Int} {t : TrackRules} (hsplit : rules.levels.entries = done ++ (level, t) :: rest)
    (hbot : rules.levels.keys.head? = some bot) (hnext : bot ≤ next)
    (hdone : ∀ l, l ∈ done.map Prod.fst ↔ bot ≤ l ∧ l < next) : rules.Follows level ↔ level = next := by
  have hkeys : rules.levels.keys = done.map Prod.fst ++ level :: rest.map Prod.fst := by
    rw [KeyMap.keys, hsplit, List.map_append, List.map_cons]
  have hasc := KeyMap.pairwise_keys rules.levels
  rw [hkeys, List.pairwise_append, List.pairwise_cons] at hasc
  obtain ⟨-, ⟨hrest, -⟩, hbelow⟩ := hasc
  have hlow (l : Int) (hl : bot ≤ l ∧ l < next) : l < level := hbelow l ((hdone l).2 hl) level List.mem_cons_self
  have hmem (l : Int) : l ∈ rules.levels.keys ↔ (bot ≤ l ∧ l < next) ∨ l = level ∨ l ∈ rest.map Prod.fst := by
    rw [hkeys, List.mem_append, List.mem_cons, hdone]
  have hfirst : next = bot → level = bot := by
    intro heq
    cases done with
    | nil =>
        rw [hkeys] at hbot
        exact Option.some.inj hbot
    | cons e _ =>
        have := (hdone e.1).1 List.mem_cons_self
        omega
  constructor
  · rintro (hbefore | hleast)
    · rcases (hmem _).1 hbefore with h | h | h
      · have := hlow (next - 1)
        omega
      · omega
      · have := hrest _ h
        omega
    · by_cases heq : next = bot
      · rw [heq, hfirst heq]
      · have hle := hleast bot ((hmem bot).2 (.inl (by omega)))
        have hlt := hlow bot (by omega)
        omega
  · rintro rfl
    by_cases heq : level = bot
    · refine .inr fun l hl => ?_
      rcases (hmem l).1 hl with h | h | h
      · omega
      · exact h.ge
      · exact (hrest l h).le
    · exact .inl ((hmem _).2 (.inl (by omega)))

/-- Levels are checked from the lowest one on, each for its number and its tracks. -/
theorem passes_loadLevels (tech : Tech) (hsplit : rules.levels.entries = done ++ rest)
    (hbot : rules.levels.keys.head? = some bot) (hnext : bot ≤ next)
    (hdone : ∀ l, l ∈ done.map Prod.fst ↔ bot ≤ l ∧ l < next) :
    Passes (loadLevels tech bot next rest) s (rest.map (checkpoint tech rules)) := by
  induction rest generalizing done next with
  | nil => exact passes_pure []
  | cons e rest ih =>
      obtain ⟨level, t⟩ := e
      have hfollows := follows_iff hsplit hbot hnext hdone
      rw [loadLevels, List.map_cons, ← List.singleton_append]
      refine Passes.bind (passes_within ?_ ?_) fun u hu => ?_
      · simp only [Success.bind_iff, Reporter.ensure_iff, beq_iff_eq]
        constructor
        · rintro ⟨u, _, hlevel, hu⟩
          exact ⟨hfollows.2 hlevel, TrackLevel.exists_load_iff.1 ⟨u, hu⟩⟩
        · rintro ⟨hlevel, hvalid⟩
          obtain ⟨u, hu⟩ := TrackLevel.exists_load_iff.2 hvalid
          exact ⟨u, (), hfollows.1 hlevel, hu⟩
      · exact (failsAt_ensure _ _).bind fun _ => TrackLevel.failsAt_load _ _ _
      · obtain ⟨_, hlevel, -⟩ := Success.bind_iff.1 (Loading.run_within_iff.1 hu).1
        rw [Reporter.ensure_iff, beq_iff_eq] at hlevel
        have hsplit' : rules.levels.entries = (done ++ [(level, t)]) ++ rest := by
          rw [hsplit, List.append_assoc, List.singleton_append]
        refine (ih hsplit' (by omega) fun l => ?_).map fun more => u :: more
        rw [List.map_append, List.mem_append, hdone, List.map_singleton, List.mem_singleton]
        omega

/-- That there are levels is checked first, and then the levels. -/
theorem passes_loadAll (tech : Tech) (rules : GridRules) : Passes (loadAll tech rules) s
    (⟨[], rules.levels.keys ≠ []⟩ :: rules.levels.entries.map (checkpoint tech rules)) := by
  rw [loadAll, ← List.singleton_append]
  refine Passes.bind (passes_here ?_ (failsAt_require _ _)) fun bot hbot => ?_
  · simp only [Reporter.require_iff]
    cases rules.levels.keys with
    | nil => simp
    | cons level rest => simp
  · obtain ⟨_, hbot, hout⟩ := Success.bind_iff.1 (Loading.run_here _ _ ▸ hbot)
    cases hout
    rw [Reporter.require_iff] at hbot
    have hdone (l : Int) : l ∈ ([] : List (Int × TrackRules)).map Prod.fst ↔ bot ≤ l ∧ l < bot := by
      rw [List.map_nil]
      exact iff_of_false List.not_mem_nil (by omega)
    exact (passes_loadLevels tech (List.nil_append _).symm hbot (Int.le_refl bot) hdone).map fun levels => (bot, levels)

/-- Levels that were loaded have successive numbers, and each of them can be used. -/
theorem levels_of_loadLevels {levels : List TrackLevel} {s' : List Place}
    (h : (loadLevels tech bot next rest).run s = .ok (levels, s')) :
    rest.map Prod.fst = (List.range levels.length).map (fun i : Nat => next + i) ∧ ∀ t ∈ levels, t.Usable tech := by
  induction rest generalizing next levels s with
  | nil =>
      cases h
      exact ⟨rfl, fun t ht => (List.not_mem_nil ht).elim⟩
  | cons e rest ih =>
      obtain ⟨level, t⟩ := e
      simp only [loadLevels, StateT.run_bind, Success.bind_iff] at h
      obtain ⟨⟨u, _⟩, hwithin, ⟨more, _⟩, hmore, hout⟩ := h
      cases hout
      obtain ⟨hload, -⟩ := Loading.run_within_iff.1 hwithin
      obtain ⟨_, hlevel, hu⟩ := Success.bind_iff.1 hload
      rw [Reporter.ensure_iff, beq_iff_eq] at hlevel
      subst hlevel
      obtain ⟨hnumbers, husable⟩ := ih hmore
      refine ⟨?_, List.forall_mem_cons.2 ⟨TrackLevel.usable_of_load hu, husable⟩⟩
      rw [List.map_cons, hnumbers, List.length_cons, List.range_succ_eq_map, List.map_cons, List.map_map]
      refine congrArg₂ List.cons (Int.add_zero level).symm (List.map_congr_left fun i _ => ?_)
      rw [Function.comp_apply]
      omega

theorem mem_numbers_iff {count : Nat} {level : Int} :
    level ∈ (List.range count).map (fun i : Nat => bot + i) ↔ bot ≤ level ∧ level ≤ bot + count - 1 := by
  simp only [List.mem_map, List.mem_range]
  constructor
  · rintro ⟨i, hi, rfl⟩
    omega
  · rintro ⟨hlow, hhigh⟩
    exact ⟨(level - bot).toNat, by omega, by omega⟩

theorem exists_trackLevel {g : RoutingGrid} {level : Int} (hlow : g.bot ≤ level) (hhigh : level ≤ g.top) :
    ∃ t, g.trackLevel level = .ok t := by
  have hlt : (level - g.bot).toNat < g.levels.length := by
    rw [top] at hhigh
    omega
  refine ⟨g.levels[(level - g.bot).toNat], ?_⟩
  rw [trackLevel, if_neg (by omega), List.getElem?_eq_getElem hlt]

theorem trackLevel_of_outside {g : RoutingGrid} {level : Int} (h : ¬ (g.bot ≤ level ∧ level ≤ g.top)) :
    g.trackLevel level = .error (.outOfRange (.level level)) := by
  rw [trackLevel]
  by_cases hlow : level < g.bot
  · rw [if_pos hlow]
  · have hle : g.levels.length ≤ (level - g.bot).toNat := by
      rw [top] at h
      omega
    rw [if_neg hlow, List.getElem?_eq_none hle]

/-- What a grid offers: levels without a gap, each of which can be used, and no others. -/
structure Serves (rules : GridRules) (g : RoutingGrid) : Prop where
  levels : ∀ level, level ∈ rules.levels.keys ↔ g.bot ≤ level ∧ level ≤ g.top
  tracks : ∀ level, g.bot ≤ level → level ≤ g.top → ∃ t, g.trackLevel level = .ok t ∧ t.Usable g.tech.value ∧
    (∀ coord halfTrack, t.halfTrackAt coord = .ok halfTrack ↔ t.center halfTrack = coord) ∧
    ∀ halfTrack, ∃ key ∈ t.layers, g.layerKey level halfTrack = .ok key
  outside : ∀ level, ¬ (g.bot ≤ level ∧ level ≤ g.top) → g.trackLevel level = .error (.outOfRange (.level level)) ∧
    ∀ halfTrack, g.layerKey level halfTrack = .error (.outOfRange (.level level))

theorem serves_of_numbers {g : RoutingGrid}
    (hnumbers : rules.levels.keys = (List.range g.levels.length).map (fun i : Nat => g.bot + i))
    (husable : ∀ t ∈ g.levels, t.Usable g.tech.value) : g.Serves rules := by
  refine ⟨fun level => hnumbers ▸ mem_numbers_iff, fun level hlow hhigh => ?_, fun level houtside => ?_⟩
  · obtain ⟨t, ht⟩ := exists_trackLevel hlow hhigh
    have husable := husable t (mem_of_trackLevel ht)
    refine ⟨t, ht, husable, fun coord halfTrack => husable.halfTrackAt_iff, fun halfTrack => ?_⟩
    obtain ⟨key, hkey, -⟩ := husable.colored.colorAt? halfTrack
    refine ⟨key, List.mem_of_getElem? hkey, ?_⟩
    rw [layerKey, Success.bind_iff]
    exact ⟨t, ht, by rw [hkey]; rfl⟩
  · have hnone := trackLevel_of_outside houtside
    refine ⟨hnone, fun halfTrack => ?_⟩
    rw [layerKey, hnone]
    rfl

/-- How invalid rules are refused: without levels, at the lowest level that is faulty, or with the division of the levels
if they are sound. -/
inductive Refused (tech : Tech) (rules : GridRules) : LayoutError → Prop
  | empty (hempty : rules.levels.keys = []) : Refused tech rules (.load .noLevels [.grid])
  | level {level : Int} {t : TrackRules} {fault : RuleFault} (hlevel : rules.levels.get? level = some t)
      (hfault : ¬ rules.LevelSound tech level t)
      (hlower : ∀ l t', rules.levels.get? l = some t' → l < level → rules.LevelSound tech l t') :
      Refused tech rules (.load fault [.grid, .level level])
  | division {bot top : Int} (hlevels : ∀ l t, rules.levels.get? l = some t → rules.LevelSound tech l t)
      (hspans : rules.Spans bot top) (hdivision : ¬ rules.Divided bot top) :
      Refused tech rules (.outOfRange (.partition (rules.topIgnored.getD (bot - 1)) (rules.topPrivate.getD (bot - 1))
        bot top))

theorem withPartition_iff {g : RoutingGrid} {topIgnored topPrivate : Int} :
    (∃ g', g.withPartition topIgnored topPrivate = .ok g') ↔
      g.bot - 1 ≤ topIgnored ∧ topIgnored ≤ topPrivate ∧ topPrivate ≤ g.top := by
  rw [withPartition]
  split
  · exact iff_of_true ⟨_, rfl⟩ ‹_›
  · refine iff_of_false ?_ ‹_›
    rintro ⟨g', ⟨⟩⟩

theorem loadAll_of_empty (h : rules.levels.keys = []) :
    (loadAll tech rules).run' s = .error (.load .noLevels s) := by
  rw [loadAll, h]
  rfl

theorem error_of_withPartition {g : RoutingGrid} {topIgnored topPrivate : Int} {e : LayoutError}
    (h : g.withPartition topIgnored topPrivate = .error e) :
    .outOfRange (.partition topIgnored topPrivate g.bot g.top) = e := by
  rw [withPartition] at h
  split at h
  · cases h
  · exact Except.error.inj h

/-- Rules are loaded up to their division if they have levels and all of these are sound. -/
theorem exists_loadAll_iff (tech : Tech) (rules : GridRules) (s : List Place) :
    (∃ parts, (loadAll tech rules).run' s = .ok parts) ↔
      rules.levels.keys ≠ [] ∧ ∀ level t, rules.levels.get? level = some t → rules.LevelSound tech level t := by
  refine (passes_loadAll tech rules).exists_ok_iff.trans ?_
  rw [List.forall_mem_cons, List.forall_mem_map]
  simp only [checkpoint, Prod.forall, ← KeyMap.get?_eq_some_iff]

/-- Rules that are not loaded up to their division have no levels or are refused at the lowest level that is faulty. -/
theorem refused_of_loadAll {e : LayoutError} (h : (loadAll tech rules).run' [.grid] = .error e) :
    Refused tech rules e := by
  obtain ⟨before, p, after, hpoints, hbefore, hp, fault, rfl⟩ := (passes_loadAll tech rules).of_error h
  cases before with
  | nil =>
      obtain ⟨rfl, -⟩ := List.cons.inj hpoints
      have hempty : rules.levels.keys = [] := not_not.1 hp
      rw [loadAll_of_empty hempty] at h
      exact Except.error.inj h ▸ .empty hempty
  | cons first before =>
      obtain ⟨-, hentries⟩ := List.cons.inj hpoints
      obtain ⟨lower, rest, hsplit, rfl, hrest⟩ := List.map_eq_append_iff.1 hentries
      obtain ⟨⟨level, t⟩, higher, rfl, rfl, rfl⟩ := List.map_eq_cons_iff.1 hrest
      refine .level (KeyMap.get?_eq_some_iff.2 ?_) hp fun l t' hl hlt => ?_
      · rw [hsplit]
        exact List.mem_append_right _ List.mem_cons_self
      · have hasc := rules.levels.pairwise_keys
        rw [KeyMap.keys, hsplit, List.map_append, List.map_cons, List.pairwise_append, List.pairwise_cons] at hasc
        rw [KeyMap.get?_eq_some_iff, hsplit, List.mem_append, List.mem_cons] at hl
        rcases hl with hl | hl | hl
        · exact hbefore _ (List.mem_cons_of_mem _ (List.mem_map_of_mem hl))
        · cases hl
          exact absurd hlt (Int.lt_irrefl _)
        · exact absurd hlt (Int.lt_asymm (hasc.2.1.1 l (List.mem_map_of_mem hl)))

/-- The levels of rules that were loaded up to their division. -/
theorem levels_of_loadAll {levels : List TrackLevel} (h : (loadAll tech rules).run' s = .ok (bot, levels)) :
    rules.levels.keys = (List.range levels.length).map (fun i : Nat => bot + i) ∧ (∀ t ∈ levels, t.Usable tech) ∧
      rules.Spans bot (bot + levels.length - 1) := by
  obtain ⟨_, hrun⟩ := Loading.run_of_run' h
  simp only [loadAll, StateT.run_bind, Loading.run_here, Success.bind_iff, Reporter.require_iff] at hrun
  obtain ⟨_, ⟨low, hhead, hbot⟩, ⟨found, _⟩, hlevels, hout⟩ := hrun
  cases hbot
  cases hout
  obtain ⟨hnumbers, husable⟩ := levels_of_loadLevels hlevels
  refine ⟨hnumbers, husable, ?_⟩
  have hmem (l : Int) : l ∈ rules.levels.keys ↔ low ≤ l ∧ l ≤ low + found.length - 1 := by
    rw [← mem_numbers_iff, ← hnumbers, KeyMap.keys]
  have hbounds := (hmem low).1 (List.mem_of_mem_head? hhead)
  exact ⟨⟨(hmem _).2 hbounds, fun l hl => ((hmem l).1 hl).1⟩,
    ⟨(hmem _).2 ⟨hbounds.2, Int.le_refl _⟩, fun l hl => ((hmem l).1 hl).2⟩⟩

/-- Every level of a loaded grid can be used. -/
theorem Loaded.usable {g : RoutingGrid} (h : g.Loaded) : ∀ t ∈ g.levels, t.Usable g.tech.value :=
  h.forall_levels TrackLevel.usable_of_unaligned fun hparts => (levels_of_loadAll hparts).2.1

theorem spans_unique {bot' top top' : Int} (h : rules.Spans bot top) (h' : rules.Spans bot' top') :
    bot = bot' ∧ top = top' := ⟨h.1.unique h'.1, h.2.unique h'.2⟩

theorem valid_iff_of_spans {top : Int} (hspans : rules.Spans bot top) : rules.Valid tech ↔
    (∀ level t, rules.levels.get? level = some t → rules.LevelSound tech level t) ∧ rules.Divided bot top := by
  constructor
  · intro h
    exact ⟨h.levels, h.divided bot top hspans⟩
  · rintro ⟨hlevels, hdivided⟩
    refine ⟨List.ne_nil_of_mem hspans.1.1, hlevels, fun bot' top' hspans' => ?_⟩
    obtain ⟨rfl, rfl⟩ := spans_unique hspans hspans'
    exact hdivided

/-- A routing grid is loaded from valid rules, and from no others. Invalid rules are refused at the lowest level that is
faulty, and only for their division if no level is. A grid that was loaded has the levels of its rules, where every
half-track has a coordinate and a layer that the technology names and every wire has a positive width, and reports any
other level as out of range. -/
theorem load_accepts_valid_levels (tech : Shared Tech) (rules : GridRules) :
    ((∃ g, load tech rules = .ok g) ↔ rules.Valid tech.value) ∧
    (∀ e, load tech rules = .error e → Refused tech.value rules e) ∧
    ∀ g, load tech rules = .ok g → g.tech = tech ∧ g.Serves rules := by
  have hload : load tech rules = ((loadAll tech.value rules).run' [.grid] >>= fun parts =>
      RoutingGrid.withPartition ⟨tech, parts.1, parts.1 - 1, parts.1 - 1, parts.2⟩
        (rules.topIgnored.getD (parts.1 - 1)) (rules.topPrivate.getD (parts.1 - 1))) := rfl
  have hloaded := exists_loadAll_iff tech.value rules [.grid]
  rw [hload]
  cases hparts : (loadAll tech.value rules).run' [.grid] with
  | error e =>
      refine ⟨iff_of_false ?_ fun hvalid => ?_, ?_, ?_⟩
      · rintro ⟨g, ⟨⟩⟩
      · obtain ⟨parts, hok⟩ := hloaded.2 ⟨hvalid.nonempty, hvalid.levels⟩
        rw [hparts] at hok
        cases hok
      · rintro _ ⟨⟩
        exact refused_of_loadAll hparts
      · rintro g ⟨⟩
  | ok parts =>
      obtain ⟨bot, levels⟩ := parts
      obtain ⟨hnumbers, husable, hspans⟩ := levels_of_loadAll hparts
      obtain ⟨-, hlevels⟩ := hloaded.1 ⟨_, hparts⟩
      refine ⟨?_, fun e he => ?_, fun g hg => ?_⟩
      · rw [valid_iff_of_spans hspans]
        exact withPartition_iff.trans (iff_and_self.2 fun _ => hlevels)
      · refine error_of_withPartition he ▸ .division hlevels hspans fun hdivided => ?_
        obtain ⟨g, hg⟩ := (withPartition_iff (g := ⟨tech, bot, bot - 1, bot - 1, levels⟩)).2 hdivided
        cases he.symm.trans hg
      · obtain ⟨htech, hbot, hunaligned⟩ := map_unaligned_withPartition hg
        have hlength : g.levels.length = levels.length := by
          rw [← List.length_map (f := TrackLevel.unaligned), hunaligned, List.length_map]
        refine ⟨htech, serves_of_numbers ?_ fun t ht => ?_⟩
        · rw [hnumbers, hbot, hlength]
        · obtain ⟨u, hu, heq⟩ := List.mem_map.1 (hunaligned ▸ List.mem_map_of_mem ht)
          rw [htech]
          exact TrackLevel.usable_of_unaligned (husable u hu) heq.symm

/-- A technology with two layers of one type. -/
def laneTech : Shared Tech where
  serial := 0
  value := {
    layers := .ofList [("M1", 1), ("M2", 2)]
    purposes := .ofList [("drawing", 0)]
    viaLayers := .empty
    layerTypes := .ofList [(1, "Mx"), (2, "Mx")]
    minSpace := .empty
    lineEnd := .empty
    sameColor := none
    defaultPurpose := 0
    pinPurpose := 0
    drawPins := false
    viaRules := .empty }

/-- The rules of two levels, the second of which has a number of choice and two colors. -/
def laneRules (second : Int) : GridRules where
  levels := .ofList [(1, ⟨.horiz, 6, 4, none, [("M1", "drawing")], .empty⟩),
    (second, ⟨.vert, 5, 3, some 0, [("M2", "drawing"), ("M1", "drawing")], .ofList [(2, 16)]⟩)]
  topIgnored := none
  topPrivate := some 1

theorem load_accepts_valid_levels_lanes :
    (laneRules 2).Valid laneTech.value ∧
    (∃ g, load laneTech (laneRules 2) = .ok g ∧ g.Serves (laneRules 2)) ∧
    ¬ (laneRules 3).Valid laneTech.value ∧ Refused laneTech.value (laneRules 3) (.load (.levelGap 1) [.grid, .level 3]) := by
  obtain ⟨hvalid, -, hserves⟩ := load_accepts_valid_levels laneTech (laneRules 2)
  obtain ⟨hvalid', hrefused, -⟩ := load_accepts_valid_levels laneTech (laneRules 3)
  obtain ⟨g, hg⟩ : ∃ g, load laneTech (laneRules 2) = .ok g := ⟨_, rfl⟩
  have hgap : load laneTech (laneRules 3) = .error (.load (.levelGap 1) [.grid, .level 3]) := rfl
  refine ⟨hvalid.1 ⟨g, hg⟩, ⟨g, hg, (hserves g hg).2⟩, fun h => ?_, hrefused _ hgap⟩
  obtain ⟨g', hg'⟩ := hvalid'.2 h
  rw [hgap] at hg'
  cases hg'

end RoutingGrid

end MaskLayout
