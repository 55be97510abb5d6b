import MaskLayout.Proofs.Grid.Alignment

/-!
# Dividing a grid anew

Dividing the levels of a grid anew. A division depends on the tracks of the levels only and not on the divisions before
it, so a grid that was divided any number of times is the one that is loaded with its last division. Its block pitches
are the periods of the levels of one direction at or below a level in its range.
-/

namespace MaskLayout

namespace TrackLevel

/-- Every level of a range is aligned to the levels up to itself. -/
theorem getElem?_alignRange (a : Alignment) (levels : List TrackLevel) (i : Nat) :
    (alignRange a levels)[i]? = levels[i]?.map fun t =>
      { t with blockPitch := some (((levels.take (i + 1)).foldl Alignment.refine a).of t.dir) } := by
  induction levels generalizing a i with
  | nil => rfl
  | cons t rest ih =>
      cases i with
      | zero => rfl
      | succ i => rw [alignRange, List.getElem?_cons_succ, List.getElem?_cons_succ, ih, List.take_succ_cons,
          List.foldl_cons]

theorem length_alignRange (a : Alignment) (levels : List TrackLevel) :
    (alignRange a levels).length = levels.length := by
  induction levels generalizing a with
  | nil => rfl
  | cons t rest ih => rw [alignRange, List.length_cons, List.length_cons, ih]

/-- A level in the range from `low` below `high` is aligned to the levels from `low` up to itself. -/
theorem getElem?_alignRange_part (levels : List TrackLevel) {low high i : Nat} (hlow : low ≤ i) (hhigh : i < high) :
    (alignRange .none ((levels.take high).drop low))[i - low]? = levels[i]?.map fun t =>
      { t with blockPitch := some ((Alignment.upTo ((levels.take (i + 1)).drop low)).of t.dir) } := by
  have hprefix : ((levels.take high).drop low).take (i - low + 1) = (levels.take (i + 1)).drop low := by
    rw [List.take_drop, List.take_take]
    congr 2
    omega
  have hentry : ((levels.take high).drop low)[i - low]? = levels[i]? := by
    rw [List.getElem?_drop, Nat.add_sub_cancel' hlow, List.getElem?_take_of_lt hhigh]
  rw [getElem?_alignRange, hprefix, hentry]
  rfl

/-- The alignments that a division gives to levels, the first `ignored` of which are ignored and the first `priv` of
which are not public. -/
theorem getElem?_divided (levels : List TrackLevel) {ignored priv : Nat} (hle : ignored ≤ priv)
    (hpriv : priv ≤ levels.length) (i : Nat) :
    ((levels.take ignored).map unaligned ++ alignRange .none ((levels.take priv).drop ignored) ++
        alignRange .none (levels.drop priv))[i]? =
      levels[i]?.map fun t => { t with
        blockPitch := if i < ignored then none else
          some ((Alignment.upTo ((levels.take (i + 1)).drop (if i < priv then ignored else priv))).of t.dir) } := by
  have hignored : ((levels.take ignored).map unaligned).length = ignored := by
    rw [List.length_map, List.length_take, Nat.min_eq_left (hle.trans hpriv)]
  have hprivate : ((levels.take ignored).map unaligned ++
      alignRange .none ((levels.take priv).drop ignored)).length = priv := by
    rw [List.length_append, hignored, length_alignRange, List.length_drop, List.length_take, Nat.min_eq_left hpriv,
      Nat.add_sub_cancel' hle]
  by_cases hi : i < priv
  · rw [List.getElem?_append_left (by rwa [hprivate])]
    simp only [if_pos hi]
    by_cases hlow : i < ignored
    · rw [List.getElem?_append_left (by rwa [hignored]), List.getElem?_map, List.getElem?_take_of_lt hlow]
      simp only [if_pos hlow]
      rfl
    · rw [List.getElem?_append_right (by omega), hignored, getElem?_alignRange_part levels (by omega) hi]
      simp only [if_neg hlow]
  · have hlow : ¬ i < ignored := by omega
    rw [List.getElem?_append_right (by omega), hprivate]
    simp only [if_neg hi, if_neg hlow]
    -- The public levels are those below the end.
    by_cases hend : i < levels.length
    · rw [← getElem?_alignRange_part levels (by omega) hend, List.take_length]
    · have hlength : (alignRange .none (levels.drop priv)).length ≤ i - priv := by
        rw [length_alignRange, List.length_drop]
        omega
      rw [List.getElem?_eq_none hlength, List.getElem?_eq_none (by omega)]
      rfl

/-- An earlier alignment does not matter for a new one. -/
theorem alignRange_map_unaligned (a : Alignment) (levels : List TrackLevel) :
    alignRange a (levels.map unaligned) = alignRange a levels := by
  induction levels generalizing a with
  | nil => rfl
  | cons t rest ih =>
      have hrefine : a.refine t.unaligned = a.refine t := rfl
      rw [List.map_cons, alignRange, alignRange, ih, hrefine]
      rfl

end TrackLevel

namespace RoutingGrid

variable {g g' : RoutingGrid} {topIgnored topPrivate level : Int} {t : TrackLevel}

theorem trackLevel_iff : g.trackLevel level = .ok t ↔ g.bot ≤ level ∧ g.levels[(level - g.bot).toNat]? = some t := by
  rw [trackLevel]
  by_cases hlow : level < g.bot
  · rw [if_pos hlow]
    apply iff_of_false
    · rintro ⟨⟩
    · omega
  · rw [if_neg hlow, and_iff_right (by omega)]
    cases g.levels[(level - g.bot).toNat]? <;> simp

/-- The levels of a grid before any of them is ignored, private or aligned. -/
def undivided (g : RoutingGrid) : RoutingGrid :=
  ⟨g.tech, g.bot, g.bot - 1, g.bot - 1, g.levels.map TrackLevel.unaligned⟩

/-- A division does not depend on the one before it. -/
theorem withPartition_undivided : g.undivided.withPartition topIgnored topPrivate = g.withPartition topIgnored topPrivate := by
  simp only [withPartition, undivided, top, List.length_map, ← List.map_take, ← List.map_drop,
    TrackLevel.alignRange_map_unaligned, List.map_map]
  rfl

theorem withPartition_congr (h : g.undivided = g'.undivided) :
    g.withPartition topIgnored topPrivate = g'.withPartition topIgnored topPrivate := by
  rw [← withPartition_undivided, h, withPartition_undivided]

theorem undivided_withPartition (h : g.withPartition topIgnored topPrivate = .ok g') : g'.undivided = g.undivided := by
  obtain ⟨htech, hbot, hlevels⟩ := map_unaligned_withPartition h
  rw [undivided, undivided, htech, hbot, hlevels]

/-- Grids with the same levels before their division have their levels in the same places. -/
theorem top_congr (h : g.undivided = g'.undivided) : g.bot = g'.bot ∧ g.top = g'.top := by
  have hbot : g.bot = g'.bot := (congrArg RoutingGrid.bot h :)
  have hlength := congrArg (fun g => g.levels.length) h
  simp only [undivided, List.length_map] at hlength
  exact ⟨hbot, by rw [top, top, hbot, hlength]⟩

/-- The levels of a grid are divided as it says: to divide them there again changes nothing. -/
def Settled (g : RoutingGrid) : Prop := g.withPartition g.topIgnored g.topPrivate = .ok g

theorem of_withPartition (h : g.withPartition topIgnored topPrivate = .ok g') :
    (g'.topIgnored = topIgnored ∧ g'.topPrivate = topPrivate) ∧ g'.Settled := by
  have htops : g'.topIgnored = topIgnored ∧ g'.topPrivate = topPrivate := by
    rw [withPartition] at h
    split at h
    · cases h
      exact ⟨rfl, rfl⟩
    · cases h
  refine ⟨htops, ?_⟩
  rw [Settled, htops.1, htops.2, withPartition_congr (undivided_withPartition h)]
  exact h

/-- A grid that is divided several times in turn. -/
def divide (g : RoutingGrid) (divisions : List (Int × Int)) : Except LayoutError RoutingGrid :=
  divisions.foldlM (fun g d => g.withPartition d.1 d.2) g

variable {divisions : List (Int × Int)}

theorem exists_divide_iff : (∃ g', g.divide divisions = .ok g') ↔
    ∀ d ∈ divisions, g.bot - 1 ≤ d.1 ∧ d.1 ≤ d.2 ∧ d.2 ≤ g.top := by
  induction divisions generalizing g with
  | nil => exact iff_of_true ⟨g, rfl⟩ fun d hd => (List.not_mem_nil hd).elim
  | cons d rest ih =>
      rw [divide, List.foldlM_cons, List.forall_mem_cons, ← withPartition_iff]
      simp only [Success.bind_iff]
      constructor
      · rintro ⟨g', g₁, hfirst, hrest⟩
        have hrest' := ih.1 ⟨g', hrest⟩
        obtain ⟨hbot, htop⟩ := top_congr (undivided_withPartition hfirst)
        rw [hbot, htop] at hrest'
        exact ⟨⟨g₁, hfirst⟩, hrest'⟩
      · rintro ⟨⟨g₁, hfirst⟩, hrest⟩
        obtain ⟨hbot, htop⟩ := top_congr (undivided_withPartition hfirst)
        rw [← hbot, ← htop] at hrest
        obtain ⟨g', hg'⟩ := ih.2 hrest
        exact ⟨g', g₁, hfirst, hg'⟩

/-- The last division decides, or the grid's own if there is none. -/
theorem Settled.withPartition_last (hg : g.Settled) (h : g.divide divisions = .ok g') :
    g.withPartition (divisions.getLast?.getD (g.topIgnored, g.topPrivate)).1
      (divisions.getLast?.getD (g.topIgnored, g.topPrivate)).2 = .ok g' := by
  induction divisions generalizing g with
  | nil =>
      cases h
      exact hg
  | cons d rest ih =>
      rw [divide, List.foldlM_cons, Success.bind_iff] at h
      obtain ⟨g₁, hfirst, hrest⟩ := h
      -- The rest starts from a settled grid, and what it is divided into does not depend on the first division.
      obtain ⟨⟨hignored, hprivate⟩, hg₁⟩ := of_withPartition hfirst
      have hlast := ih hg₁ hrest
      rw [withPartition_congr (undivided_withPartition hfirst), hignored, hprivate] at hlast
      rw [List.getLast?_cons, Option.getD_some]
      exact hlast

/-- The levels that a level is aligned to: those of its direction, at or below it in its range. -/
structure Supports (g : RoutingGrid) (level : Int) (t : TrackLevel) (other : Int) (u : TrackLevel) : Prop where
  tracks : g.trackLevel other = .ok u
  dir : u.dir = t.dir
  below : other ≤ level
  used : g.topIgnored < other
  range : other ≤ g.topPrivate ↔ level ≤ g.topPrivate

/-- Whether the pitches of a level are the periods of the levels that it is aligned to. -/
structure AlignsTo (g : RoutingGrid) (level : Int) (t : TrackLevel) (p : BlockPitch) : Prop where
  positive : 0 < p.half
  double : p.full = 2 * p.half
  half : ∀ shift, p.half ∣ shift ↔ ∀ other u, g.Supports level t other u → u.KeepsHalfTracks shift
  full : ∀ shift, p.full ∣ shift ↔ ∀ other u, g.Supports level t other u → u.KeepsTracks shift

/-- Whether the levels of a grid are aligned as its division says. -/
structure Aligned (g : RoutingGrid) : Prop where
  ignored : ∀ level t, g.trackLevel level = .ok t → level ≤ g.topIgnored → t.blockPitch = none
  used : ∀ level t, g.trackLevel level = .ok t → g.topIgnored < level →
    ∃ p, t.blockPitch = some p ∧ g.AlignsTo level t p

/-- The number of the lowest level in the range of a used level. -/
def rangeBot (g : RoutingGrid) (level : Int) : Int := (if level ≤ g.topPrivate then g.topIgnored else g.topPrivate) + 1

/-- The levels in the range of a used level up to it. -/
def rangeUpTo (g : RoutingGrid) (level : Int) : List TrackLevel :=
  (g.levels.take ((level - g.bot).toNat + 1)).drop (g.rangeBot level - g.bot).toNat

theorem Settled.ranges (hg : g.Settled) :
    g.bot - 1 ≤ g.topIgnored ∧ g.topIgnored ≤ g.topPrivate ∧ g.topPrivate ≤ g.top := withPartition_iff.1 ⟨g, hg⟩

theorem Settled.levels_eq (hg : g.Settled) :
    (g.levels.take (g.topIgnored + 1 - g.bot).toNat).map TrackLevel.unaligned ++
        TrackLevel.alignRange .none
          ((g.levels.take (g.topPrivate + 1 - g.bot).toNat).drop (g.topIgnored + 1 - g.bot).toNat) ++
        TrackLevel.alignRange .none (g.levels.drop (g.topPrivate + 1 - g.bot).toNat) = g.levels := by
  have hranges := hg.ranges
  rw [Settled, withPartition, if_pos hranges, Except.ok.injEq] at hg
  exact congrArg RoutingGrid.levels hg

/-- The alignment that a division gives to a level. -/
theorem Settled.blockPitch_eq (hg : g.Settled) (ht : g.trackLevel level = .ok t) :
    t.blockPitch = if level ≤ g.topIgnored then none
      else some ((Alignment.upTo (g.rangeUpTo level)).of t.dir) := by
  obtain ⟨hbot, hentry⟩ := trackLevel_iff.1 ht
  obtain ⟨-, hle, htop⟩ := hg.ranges
  rw [top] at htop
  have hends : (g.topIgnored + 1 - g.bot).toNat ≤ (g.topPrivate + 1 - g.bot).toNat := by omega
  have hentry' := TrackLevel.getElem?_divided g.levels hends (by omega) (level - g.bot).toNat
  have hignored : (level - g.bot).toNat < (g.topIgnored + 1 - g.bot).toNat ↔ level ≤ g.topIgnored := by omega
  have hprivate : (level - g.bot).toNat < (g.topPrivate + 1 - g.bot).toNat ↔ level ≤ g.topPrivate := by omega
  rw [hg.levels_eq, hentry, Option.map_some, Option.some.injEq] at hentry'
  simp only [hignored, hprivate] at hentry'
  have hrange : (if level ≤ g.topPrivate then (g.topIgnored + 1 - g.bot).toNat else (g.topPrivate + 1 - g.bot).toNat) =
      (g.rangeBot level - g.bot).toNat := by
    rw [rangeBot]
    split <;> rfl
  rw [hrange] at hentry'
  exact congrArg TrackLevel.blockPitch hentry'

theorem mem_rangeUpTo_iff (hbot : g.bot ≤ level) (hrange : g.bot ≤ g.rangeBot level) {u : TrackLevel} :
    u ∈ g.rangeUpTo level ↔ ∃ other, g.trackLevel other = .ok u ∧ g.rangeBot level ≤ other ∧ other ≤ level := by
  rw [rangeUpTo, List.mem_iff_getElem?]
  simp only [List.getElem?_drop, List.getElem?_take, trackLevel_iff]
  constructor
  · rintro ⟨i, hi⟩
    split at hi
    · refine ⟨g.rangeBot level + i, ⟨by omega, ?_⟩, by omega, by omega⟩
      rw [← hi]
      congr 1
      omega
    · cases hi
  · rintro ⟨other, ⟨-, hother⟩, hlow, hhigh⟩
    refine ⟨(other - g.rangeBot level).toNat, ?_⟩
    rw [if_pos (by omega), ← hother]
    congr 1
    omega

/-- The levels in the range of a level up to it are those that it is aligned to, as far as they have its direction. -/
theorem Settled.exists_supports_iff (hg : g.Settled) (hbot : g.bot ≤ level) {u : TrackLevel} :
    (∃ other, g.Supports level t other u) ↔ u ∈ g.rangeUpTo level ∧ u.dir = t.dir := by
  obtain ⟨hlow, hle, -⟩ := hg.ranges
  have hrange : g.bot ≤ g.rangeBot level := by
    rw [rangeBot]
    split <;> omega
  rw [mem_rangeUpTo_iff hbot hrange, rangeBot]
  constructor
  · rintro ⟨other, htracks, hdir, hother, hother', hsame⟩
    refine ⟨⟨other, htracks, ?_, hother⟩, hdir⟩
    split <;> omega
  · rintro ⟨⟨other, htracks, hother, hlevel⟩, hdir⟩
    refine ⟨other, htracks, hdir, hlevel, ?_, ?_⟩
    · split at hother <;> omega
    · split at hother <;> omega

theorem Settled.forall_supports_iff (hg : g.Settled) (hbot : g.bot ≤ level) {q : TrackLevel → Prop} :
    (∀ other u, g.Supports level t other u → q u) ↔ ∀ u ∈ g.rangeUpTo level, u.dir = t.dir → q u := by
  constructor
  · intro h u hmem hdir
    obtain ⟨other, hu⟩ := (hg.exists_supports_iff hbot).2 ⟨hmem, hdir⟩
    exact h other u hu
  · intro h other u hu
    obtain ⟨hmem, hdir⟩ := (hg.exists_supports_iff hbot).1 ⟨other, hu⟩
    exact h u hmem hdir

/-- The pitches of a level are the periods of the levels that it is aligned to, as those have a whole half-pitch. -/
theorem Settled.aligned (hg : g.Settled) (husable : ∀ t ∈ g.levels, t.Usable g.tech.value) : g.Aligned := by
  constructor
  · intro level t ht hignored
    rw [hg.blockPitch_eq ht, if_pos hignored]
  · intro level t ht hused
    have hbot := (trackLevel_iff.1 ht).1
    have hrange (u : TrackLevel) (hu : u ∈ g.rangeUpTo level) : u.Usable g.tech.value :=
      husable u (List.mem_of_mem_take (List.mem_of_mem_drop hu))
    have hpos (u : TrackLevel) (hu : u ∈ g.rangeUpTo level) := (hrange u hu).half
    -- The range is not empty, as the level supports itself: else its pitches would be one and not in the ratio of two.
    have hself : t ∈ g.rangeUpTo level :=
      ((hg.exists_supports_iff hbot).1 ⟨level, ht, rfl, Int.le_refl level, hused, Iff.rfl⟩).1
    refine ⟨(Alignment.upTo (g.rangeUpTo level)).of t.dir, ?_, ?_⟩
    · rw [hg.blockPitch_eq ht, if_neg (by omega)]
    · constructor
      · exact (Alignment.upTo_pos hpos).1
      · exact Alignment.full_upTo_eq (fun u hu => (hrange u hu).even) hpos hself
      · intro shift
        rw [Alignment.half_upTo_dvd_iff, hg.forall_supports_iff hbot]
        exact forall₃_congr fun u hu _ => (hrange u hu).keepsHalfTracks_iff.symm
      · intro shift
        rw [Alignment.full_upTo_dvd_iff, hg.forall_supports_iff hbot]
        exact forall₃_congr fun u hu _ => (hrange u hu).keepsTracks_iff.symm

variable {tech : Shared Tech} {rules : GridRules}

/-- Rules with another division stand for the grid that is divided anew. -/
theorem load_divided (hload : load tech rules = .ok g) :
    load tech { rules with topIgnored := some topIgnored, topPrivate := some topPrivate } =
      g.withPartition topIgnored topPrivate := by
  obtain ⟨⟨bot, levels⟩, hparts, hg⟩ := Success.bind_iff.1 hload
  replace hparts : (loadAll tech.value rules).run' [.grid] = .ok (bot, levels) := hparts
  have hload' : load tech { rules with topIgnored := some topIgnored, topPrivate := some topPrivate } =
      ((loadAll tech.value rules).run' [.grid] >>= fun parts =>
        RoutingGrid.withPartition ⟨tech, parts.1, parts.1 - 1, parts.1 - 1, parts.2⟩ topIgnored topPrivate) := rfl
  rw [hload', hparts, withPartition_congr (undivided_withPartition hg)]
  rfl

/-- A grid can be divided anew whenever the boundaries are in order, and any number of times. The grid that comes of it
is the one that is loaded with its last division: its ignored levels have no block pitch, and the pitches of every other
level are the periods of the levels of its direction at or below it in its range. -/
theorem divide_aligns (hload : load tech rules = .ok g) (divisions : List (Int × Int)) :
    ((∃ g', g.divide divisions = .ok g') ↔ ∀ d ∈ divisions, g.bot - 1 ≤ d.1 ∧ d.1 ≤ d.2 ∧ d.2 ≤ g.top) ∧
    ∀ g', g.divide divisions = .ok g' →
      (g'.topIgnored, g'.topPrivate) = divisions.getLast?.getD (g.topIgnored, g.topPrivate) ∧
      load tech { rules with topIgnored := some g'.topIgnored, topPrivate := some g'.topPrivate } = .ok g' ∧
      g'.Aligned := by
  obtain ⟨⟨bot, levels⟩, -, hg⟩ := Success.bind_iff.1 hload
  refine ⟨exists_divide_iff, fun g' hdivide => ?_⟩
  have hlast := (of_withPartition hg).2.withPartition_last hdivide
  obtain ⟨⟨hignored, hprivate⟩, hsettled⟩ := of_withPartition hlast
  have hfresh : load tech { rules with topIgnored := some g'.topIgnored, topPrivate := some g'.topPrivate } = .ok g' := by
    rw [load_divided hload, hignored, hprivate]
    exact hlast
  refine ⟨?_, hfresh, hsettled.aligned (Loaded.load hfresh).usable⟩
  rw [hignored, hprivate]

/-- The rules of four levels of either direction in turn. -/
def stackRules : GridRules where
  levels := .ofList [(1, ⟨.horiz, 40, 40, none, [("M1", "drawing")], .empty⟩),
    (2, ⟨.vert, 50, 50, none, [("M2", "drawing")], .empty⟩), (3, ⟨.horiz, 60, 60, none, [("M1", "drawing")], .empty⟩),
    (4, ⟨.vert, 80, 80, none, [("M2", "drawing")], .empty⟩)]
  topIgnored := none
  topPrivate := none

theorem divide_aligns_stack : ∃ g g', load laneTech stackRules = .ok g ∧ g.divide [(1, 4), (0, 3)] = .ok g' ∧
    g'.levels.map TrackLevel.blockPitch = [some ⟨80, 40⟩, some ⟨100, 50⟩, some ⟨240, 120⟩, some ⟨160, 80⟩] ∧
    load laneTech { stackRules with topIgnored := some 0, topPrivate := some 3 } = .ok g' ∧ g'.Aligned := by
  obtain ⟨g, hg⟩ : ∃ g, load laneTech stackRules = .ok g := ⟨_, rfl⟩
  obtain ⟨hdivides, hdivided⟩ := divide_aligns hg [(1, 4), (0, 3)]
  cases hg
  obtain ⟨g', hg'⟩ := hdivides.2 (by decide)
  obtain ⟨-, hfresh, haligned⟩ := hdivided g' hg'
  cases hg'
  exact ⟨_, _, rfl, rfl, rfl, hfresh, haligned⟩

end RoutingGrid

end MaskLayout
