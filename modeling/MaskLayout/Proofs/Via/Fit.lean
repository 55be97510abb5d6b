import MaskLayout.Proofs.Success
import MaskLayout.Via.Solve
import Mathlib.Tactic.Ring

/-!
# Arrays of cuts that fit

When an array of cuts fits a box. A smaller array fits wherever a larger one does, so within one spacing regime
fewer rows fit where more do, and the spacing bounds the numbers of cuts from above.
-/

namespace MaskLayout

namespace EnclosureBucket

/-- The enclosures that hold for a box on a layer. -/
def applying (buckets : List EnclosureBucket) (dim : Point) (dir : Dir) : Option EnclosureBucket :=
  (buckets.find? fun b => dim.coord dir.other ≤ b.maxWidth).or buckets.getLast?

/-- Whether a box has room for an enclosure around an array: across the tracks always within the box, and along them
too unless the enclosure may reach beyond. -/
def HasRoom (dim arr : Point) (dir : Dir) (extend : Bool) (o : Int × Int) : Prop :=
  2 * o.2 ≤ dim.coord dir.other - arr.coord dir.other ∧ (extend = true ∨ 2 * o.1 ≤ dim.coord dir - arr.coord dir)

theorem isSome_enclose?_iff {buckets : List EnclosureBucket} {dim arr : Point} {dir : Dir} {extend : Bool} :
    (enclose? buckets dim arr dir extend).isSome ↔
      ∃ b, applying buckets dim dir = some b ∧ ∃ o ∈ b.options, HasRoom dim arr dir extend o := by
  have hunfold : (enclose? buckets dim arr dir extend).isSome ↔
      ∃ b, applying buckets dim dir = some b ∧
        ((b.options.filter fun o =>
          decide (2 * o.2 ≤ dim.coord dir.other - arr.coord dir.other) &&
            (extend || decide (2 * o.1 ≤ dim.coord dir - arr.coord dir))).map (·.1)).min?.isSome := by
    simp [enclose?, applying, Option.isSome_bind, Option.any_eq_true]
  rw [hunfold]
  refine exists_congr fun b => and_congr_right fun _ => ?_
  rw [List.isSome_min?_iff, ne_eq, List.map_eq_nil_iff, List.filter_eq_nil_iff]
  simp only [HasRoom, Bool.and_eq_true, Bool.or_eq_true, decide_eq_true_eq, not_forall, exists_prop, not_not]

/-- A smaller array leaves more room for the enclosure. -/
theorem isSome_enclose?_of_le {buckets : List EnclosureBucket} {dim arr arr' : Point} {dir : Dir}
    {extend : Bool} (hx : arr'.x ≤ arr.x) (hy : arr'.y ≤ arr.y)
    (h : (enclose? buckets dim arr dir extend).isSome) :
    (enclose? buckets dim arr' dir extend).isSome := by
  have hcoord (d : Dir) : arr'.coord d ≤ arr.coord d := by
    cases d
    · exact hx
    · exact hy
  obtain ⟨b, hb, o, ho, hacross, halong⟩ := isSome_enclose?_iff.1 h
  have hmore := hcoord dir
  have hmoreAcross := hcoord dir.other
  refine isSome_enclose?_iff.2 ⟨b, hb, o, ho, by omega, halong.imp_right fun h => ?_⟩
  omega

end EnclosureBucket

namespace ViaRule

/-- Cuts have a size, and spacings are not negative. -/
structure Valid (rule : ViaRule) : Prop where
  cut_x : 0 < rule.cut.x
  cut_y : 0 < rule.cut.y
  spacing : 0 ≤ rule.spacing.x ∧ 0 ≤ rule.spacing.y
  spacing2 : ∀ sp, rule.spacing2 = some sp → 0 ≤ sp.x ∧ 0 ≤ sp.y

theorem valid_of_load {r : Reporter RuleFault LayoutError} {rules : ViaRules} {rule : ViaRule}
    (h : load r rules = .ok rule) : rule.Valid := by
  simp only [load, Success.bind_iff, Success.pure_iff, Reporter.ensure_iff, Success.forM_iff] at h
  obtain ⟨_, hcut, _, hspacing, bottom, -, top, -, rfl⟩ := h
  simp only [Bool.and_eq_true, decide_eq_true_eq] at hcut hspacing
  exact {
    cut_x := hcut.1
    cut_y := hcut.2
    spacing := hspacing _ List.mem_cons_self
    spacing2 := fun sp hsp => hspacing sp (List.mem_cons_of_mem _ (Option.mem_toList.2 hsp)) }

/-- The size of an array of `nx` by `ny` cuts. -/
def arraySize (rule : ViaRule) (nx ny : Int) : Point :=
  ⟨nx * rule.cut.x + (nx - 1) * (rule.spacingOf nx ny).x,
    ny * rule.cut.y + (ny - 1) * (rule.spacingOf nx ny).y⟩

/-- Whether an array fits a box, together with its enclosures. -/
def Fits (rule : ViaRule) (req : ViaRequest) (nx ny : Int) : Prop :=
  (rule.fit? req nx ny).isSome

variable {rule : ViaRule} {req : ViaRequest} {nx ny : Int}

theorem fits_iff :
    rule.Fits req nx ny ↔
      (rule.arraySize nx ny).x ≤ req.dim.x ∧ (rule.arraySize nx ny).y ≤ req.dim.y ∧
        (EnclosureBucket.enclose? rule.bottom req.dim (rule.arraySize nx ny) req.bottomDir req.extend).isSome ∧
        (EnclosureBucket.enclose? rule.top req.dim (rule.arraySize nx ny) req.topDir req.extend).isSome := by
  simp only [Fits, fit?, arraySize]
  split
  · rename_i hlarge
    simp only [Option.isSome_none, Bool.false_eq_true, false_iff]
    omega
  · rename_i hsmall
    rw [not_or] at hsmall
    simp only [Int.not_lt.1 hsmall.1, Int.not_lt.1 hsmall.2, true_and]
    simp [Option.isSome_bind, Option.any_eq_true, Option.isSome_iff_exists]

theorem not_fits_iff : ¬ rule.Fits req nx ny ↔ rule.fit? req nx ny = none := by
  simp [Fits]

theorem Fits.of_fit? {p : ViaParams} (h : rule.fit? req nx ny = some p) : rule.Fits req nx ny := by
  simp [Fits, h]

/-- A fit has the numbers of cuts it was asked for. -/
theorem counts_of_fit? {p : ViaParams} (h : rule.fit? req nx ny = some p) : p.nx = nx ∧ p.ny = ny := by
  simp only [fit?] at h
  split at h
  · cases h
  · simp only [bind, Option.bind_eq_some_iff, pure, Option.some.injEq] at h
    obtain ⟨_, _, _, _, rfl⟩ := h
    exact ⟨rfl, rfl⟩

theorem Fits.of_arraySize_le {mx my : Int} (h : rule.Fits req nx ny)
    (hx : (rule.arraySize mx my).x ≤ (rule.arraySize nx ny).x)
    (hy : (rule.arraySize mx my).y ≤ (rule.arraySize nx ny).y) : rule.Fits req mx my := by
  obtain ⟨hdimX, hdimY, hbottom, htop⟩ := fits_iff.1 h
  exact fits_iff.2 ⟨hx.trans hdimX, hy.trans hdimY,
    EnclosureBucket.isSome_enclose?_of_le hx hy hbottom, EnclosureBucket.isSome_enclose?_of_le hx hy htop⟩

theorem Valid.spacingOf_nonneg (hv : rule.Valid) (nx ny : Int) :
    0 ≤ (rule.spacingOf nx ny).x ∧ 0 ≤ (rule.spacingOf nx ny).y := by
  simp only [spacingOf]
  split
  · rename_i sp hsp
    split
    · exact hv.spacing2 sp hsp
    · exact hv.spacing
  · exact hv.spacing

/-- Within a spacing regime, fewer rows fit where more do. -/
theorem Fits.fewer_rows (hv : rule.Valid) {my : Int} (h : rule.Fits req nx ny) (hle : my ≤ ny)
    (hregime : rule.spacingOf nx my = rule.spacingOf nx ny) : rule.Fits req nx my := by
  have hsp := (hv.spacingOf_nonneg nx ny).2
  refine h.of_arraySize_le ?_ ?_
  · simp only [arraySize, hregime, le_refl]
  · simp only [arraySize, hregime]
    have hcuts : my * rule.cut.y ≤ ny * rule.cut.y := Int.mul_le_mul_of_nonneg_right hle hv.cut_y.le
    have hgaps : (my - 1) * (rule.spacingOf nx ny).y ≤ (ny - 1) * (rule.spacingOf nx ny).y :=
      Int.mul_le_mul_of_nonneg_right (by omega) hsp
    omega

/-- Every number of rows from two on has the same spacing. -/
theorem spacingOf_rows {my : Int} (hny : 2 ≤ ny) (hmy : 2 ≤ my) :
    rule.spacingOf nx my = rule.spacingOf nx ny := by
  have h1 : 1 < ny := by omega
  have h2 : 1 < my := by omega
  simp only [spacingOf, gt_iff_lt, h1, h2]

/-- Whether a number of rows of `nx` columns has the spacing of all larger ones: with a single column, or with a single
spacing, every number of rows has it, and else all but a single row. -/
def Regime (rule : ViaRule) (nx my : Int) : Prop := 2 ≤ my ∨ nx = 1 ∨ rule.spacing2 = none

theorem Regime.spacingOf_eq {my : Int} (h : rule.Regime nx my) (hle : my ≤ ny) :
    rule.spacingOf nx my = rule.spacingOf nx ny := by
  rcases h with hrows | rfl | hone
  · exact spacingOf_rows (by omega) hrows
  · simp [spacingOf]
  · simp [spacingOf, hone]

/-- The smaller of the spacings, either way. -/
def leastSpacing (rule : ViaRule) : Point :=
  match rule.spacing2 with
  | some sp => ⟨min rule.spacing.x sp.x, min rule.spacing.y sp.y⟩
  | none => rule.spacing

theorem leastSpacing_le (nx ny : Int) :
    rule.leastSpacing.x ≤ (rule.spacingOf nx ny).x ∧ rule.leastSpacing.y ≤ (rule.spacingOf nx ny).y := by
  simp only [leastSpacing, spacingOf]
  cases rule.spacing2 with
  | none => exact ⟨le_refl _, le_refl _⟩
  | some sp =>
      simp only
      split
      · exact ⟨Int.min_le_right _ _, Int.min_le_right _ _⟩
      · exact ⟨Int.min_le_left _ _, Int.min_le_left _ _⟩

theorem Valid.leastSpacing_nonneg (hv : rule.Valid) :
    0 ≤ rule.leastSpacing.x ∧ 0 ≤ rule.leastSpacing.y := by
  simp only [leastSpacing]
  split
  · rename_i sp hsp
    have h1 := hv.spacing
    have h2 := hv.spacing2 sp hsp
    exact ⟨Int.le_min.2 ⟨h1.1, h2.1⟩, Int.le_min.2 ⟨h1.2, h2.2⟩⟩
  · exact hv.spacing

/-- The most cuts of a length are the last number of cuts that fits it. -/
theorem le_maxCuts_iff {n cut sp dim : Int} (hn : 1 ≤ n) (hcut : 0 < cut) (hsp : 0 ≤ sp) :
    n ≤ maxCuts dim cut sp ↔ n * cut + (n - 1) * sp ≤ dim := by
  have hone : 1 * cut ≤ n * cut := Int.mul_le_mul_of_nonneg_right hn hcut.le
  have hgap : 0 ≤ (n - 1) * sp := Int.mul_nonneg (by omega) hsp
  have hsum : n * (cut + sp) = n * cut + (n - 1) * sp + sp := by ring
  unfold maxCuts
  split
  · omega
  · rw [Int.le_ediv_iff_mul_le (by omega), hsum]
    omega

theorem maxCuts_nonneg {cut sp : Int} (hcut : 0 < cut) (hsp : 0 ≤ sp) (dim : Int) : 0 ≤ maxCuts dim cut sp := by
  unfold maxCuts
  split
  · exact le_refl 0
  · exact Int.ediv_nonneg (by omega) (by omega)

/-- Cuts that fit a length at some spacing are no more than those that fit it at a smaller one. -/
theorem le_maxCuts {n cut sp least dim : Int} (hn : 1 ≤ n) (hcut : 0 < cut) (hleast : 0 ≤ least)
    (hsp : least ≤ sp) (hfits : n * cut + (n - 1) * sp ≤ dim) : n ≤ maxCuts dim cut least := by
  have hgaps : (n - 1) * least ≤ (n - 1) * sp := Int.mul_le_mul_of_nonneg_left hsp (by omega)
  exact (le_maxCuts_iff hn hcut hleast).2 (by omega)

/-- The most columns that are worth a try. -/
def mostColumns (rule : ViaRule) (req : ViaRequest) : Int :=
  maxCuts req.dim.x rule.cut.x rule.leastSpacing.x

/-- The most rows that are worth a try. -/
def mostRows (rule : ViaRule) (req : ViaRequest) : Int :=
  maxCuts req.dim.y rule.cut.y rule.leastSpacing.y

theorem Fits.columns_le (hv : rule.Valid) (h : rule.Fits req nx ny) (hnx : 1 ≤ nx) :
    nx ≤ rule.mostColumns req :=
  le_maxCuts hnx hv.cut_x hv.leastSpacing_nonneg.1 (leastSpacing_le nx ny).1 (fits_iff.1 h).1

theorem Fits.rows_le (hv : rule.Valid) (h : rule.Fits req nx ny) (hny : 1 ≤ ny) :
    ny ≤ rule.mostRows req :=
  le_maxCuts hny hv.cut_y hv.leastSpacing_nonneg.2 (leastSpacing_le nx ny).2 (fits_iff.1 h).2.1

end ViaRule

end MaskLayout
