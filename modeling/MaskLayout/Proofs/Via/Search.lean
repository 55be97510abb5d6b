import MaskLayout.Proofs.Via.Fit

/-!
# The search for a via

The search for the via with the most cuts, of one rule. Halving finds the last number of rows that fits a number of
columns. Over the columns, from many to few, the best via so far is the best of all vias with more columns.
-/

namespace MaskLayout

namespace ViaRule

variable {α : Type}

/-- The last success of a test from `lo` to `hi`, or none if it has no success there. -/
def IsLast (test : Int → Option α) (lo hi : Int) : Option α → Prop
  | some a => ∃ n, lo ≤ n ∧ n ≤ hi ∧ test n = some a ∧ ∀ m, n < m → m ≤ hi → test m = none
  | none => ∀ m, lo ≤ m → m ≤ hi → test m = none

/-- Halving finds the last success, if the test fails from some point on. -/
theorem isLast_bisect {test : Int → Option α} {least : Int}
    (hdown : ∀ m n, least ≤ m → m ≤ n → test m = none → test n = none) (best : α) (lo hi : Int)
    (hlo : least ≤ lo) (hhi : lo ≤ hi + 1) (hbest : test (lo - 1) = some best) :
    IsLast test (lo - 1) hi (some (bisect test best lo hi)) := by
  induction best, lo, hi using bisect.induct test with
  | case1 best lo hi hle mid a hmid ih =>
      obtain ⟨n, hn, hnhi, hsome, hafter⟩ := ih (by omega) (by omega) (by simpa using hmid)
      rw [bisect, if_pos hle]
      simp only [mid] at hmid hn
      simp only [hmid]
      exact ⟨n, by omega, hnhi, hsome, hafter⟩
  | case2 best lo hi hle mid hmid ih =>
      obtain ⟨n, hn, hnhi, hsome, hafter⟩ := ih hlo (by omega) hbest
      rw [bisect, if_pos hle]
      simp only [mid] at hmid hnhi hafter hsome
      simp only [hmid]
      refine ⟨n, hn, by omega, hsome, fun m hm hmhi => ?_⟩
      by_cases hbefore : m ≤ lo + (hi - lo) / 2 - 1
      · exact hafter m hm hbefore
      · exact hdown _ m (by omega) (by omega) hmid
  | case3 best lo hi hle =>
      rw [bisect, if_neg hle]
      exact ⟨lo - 1, le_refl _, by omega, hbest, fun m hm hmhi => by omega⟩

variable {rule : ViaRule} {req : ViaRequest}

theorem isLast_largestFit? (hv : rule.Valid) (req : ViaRequest) (nx hi : Int) {lo : Int} (hlo : 2 ≤ lo) :
    IsLast (rule.fit? req nx) lo hi (rule.largestFit? req nx lo hi) := by
  have hdown : ∀ m n, lo ≤ m → m ≤ n → rule.fit? req nx m = none → rule.fit? req nx n = none := by
    intro m n hm hmn hnone
    rw [← not_fits_iff] at hnone ⊢
    exact fun h => hnone (h.fewer_rows hv hmn (Regime.spacingOf_eq (.inl (by omega)) hmn))
  unfold largestFit?
  split
  · exact fun m hm hmhi => by omega
  · cases hfirst : rule.fit? req nx lo with
    | none => exact fun m hm _ => hdown lo m (le_refl _) hm hfirst
    | some first =>
        have hlast := isLast_bisect hdown first (lo + 1) hi (by omega) (by omega) (by simpa using hfirst)
        rwa [Int.add_sub_cancel] at hlast

/-- The last success is the only one after which no others come, and there is none only if there are no successes. -/
theorem IsLast.eq_some_iff {test : Int → Option α} {lo hi : Int} {found : Option α} (h : IsLast test lo hi found) :
    (∀ a, found = some a ↔ IsLast test lo hi (some a)) ∧ (found = none ↔ IsLast test lo hi none) := by
  cases found with
  | none =>
      refine ⟨fun a => ⟨nofun, ?_⟩, iff_of_true rfl h⟩
      rintro ⟨n, hn, hnhi, hsome, -⟩
      rw [h n hn hnhi] at hsome
      cases hsome
  | some b =>
      obtain ⟨n, hn, hnhi, hsome, hafter⟩ := h
      refine ⟨fun a => ⟨?_, ?_⟩, ⟨nofun, fun hnone => ?_⟩⟩
      · rintro ⟨⟩
        exact ⟨n, hn, hnhi, hsome, hafter⟩
      · rintro ⟨m, hm, hmhi, hsome', hafter'⟩
        rcases Int.lt_trichotomy m n with hlt | rfl | hlt
        · rw [hafter' n hlt hnhi] at hsome
          cases hsome
        · rw [← hsome, hsome']
        · rw [hafter m hlt hmhi] at hsome'
          cases hsome'
      · rw [hnone n hn hnhi] at hsome
        cases hsome

/-- Within a spacing regime, fewer rows fit where more do. So halving finds the fit with the most rows, from any two rows
on, and it fails only if no number of rows fits. The most cuts of a length are the last number that fits it, and at the
smaller of the spacings they bound all columns and rows of arrays that fit. -/
theorem rows_by_halving {r : Reporter RuleFault LayoutError} {rules : ViaRules} {rule : ViaRule}
    (h : load r rules = .ok rule) (req : ViaRequest) (nx : Int) (hnx : 1 ≤ nx) :
    (∀ my ny, 1 ≤ my → my ≤ ny → rule.Regime nx my → (∃ p, rule.fit? req nx ny = some p) →
      ∃ p, rule.fit? req nx my = some p) ∧
    (∀ lo hi, 2 ≤ lo → lo ≤ hi →
      (∀ p, rule.largestFit? req nx lo hi = some p ↔
        ∃ ny, lo ≤ ny ∧ ny ≤ hi ∧ rule.fit? req nx ny = some p ∧ ∀ my, ny < my → my ≤ hi → rule.fit? req nx my = none) ∧
      (rule.largestFit? req nx lo hi = none ↔ ∀ ny, lo ≤ ny → ny ≤ hi → rule.fit? req nx ny = none)) ∧
    (∀ dim cut sp, 0 < cut → 0 ≤ sp → 0 ≤ maxCuts dim cut sp ∧
      ∀ n, 1 ≤ n → (n ≤ maxCuts dim cut sp ↔ n * cut + (n - 1) * sp ≤ dim)) ∧
    ∀ ny, 1 ≤ ny → (∃ p, rule.fit? req nx ny = some p) → nx ≤ rule.mostColumns req ∧ ny ≤ rule.mostRows req := by
  have hv := valid_of_load h
  have hfits (ny : Int) : (∃ p, rule.fit? req nx ny = some p) ↔ rule.Fits req nx ny := Option.isSome_iff_exists.symm
  simp only [hfits]
  refine ⟨fun my ny _ hle hregime hny => hny.fewer_rows hv hle (hregime.spacingOf_eq hle), fun lo hi hlo _ => ?_,
    fun dim cut sp hcut hsp => ⟨maxCuts_nonneg hcut hsp dim, fun n hn => le_maxCuts_iff hn hcut hsp⟩,
    fun ny hny hfit => ⟨hfit.columns_le hv hnx, hfit.rows_le hv hny⟩⟩
  exact (isLast_largestFit? hv req nx hi hlo).eq_some_iff

/-- Cuts whose arrays are spaced closer once they have several rows and columns. -/
def closeRules : ViaRules where
  cut := ⟨2, 2⟩
  spacing := ⟨4, 4⟩
  spacing2 := some ⟨2, 1⟩
  bottom := [⟨.infinite false, [(1, 0)]⟩]
  top := [⟨.infinite false, [(1, 0)]⟩]

/-- A box that three such cuts in a row do not fit, but three rows of two. -/
def closeRequest : ViaRequest := ⟨⟨8, 8⟩, .horiz, .vert, true⟩

/-- The rule for these cuts. -/
def closeRule : ViaRule where
  cut := ⟨2, 2⟩
  spacing := ⟨4, 4⟩
  spacing2 := some ⟨2, 1⟩
  bottom := [⟨Box.farHigh, [(1, 0)]⟩]
  top := [⟨Box.farHigh, [(1, 0)]⟩]

theorem rows_by_halving_close :
    load ⟨fun f => .load f []⟩ closeRules = .ok closeRule ∧
    closeRule.largestFit? closeRequest 2 2 5 = closeRule.fit? closeRequest 2 3 ∧
    (∃ p, closeRule.fit? closeRequest 2 3 = some p) ∧ (∃ p, closeRule.fit? closeRequest 2 2 = some p) ∧
    closeRule.mostRows closeRequest = 3 := by
  have hload : load ⟨fun f => .load f []⟩ closeRules = .ok closeRule := rfl
  obtain ⟨hfewer, hlargest, -, -⟩ := rows_by_halving hload closeRequest 2 (by decide)
  obtain ⟨p, hp⟩ : ∃ p, closeRule.fit? closeRequest 2 3 = some p := ⟨_, rfl⟩
  obtain ⟨hsome, -⟩ := hlargest 2 5 (by decide) (by decide)
  refine ⟨hload, ?_, ⟨p, hp⟩, hfewer 2 3 (by decide) (by decide) (.inl (by decide)) ⟨p, hp⟩, by decide⟩
  rw [hp, hsome p]
  refine ⟨3, by decide, by decide, hp, fun my hmy hmyhi => ?_⟩
  have hcases : my = 4 ∨ my = 5 := by omega
  rcases hcases with rfl | rfl <;> rfl

/-- The fit with the most rows for `nx` columns: two rows or more at their spacing, or else a single one. -/
def tallest? (rule : ViaRule) (req : ViaRequest) (nyMax nx : Int) : Option ViaParams :=
  (rule.largestFit? req nx 2 nyMax).or (rule.fit? req nx 1)

theorem isLast_tallest? (hv : rule.Valid) {nyMax : Int} (hmax : rule.mostRows req ≤ nyMax) (nx : Int) :
    match rule.tallest? req nyMax nx with
    | some p => ∃ ny, 1 ≤ ny ∧ rule.fit? req nx ny = some p ∧ ∀ my, 1 ≤ my → rule.Fits req nx my → my ≤ ny
    | none => ∀ my, 1 ≤ my → ¬ rule.Fits req nx my := by
  have hrows {my : Int} (hmy : 1 ≤ my) (h : rule.Fits req nx my) : my ≤ nyMax := (h.rows_le hv hmy).trans hmax
  have hlast := isLast_largestFit? hv req nx nyMax (le_refl 2)
  unfold tallest?
  cases hmany : rule.largestFit? req nx 2 nyMax with
  | some p =>
      rw [hmany] at hlast
      obtain ⟨ny, hny, -, hsome, hafter⟩ := hlast
      refine ⟨ny, by omega, hsome, fun my hmy hfits => ?_⟩
      by_contra hlt
      exact not_fits_iff.2 (hafter my (by omega) (hrows hmy hfits)) hfits
  | none =>
      rw [hmany] at hlast
      have hsingle {my : Int} (hmy : 1 ≤ my) (h : rule.Fits req nx my) : my = 1 := by
        by_contra hne
        exact not_fits_iff.2 (hlast my (by omega) (hrows hmy h)) h
      rw [Option.none_or]
      cases hone : rule.fit? req nx 1 with
      | some p => exact ⟨1, le_refl _, hone, fun my hmy h => (hsingle hmy h).le⟩
      | none =>
          intro my hmy h
          have heq := hsingle hmy h
          subst heq
          exact not_fits_iff.2 hone h

/-- The via with the most cuts, and of those the most columns, among the fits with more than `k` columns. -/
def Best (rule : ViaRule) (req : ViaRequest) (k : Int) : Option ViaParams → Prop
  | some p => ∃ nx ny, k < nx ∧ 1 ≤ ny ∧ rule.fit? req nx ny = some p ∧
      ∀ mx my, k < mx → 1 ≤ my → rule.Fits req mx my → mx * my < nx * ny ∨ mx * my = nx * ny ∧ mx ≤ nx
  | none => ∀ mx my, k < mx → 1 ≤ my → ¬ rule.Fits req mx my

/-- The number of cuts of a via. -/
def cutsOf : Option ViaParams → Int
  | some p => p.nx * p.ny
  | none => 0

theorem search_succ (nyMax : Int) (nx : Nat) (best : Option ViaParams) :
    search rule req nyMax (nx + 1) best =
      if ((nx + 1 : Nat) : Int) * nyMax ≤ cutsOf best then best
      else search rule req nyMax nx (match rule.tallest? req nyMax (nx + 1 : Nat) with
        | some p => if p.nx * p.ny > cutsOf best then some p else best
        | none => best) := by
  cases best <;> rfl

/-- Fewer columns do not help once even the most rows would not make more cuts. -/
theorem Best.of_few (hv : rule.Valid) {k nyMax : Int} {best : Option ViaParams} (hmax : rule.mostRows req ≤ nyMax)
    (hk : 0 ≤ k) (h : rule.Best req k best) (hfew : k * nyMax ≤ cutsOf best) : rule.Best req 0 best := by
  have hcuts {mx my : Int} (hmx : mx ≤ k) (hpos : 0 < mx) (hmy : 1 ≤ my) (hfits : rule.Fits req mx my) :
      mx * my ≤ cutsOf best :=
    calc mx * my ≤ k * my := Int.mul_le_mul_of_nonneg_right hmx (by omega)
      _ ≤ k * nyMax := Int.mul_le_mul_of_nonneg_left ((hfits.rows_le hv hmy).trans hmax) hk
      _ ≤ cutsOf best := hfew
  cases best with
  | none =>
      intro mx my hmx hmy hfits
      by_cases hwide : k < mx
      · exact h mx my hwide hmy hfits
      · have hzero : mx * my ≤ 0 := hcuts (by omega) hmx hmy hfits
        have hpos : 0 < mx * my := Int.mul_pos hmx (by omega)
        omega
  | some p =>
      obtain ⟨nx, ny, hnx, hny, hp, hbest⟩ := h
      refine ⟨nx, ny, by omega, hny, hp, fun mx my hmx hmy hfits => ?_⟩
      by_cases hwide : k < mx
      · exact hbest mx my hwide hmy hfits
      · have hle := hcuts (by omega) hmx hmy hfits
        obtain ⟨hpx, hpy⟩ := counts_of_fit? hp
        rw [cutsOf, hpx, hpy] at hle
        omega

/-- A column count without fits leaves the best via as it is. -/
theorem Best.skip {k : Int} {best : Option ViaParams} (h : rule.Best req (k + 1) best)
    (hnone : ∀ my, 1 ≤ my → ¬ rule.Fits req (k + 1) my) : rule.Best req k best := by
  have hwide {mx my : Int} (hmx : k < mx) (hmy : 1 ≤ my) (hfits : rule.Fits req mx my) : k + 1 < mx := by
    by_contra hle
    have heq : mx = k + 1 := by omega
    subst heq
    exact hnone my hmy hfits
  cases best with
  | none => exact fun mx my hmx hmy hfits => h mx my (hwide hmx hmy hfits) hmy hfits
  | some q =>
      obtain ⟨nx, ny, hnx, hny, hq, hbest⟩ := h
      exact ⟨nx, ny, by omega, hny, hq, fun mx my hmx hmy hfits => hbest mx my (hwide hmx hmy hfits) hmy hfits⟩

/-- The most rows of a column count are the best via if they make more cuts than the best so far. -/
theorem Best.replace {k ny : Int} {best : Option ViaParams} {p : ViaParams} (h : rule.Best req (k + 1) best)
    (hny : 1 ≤ ny) (hfit : rule.fit? req (k + 1) ny = some p)
    (hmost : ∀ my, 1 ≤ my → rule.Fits req (k + 1) my → (k + 1) * my ≤ (k + 1) * ny)
    (hmore : cutsOf best < (k + 1) * ny) : rule.Best req k (some p) := by
  refine ⟨k + 1, ny, by omega, hny, hfit, fun mx my hmx hmy hfits => ?_⟩
  rcases Int.lt_or_eq_of_le (show k + 1 ≤ mx by omega) with hwide | rfl
  · cases best with
    | none => exact (h mx my hwide hmy hfits).elim
    | some q =>
        obtain ⟨nx', ny', _, _, hq, hbest⟩ := h
        obtain ⟨hqx, hqy⟩ := counts_of_fit? hq
        have hle := hbest mx my hwide hmy hfits
        rw [cutsOf, hqx, hqy] at hmore
        omega
  · have hle := hmost my hmy hfits
    omega

/-- The best via so far is the best if no rows of a column count make more cuts. -/
theorem Best.keep {k : Int} {p : ViaParams} (h : rule.Best req (k + 1) (some p))
    (hmost : ∀ my, 1 ≤ my → rule.Fits req (k + 1) my → (k + 1) * my ≤ cutsOf (some p)) :
    rule.Best req k (some p) := by
  obtain ⟨nx, ny, hnx, hny, hp, hbest⟩ := h
  obtain ⟨hpx, hpy⟩ := counts_of_fit? hp
  rw [cutsOf, hpx, hpy] at hmost
  refine ⟨nx, ny, by omega, hny, hp, fun mx my hmx hmy hfits => ?_⟩
  rcases Int.lt_or_eq_of_le (show k + 1 ≤ mx by omega) with hwide | rfl
  · exact hbest mx my hwide hmy hfits
  · have hle := hmost my hmy hfits
    omega

/-- One more column count keeps the best via the best. -/
theorem Best.step (hv : rule.Valid) {k nyMax : Int} {best : Option ViaParams} (hmax : rule.mostRows req ≤ nyMax)
    (hk : 0 ≤ k) (h : rule.Best req (k + 1) best) :
    rule.Best req k (match rule.tallest? req nyMax (k + 1) with
      | some p => if p.nx * p.ny > cutsOf best then some p else best
      | none => best) := by
  have hcolumn := isLast_tallest? hv hmax (k + 1)
  cases hp : rule.tallest? req nyMax (k + 1) with
  | none =>
      rw [hp] at hcolumn
      exact h.skip hcolumn
  | some p =>
      rw [hp] at hcolumn
      obtain ⟨ny, hny, hfit, htallest⟩ := hcolumn
      obtain ⟨hpx, hpy⟩ := counts_of_fit? hfit
      have hmost (my : Int) (hmy : 1 ≤ my) (hfits : rule.Fits req (k + 1) my) : (k + 1) * my ≤ (k + 1) * ny :=
        Int.mul_le_mul_of_nonneg_left (htallest my hmy hfits) (by omega)
      simp only [hpx, hpy, gt_iff_lt]
      split
      · rename_i hmore
        exact h.replace hny hfit hmost hmore
      · rename_i hless
        cases best with
        | none =>
            have hpos : 0 < (k + 1) * ny := Int.mul_pos (by omega) (by omega)
            exact (hless hpos).elim
        | some q => exact h.keep fun my hmy hfits => (hmost my hmy hfits).trans (Int.not_lt.1 hless)

theorem best_search (hv : rule.Valid) {nyMax : Int} (hmax : rule.mostRows req ≤ nyMax) {n : Nat}
    {best : Option ViaParams} (h : rule.Best req n best) : rule.Best req 0 (search rule req nyMax n best) := by
  induction n generalizing best with
  | zero => exact h
  | succ k ih =>
      rw [search_succ]
      split
      · rename_i hfew
        exact Best.of_few hv hmax (by omega) h hfew
      · refine ih ?_
        rw [Int.natCast_succ] at h ⊢
        exact Best.step hv hmax (by omega) h

/-- The search finds the via with the most cuts, and of those the most columns, among all fits of the rule. -/
theorem best_solve? (hv : rule.Valid) (req : ViaRequest) : rule.Best req 0 (rule.solve? req) := by
  have hstart : rule.Best req (rule.mostColumns req).toNat none := by
    intro mx my hmx hmy hfits
    have hle := hfits.columns_le hv (by omega)
    omega
  exact best_search hv (le_refl _) hstart

end ViaRule

end MaskLayout
