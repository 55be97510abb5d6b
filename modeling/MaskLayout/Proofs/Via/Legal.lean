import MaskLayout.Proofs.Plane.Hull
import MaskLayout.Proofs.Via.Search

/-!
# Legal vias

The via that is found for a box keeps to the rules. Its cuts fit the box, and on either layer it has an enclosure that
some option of the applying bucket allows. Across the tracks the enclosed cuts fill the box. Along the tracks they fill
it too, and they reach beyond it only where the least possible enclosure has no room. However the via is placed, both
enclosures lie around the cuts.
-/

namespace MaskLayout

namespace Rect

/-- Width and height. -/
def size (r : Rect) : Point := ⟨r.width, r.height⟩

/-- A placement keeps a rectangle within another one. -/
theorem transform_le {a b : Rect} (h : a.toBox ≤ b.toBox) (t : Transform) :
    (a.transform t).toBox ≤ (b.transform t).toBox := by
  have hx := a.x_le
  have hy := a.y_le
  obtain ⟨⟨x, y⟩, o⟩ := t
  simp only [Box.le_def, toBox] at h
  simp only [Box.le_def, toBox, transform, ofCorners, Transform.apply]
  cases o <;>
    (simp only [Orientation.matrix, Matrix2.act, Point.add_x, Point.add_y]
     omega)

end Rect

namespace Point

@[simp] theorem coord_along (a b : Int) (dir : Dir) : (along a dir + along b dir.other).coord dir = a := by
  cases dir <;> simp [along, coord, Dir.other]

@[simp] theorem coord_along_other (a b : Int) (dir : Dir) : (along a dir + along b dir.other).coord dir.other = b := by
  cases dir <;> simp [along, coord, Dir.other]

/-- What holds along a direction and across it holds in both directions. -/
theorem forall_dir {q : Dir → Prop} (dir : Dir) (halong : q dir) (hacross : q dir.other) (d : Dir) : q d := by
  cases d <;> cases dir <;> assumption

end Point

namespace EnclosureBucket

/-- Whether a bucket is the one for wires of a width: the first that is wide enough, or else the last. -/
def Applies (buckets : List EnclosureBucket) (width : Int) (b : EnclosureBucket) : Prop :=
  ∃ narrower others, buckets = narrower ++ b :: others ∧ (∀ n ∈ narrower, n.maxWidth < width) ∧
    (width ≤ b.maxWidth ∨ others = [])

variable {buckets : List EnclosureBucket} {dim arr : Point} {dir : Dir} {extend : Bool} {b : EnclosureBucket}

theorem applies_of_applying (h : applying buckets dim dir = some b) : Applies buckets (dim.coord dir.other) b := by
  rw [applying] at h
  cases hfind : buckets.find? (fun b => decide (dim.coord dir.other ≤ b.maxWidth)) with
  | some c =>
      rw [hfind, Option.some_or, Option.some.injEq] at h
      subst h
      obtain ⟨hwide, narrower, others, hsplit, hnarrow⟩ := List.find?_eq_some_iff_append.1 hfind
      exact ⟨narrower, others, hsplit, fun n hn => by simpa using hnarrow n hn, .inl (by simpa using hwide)⟩
  | none =>
      rw [hfind, Option.none_or] at h
      obtain ⟨narrower, hsplit⟩ := List.getLast?_eq_some_iff.1 h
      refine ⟨narrower, [], hsplit, fun n hn => ?_, .inr rfl⟩
      have hnarrow := List.find?_eq_none.1 hfind n (by simp [hsplit, hn])
      simpa using hnarrow

/-- An option of a bucket that a box has room for, and none of those is less along the tracks. -/
structure Chosen (b : EnclosureBucket) (dim arr : Point) (dir : Dir) (extend : Bool) (o : Int × Int) : Prop where
  mem : o ∈ b.options
  room : HasRoom dim arr dir extend o
  least : ∀ o' ∈ b.options, HasRoom dim arr dir extend o' → o.1 ≤ o'.1

/-- An enclosure that is picked shares out the spare of the box across the tracks, and along them too unless the chosen
option needs more. -/
theorem exists_chosen {e : Enclosure} (h : enclose? buckets dim arr dir extend = some e) :
    ∃ b, Applies buckets (dim.coord dir.other) b ∧ ∃ o, b.Chosen dim arr dir extend o ∧
      (e.low.coord dir.other = (dim.coord dir.other - arr.coord dir.other) / 2 ∧
        e.extra.coord dir.other = (dim.coord dir.other - arr.coord dir.other) % 2) ∧
      if extend = true ∧ o.1 > (dim.coord dir - arr.coord dir) / 2 then
        e.low.coord dir = o.1 ∧ e.extra.coord dir = 0
      else e.low.coord dir = (dim.coord dir - arr.coord dir) / 2 ∧
        e.extra.coord dir = (dim.coord dir - arr.coord dir) % 2 := by
  simp only [enclose?, bind, Option.bind_eq_some_iff, pure, Option.some.injEq] at h
  obtain ⟨b, hb, along, hmin, rfl⟩ := h
  obtain ⟨hmem, hleast⟩ := List.min?_eq_some_iff.1 hmin
  simp only [List.mem_map, List.mem_filter, Bool.and_eq_true, Bool.or_eq_true, decide_eq_true_eq] at hmem hleast
  obtain ⟨o, ⟨ho, hroom⟩, rfl⟩ := hmem
  have hchosen : b.Chosen dim arr dir extend o := ⟨ho, hroom, fun o' ho' hroom' => hleast _ ⟨o', ⟨ho', hroom'⟩, rfl⟩⟩
  refine ⟨b, applies_of_applying hb, o, hchosen, ⟨Point.coord_along_other _ _ dir, Point.coord_along_other _ _ dir⟩, ?_⟩
  split
  · exact ⟨Point.coord_along _ _ dir, Point.coord_along _ _ dir⟩
  · exact ⟨Point.coord_along _ _ dir, Point.coord_along _ _ dir⟩

end EnclosureBucket

namespace ViaParams

variable {p : ViaParams} {e : Enclosure}

section Sizes

variable (hlow : ∀ d, 0 ≤ e.low.coord d) (hextra : ∀ d, 0 ≤ e.extra.coord d)
include hlow hextra

/-- An enclosure without negative sides makes the cuts larger by itself. -/
theorem coord_size_enclosedRect (harr : ∀ d, 0 ≤ p.arraySize.coord d) (d : Dir) :
    (p.enclosedRect e).size.coord d = p.arraySize.coord d + 2 * e.low.coord d + e.extra.coord d := by
  have harr := harr d
  have hlow := hlow d
  have hextra := hextra d
  cases d <;>
    (simp only [Point.coord, Rect.size, Rect.width, Rect.height, enclosedRect, arrayRect, Rect.ofCorners, Point.add_x,
      Point.add_y, Point.sub_x, Point.sub_y] at *
     omega)

theorem arrayRect_le_enclosedRect : p.arrayRect.toBox ≤ (p.enclosedRect e).toBox := by
  have hlowX := hlow .horiz
  have hlowY := hlow .vert
  have hextraX := hextra .horiz
  have hextraY := hextra .vert
  simp only [Point.coord] at hlowX hlowY hextraX hextraY
  simp only [Box.le_def, Rect.toBox, enclosedRect, arrayRect, Rect.ofCorners, Point.add_x, Point.add_y, Point.sub_x,
    Point.sub_y]
  omega

end Sizes

/-- An enclosure of the cuts that keeps to a bucket, in a box on a layer whose tracks run in a direction. -/
structure Encloses (p : ViaParams) (b : EnclosureBucket) (dim : Point) (dir : Dir) (extend : Bool) (e : Enclosure) :
    Prop where
  low : ∀ d, 0 ≤ e.low.coord d
  extra : ∀ d, e.extra.coord d = 0 ∨ e.extra.coord d = 1
  option : ∃ o ∈ b.options, ∀ side ∈ [e.low, e.low + e.extra], o.1 ≤ side.coord dir ∧ o.2 ≤ side.coord dir.other
  across : (p.enclosedRect e).size.coord dir.other = dim.coord dir.other
  along : extend = false → (p.enclosedRect e).size.coord dir = dim.coord dir
  reaches : dim.coord dir ≤ (p.enclosedRect e).size.coord dir
  /-- Beyond the box, the enclosure is the least one that the bucket has for it. -/
  beyond : dim.coord dir < (p.enclosedRect e).size.coord dir →
    ∃ o, b.Chosen dim p.arraySize dir extend o ∧ (p.enclosedRect e).size.coord dir = p.arraySize.coord dir + 2 * o.1

theorem exists_encloses {buckets : List EnclosureBucket} {dim : Point} {dir : Dir} {extend : Bool}
    (harr : ∀ d, 0 ≤ p.arraySize.coord d) (hfits : ∀ d, p.arraySize.coord d ≤ dim.coord d)
    (h : EnclosureBucket.enclose? buckets dim p.arraySize dir extend = some e) :
    ∃ b, EnclosureBucket.Applies buckets (dim.coord dir.other) b ∧ p.Encloses b dim dir extend e := by
  obtain ⟨b, hb, o, hchosen, ⟨hlowAcross, hextraAcross⟩, halong⟩ := EnclosureBucket.exists_chosen h
  obtain ⟨hroomAcross, hroomAlong⟩ := hchosen.room
  have hfitsAlong := hfits dir
  have hfitsAcross := hfits dir.other
  -- Along the tracks the spare is shared out as it is across them, or else the chosen option is taken on both sides.
  have hshare : 0 ≤ e.low.coord dir ∧ (e.extra.coord dir = 0 ∨ e.extra.coord dir = 1) ∧ o.1 ≤ e.low.coord dir ∧
      dim.coord dir ≤ p.arraySize.coord dir + 2 * e.low.coord dir + e.extra.coord dir ∧
      (dim.coord dir = p.arraySize.coord dir + 2 * e.low.coord dir + e.extra.coord dir ∨
        extend = true ∧ e.low.coord dir = o.1 ∧ e.extra.coord dir = 0) := by
    split at halong
    · rename_i hmore
      exact ⟨by omega, by omega, by omega, by omega, .inr ⟨hmore.1, halong⟩⟩
    · rename_i hless
      have hle : o.1 ≤ (dim.coord dir - p.arraySize.coord dir) / 2 := by
        rcases hroomAlong with hextend | hroom
        · exact not_lt.1 fun hlt => hless ⟨hextend, hlt⟩
        · omega
      exact ⟨by omega, by omega, by omega, by omega, .inl (by omega)⟩
  obtain ⟨hlowAlong, hextraAlong, hoption, hreaches, hbeyond⟩ := hshare
  have hlow : ∀ d, 0 ≤ e.low.coord d := Point.forall_dir dir hlowAlong (by omega)
  have hextra : ∀ d, e.extra.coord d = 0 ∨ e.extra.coord d = 1 := Point.forall_dir dir hextraAlong (by omega)
  have hsize := coord_size_enclosedRect hlow (fun d => by have := hextra d; omega) harr
  refine ⟨b, hb, ⟨hlow, hextra, ⟨o, hchosen.mem, ?_⟩, ?_, fun hextend => ?_, ?_, fun hlt => ?_⟩⟩
  · have hsum (d : Dir) : (e.low + e.extra).coord d = e.low.coord d + e.extra.coord d := by cases d <;> rfl
    simp only [List.forall_mem_cons, hsum]
    have hextraAlong := hextra dir
    have hextraAcross := hextra dir.other
    exact ⟨by omega, by omega, fun _ hnil => (List.not_mem_nil hnil).elim⟩
  · rw [hsize]
    omega
  · rw [hsize]
    simp only [hextend, Bool.false_eq_true, false_and, or_false] at hbeyond
    omega
  · rw [hsize]
    omega
  · rw [hsize] at hlt ⊢
    exact ⟨o, hchosen, by omega⟩

end ViaParams

namespace ViaRule

/-- A via that keeps to a rule in a box: its cuts are those of the rule at their spacing and fit the box, the bucket that
applies on either layer allows its enclosure, and every placement of it has enclosures around its cuts. -/
structure Legal (rule : ViaRule) (req : ViaRequest) (p : ViaParams) : Prop where
  counts : 1 ≤ p.nx ∧ 1 ≤ p.ny
  cut : p.cut = rule.cut
  size : p.arraySize = rule.arraySize p.nx p.ny
  fits : p.arraySize.x ≤ req.dim.x ∧ p.arraySize.y ≤ req.dim.y
  bottom : ∃ b, EnclosureBucket.Applies rule.bottom (req.dim.coord req.bottomDir.other) b ∧
    p.Encloses b req.dim req.bottomDir req.extend p.bottom
  top : ∃ b, EnclosureBucket.Applies rule.top (req.dim.coord req.topDir.other) b ∧
    p.Encloses b req.dim req.topDir req.extend p.top
  inside : ∀ v : Via, v.params = p → v.cutRect.toBox ≤ v.bottomRect.toBox ∧ v.cutRect.toBox ≤ v.topRect.toBox

variable {rule : ViaRule} {req : ViaRequest} {nx ny : Int} {p : ViaParams}

theorem Valid.arraySize_nonneg (hv : rule.Valid) (hnx : 1 ≤ nx) (hny : 1 ≤ ny) (d : Dir) :
    0 ≤ (rule.arraySize nx ny).coord d := by
  obtain ⟨hspX, hspY⟩ := hv.spacingOf_nonneg nx ny
  cases d with
  | horiz => exact Int.add_nonneg (Int.mul_nonneg (by omega) hv.cut_x.le) (Int.mul_nonneg (by omega) hspX)
  | vert => exact Int.add_nonneg (Int.mul_nonneg (by omega) hv.cut_y.le) (Int.mul_nonneg (by omega) hspY)

/-- What a fit is made of. -/
theorem parts_of_fit? (hnx : 1 ≤ nx) (hny : 1 ≤ ny) (h : rule.fit? req nx ny = some p) :
    p.cut = rule.cut ∧ p.arraySize = rule.arraySize nx ny ∧
      EnclosureBucket.enclose? rule.bottom req.dim p.arraySize req.bottomDir req.extend = some p.bottom ∧
      EnclosureBucket.enclose? rule.top req.dim p.arraySize req.topDir req.extend = some p.top := by
  simp only [fit?] at h
  split at h
  · cases h
  · simp only [bind, Option.bind_eq_some_iff, pure, Option.some.injEq] at h
    obtain ⟨bottom, hbottom, top, htop, rfl⟩ := h
    have hspread (n sp : Int) (hn : 1 ≤ n) : (n - 1) * (if n > 1 then sp else 0) = (n - 1) * sp := by
      split
      · rfl
      · rw [show n - 1 = 0 by omega, Int.zero_mul, Int.zero_mul]
    have hsize : ViaParams.arraySize ⟨nx, ny, rule.cut, ⟨if nx > 1 then (rule.spacingOf nx ny).x else 0,
        if ny > 1 then (rule.spacingOf nx ny).y else 0⟩, bottom, top⟩ = rule.arraySize nx ny := by
      simp only [ViaParams.arraySize, hspread _ _ hnx, hspread _ _ hny]
      rfl
    exact ⟨rfl, hsize, hsize ▸ hbottom, hsize ▸ htop⟩

theorem Legal.of_fit? (hv : rule.Valid) (hnx : 1 ≤ nx) (hny : 1 ≤ ny) (h : rule.fit? req nx ny = some p) :
    rule.Legal req p := by
  obtain ⟨rfl, rfl⟩ := counts_of_fit? h
  obtain ⟨hcut, hsize, hbottom, htop⟩ := parts_of_fit? hnx hny h
  obtain ⟨hfitsX, hfitsY, -⟩ := fits_iff.1 (.of_fit? h)
  have harr : ∀ d, 0 ≤ p.arraySize.coord d := hsize ▸ hv.arraySize_nonneg hnx hny
  have hfits : ∀ d, p.arraySize.coord d ≤ req.dim.coord d := hsize ▸ Point.forall_dir .horiz hfitsX hfitsY
  have hbottom := ViaParams.exists_encloses harr hfits hbottom
  have htop := ViaParams.exists_encloses harr hfits htop
  have hinside {b : EnclosureBucket} {dir : Dir} {e : Enclosure} (h : p.Encloses b req.dim dir req.extend e) :
      p.arrayRect.toBox ≤ (p.enclosedRect e).toBox :=
    ViaParams.arrayRect_le_enclosedRect h.low fun d => by have := h.extra d; omega
  refine ⟨⟨hnx, hny⟩, hcut, hsize, ⟨hfits .horiz, hfits .vert⟩, hbottom, htop, ?_⟩
  rintro v rfl
  obtain ⟨b, -, hb⟩ := hbottom
  obtain ⟨c, -, hc⟩ := htop
  exact ⟨Rect.transform_le (hinside hb) v.xform, Rect.transform_le (hinside hc) v.xform⟩

/-- Every via that is found for a box by a rule that was loaded keeps to the rule. -/
theorem solve?_legal {r : Reporter RuleFault LayoutError} {rules : ViaRules} (h : load r rules = .ok rule)
    (hp : rule.solve? req = some p) : rule.Legal req p := by
  have hv := valid_of_load h
  have hbest := best_solve? hv req
  rw [hp] at hbest
  obtain ⟨nx, ny, hnx, hny, hfit, -⟩ := hbest
  exact .of_fit? hv (by omega) hny hfit

/-- A via with a choice of enclosures on wide wires below, and none for wide wires above. -/
def stretchedRules : ViaRules where
  cut := ⟨2, 3⟩
  spacing := ⟨2, 2⟩
  spacing2 := some ⟨4, 4⟩
  bottom := [⟨.finite false 4 0, [(0, 0)]⟩, ⟨.infinite false, [(5, 0), (2, 1), (1, 3)]⟩]
  top := [⟨.finite false 4 0, [(1, 0)]⟩]

/-- The rule of that via. -/
def stretchedRule : ViaRule where
  cut := ⟨2, 3⟩
  spacing := ⟨2, 2⟩
  spacing2 := some ⟨4, 4⟩
  bottom := [⟨4, [(0, 0)]⟩, ⟨Box.farHigh, [(5, 0), (2, 1), (1, 3)]⟩]
  top := [⟨4, [(1, 0)]⟩]

/-- A box with an odd spare either way around two cuts. -/
def stretchedRequest : ViaRequest := ⟨⟨9, 6⟩, .horiz, .vert, true⟩

/-- The two cuts in that box, with an enclosure below that reaches beyond it. -/
def stretchedVia : ViaParams := ⟨2, 1, ⟨2, 3⟩, ⟨2, 0⟩, ⟨⟨2, 1⟩, ⟨0, 1⟩⟩, ⟨⟨1, 1⟩, ⟨1, 1⟩⟩⟩

theorem solve?_legal_stretched :
    load ⟨fun fault => .load fault []⟩ stretchedRules = .ok stretchedRule ∧
    stretchedRule.solve? stretchedRequest = some stretchedVia ∧
    stretchedRule.Legal stretchedRequest stretchedVia ∧
    (stretchedVia.enclosedRect stretchedVia.bottom).size = ⟨10, 6⟩ := by
  have hload : load ⟨fun fault => .load fault []⟩ stretchedRules = .ok stretchedRule := rfl
  have hsolve : stretchedRule.solve? stretchedRequest = some stretchedVia := by decide +kernel
  exact ⟨hload, hsolve, solve?_legal hload hsolve, rfl⟩

end ViaRule

end MaskLayout
