import Mathlib.Algebra.Order.Group.Abs
import Mathlib.Algebra.Order.Ring.Int
import Mathlib.Algebra.Ring.Int.Parity
import Mathlib.Data.List.Forall2

/-!
# Strips side by side

Strips side by side along a line. A bus that is centered on its line can have its edges on whole numbers just if its
total is even. Drawn with centers and half widths that are cut to whole numbers, it has its widths and spaces just if
all its widths are even, too; no space is missed by more than one unit.
-/

namespace MaskLayout

namespace Path

/-- A strip along a line, between two distances to the left of the line. -/
structure Strip where
  right : Int
  left : Int
deriving DecidableEq

/-- How wide a strip is. -/
def Strip.width (s : Strip) : Int := s.left - s.right

/-- The spaces between strips and their next ones. -/
def gaps (strips : List Strip) : List Int := strips.zipWith (fun s t => t.right - s.left) (strips.drop 1)

/-- Whether strips have the widths and the spaces of a bus that is centered on its line. -/
structure Laid (widths spaces : List Int) (strips : List Strip) : Prop where
  widths : strips.map Strip.width = widths
  spaces : gaps strips = spaces
  centered : ∀ first ∈ strips.head?, ∀ last ∈ strips.getLast?, first.right + last.left = 0

instance (widths spaces : List Int) (strips : List Strip) : Decidable (Laid widths spaces strips) :=
  decidable_of_iff (strips.map Strip.width = widths ∧ gaps strips = spaces ∧
    ∀ first ∈ strips.head?, ∀ last ∈ strips.getLast?, first.right + last.left = 0)
    ⟨fun h => ⟨h.1, h.2.1, h.2.2⟩, fun h => ⟨h.1, h.2, h.3⟩⟩

/-- The strips of wires that follow one another, where `strip` tells where a wire lies by the width of the wires and
spaces before it and by its own. -/
def layOut (strip : Int → Int → Strip) : Int → List Int → List Int → List Strip
  | _, [], _ => []
  | before, width :: widths, spaces =>
    strip before width :: layOut strip (before + width + spaces.headD 0) widths (spaces.drop 1)

/-- The strip of a wire as it is drawn: its center and half its width are cut to whole numbers. -/
def cutStrip (total before width : Int) : Strip :=
  let center := (2 * before + width - total).tdiv 2
  ⟨center - width.tdiv 2, center + width.tdiv 2⟩

/-- The strip of a wire in a bus that starts at a distance to the right of its line. -/
def fullStrip (start before width : Int) : Strip := ⟨before - start, before + width - start⟩

/-- The strips of a bus as they are drawn. -/
def busStrips (widths spaces : List Int) : List Strip := layOut (cutStrip (widths.sum + spaces.sum)) 0 widths spaces

variable {strips : List Strip} {strip : Int → Int → Strip} {total before width w space start : Int}
  {widths spaces : List Int}

@[simp] theorem gaps_cons_cons (s t : Strip) (rest : List Strip) :
    gaps (s :: t :: rest) = (t.right - s.left) :: gaps (t :: rest) := rfl

/-- From its first to its last edge a bus has all its widths and spaces. -/
theorem left_sub_right {first last : Strip} (hfirst : strips.head? = some first) (hlast : strips.getLast? = some last) :
    last.left - first.right = (strips.map Strip.width).sum + (gaps strips).sum := by
  induction strips generalizing first with
  | nil => cases hfirst
  | cons s rest ih =>
      cases hfirst
      cases rest with
      | nil =>
          cases hlast
          simp [gaps, Strip.width]
      | cons t rest =>
          have ih := ih rfl hlast
          simp only [gaps_cons_cons, List.map_cons, List.sum_cons, Strip.width] at ih ⊢
          omega

theorem Laid.even_total (h : Laid widths spaces strips) : Even (widths.sum + spaces.sum) := by
  obtain ⟨rfl, rfl, hcentered⟩ := h
  cases strips with
  | nil => exact ⟨0, rfl⟩
  | cons first rest =>
      obtain ⟨last, hlast⟩ := Option.ne_none_iff_exists'.1 (mt List.getLast?_eq_none_iff.1 (List.cons_ne_nil first rest))
      have hsum := left_sub_right rfl hlast
      have hzero := hcentered first rfl last hlast
      exact ⟨last.left, by omega⟩

/-- A half that is cut to a whole number is the lower one of a positive number, and the upper one of a negative one. -/
theorem tdiv_two (n : Int) : n.tdiv 2 = if 0 ≤ n then n / 2 else (n + 1) / 2 := by
  have hsign : (2 : Int).sign = 1 := rfl
  rw [Int.tdiv_eq_ediv]
  split <;> split <;> omega

theorem tdiv_two_pos_iff : 0 < width.tdiv 2 ↔ 2 ≤ width := by
  rw [tdiv_two]
  omega

theorem cutStrip_width (total before width : Int) : (cutStrip total before width).width = 2 * width.tdiv 2 := by
  simp only [cutStrip, Strip.width]
  omega

/-- Nothing is cut in a bus of an even total from a wire of an even width. -/
theorem cutStrip_of_even (htotal : total = start + start) (hwidth : Even width) (before : Int) :
    cutStrip total before width = fullStrip start before width := by
  obtain ⟨half, rfl⟩ := hwidth
  simp only [cutStrip, fullStrip, tdiv_two, Strip.mk.injEq]
  omega

/-- A space between wires is cut or stretched by one unit at most. -/
theorem cutStrip_gap (total before : Int) (hwidth : 2 ≤ width) (hspace : 0 ≤ space) (hw : 2 ≤ w) :
    |(cutStrip total (before + width + space) w).right - (cutStrip total before width).left - space| ≤ 1 := by
  rw [abs_le]
  simp only [cutStrip, tdiv_two]
  omega

theorem layOut_cons (strip : Int → Int → Strip) (before width : Int) (widths spaces : List Int) :
    layOut strip before (width :: widths) spaces =
      strip before width :: layOut strip (before + width + spaces.headD 0) widths (spaces.drop 1) := rfl

theorem layOut_congr {other : Int → Int → Strip} (h : ∀ before, ∀ w ∈ widths, strip before w = other before w) :
    layOut strip before widths spaces = layOut other before widths spaces := by
  induction widths generalizing before spaces with
  | nil => rfl
  | cons width widths ih =>
      rw [layOut_cons, layOut_cons, h before width List.mem_cons_self]
      exact congrArg _ (ih fun before w hw => h before w (List.mem_cons_of_mem _ hw))

theorem layOut_map_width {f : Int → Int} (h : ∀ before w, (strip before w).width = f w) :
    (layOut strip before widths spaces).map Strip.width = widths.map f := by
  induction widths generalizing before spaces with
  | nil => rfl
  | cons width widths ih => rw [layOut_cons, List.map_cons, List.map_cons, h, ih]

/-- What holds between any two wires for the space that separates them holds all over a bus. -/
theorem forall₂_gaps_layOut {P : Int → Int → Prop} (hlength : spaces.length + 1 = widths.length)
    (h : ∀ before, ∀ width ∈ widths, ∀ space ∈ spaces, ∀ w ∈ widths,
      P ((strip (before + width + space) w).right - (strip before width).left) space) :
    List.Forall₂ P (gaps (layOut strip before widths spaces)) spaces := by
  induction spaces generalizing before widths with
  | nil =>
      obtain ⟨width, rfl⟩ := List.length_eq_one_iff.1 hlength.symm
      exact .nil
  | cons space spaces ih =>
      match widths, hlength with
      | width :: w :: widths, hlength =>
        refine .cons (h before width (by simp) space (by simp) w (by simp)) ?_
        refine ih (by simpa using hlength) fun before v hv s hs v' hv' => ?_
        exact h before v (List.mem_cons_of_mem _ hv) s (List.mem_cons_of_mem _ hs) v' (List.mem_cons_of_mem _ hv')

/-- Strips that start half the total to the right of a line have the widths and the spaces of a bus. -/
theorem laid_layOut (hlength : spaces.length + 1 = widths.length) (htotal : widths.sum + spaces.sum = start + start) :
    Laid widths spaces (layOut (fullStrip start) 0 widths spaces) := by
  have hwidths : (layOut (fullStrip start) 0 widths spaces).map Strip.width = widths := by
    have hwidth (before w : Int) : (fullStrip start before w).width = id w := by
      simp only [fullStrip, Strip.width, id_eq]
      omega
    rw [layOut_map_width hwidth, List.map_id]
  have hspaces : gaps (layOut (fullStrip start) 0 widths spaces) = spaces := by
    rw [← List.forall₂_eq_eq_eq]
    refine forall₂_gaps_layOut hlength fun before width _ space _ w _ => ?_
    simp only [fullStrip]
    omega
  refine ⟨hwidths, hspaces, fun first hfirst last hlast => ?_⟩
  have hsum := left_sub_right hfirst hlast
  rw [hwidths, hspaces] at hsum
  cases widths with
  | nil => cases hfirst
  | cons width widths =>
      cases hfirst
      simp only [fullStrip] at hsum ⊢
      omega

/-- The edges of a bus can lie on whole numbers just if its total is even. -/
theorem exists_laid_iff (hlength : spaces.length + 1 = widths.length) :
    (∃ strips, Laid widths spaces strips) ↔ Even (widths.sum + spaces.sum) := by
  constructor
  · rintro ⟨strips, hlaid⟩
    exact hlaid.even_total
  · rintro ⟨start, htotal⟩
    exact ⟨_, laid_layOut hlength htotal⟩

/-- A bus has the widths and spaces that it is asked for just if each width and the total are even. -/
theorem laid_busStrips_iff (hlength : spaces.length + 1 = widths.length) :
    Laid widths spaces (busStrips widths spaces) ↔ (∀ w ∈ widths, Even w) ∧ Even (widths.sum + spaces.sum) := by
  constructor
  · intro h
    refine ⟨fun w hw => ?_, h.even_total⟩
    have hwidths : widths.map (fun w => 2 * w.tdiv 2) = widths.map id := by
      rw [← layOut_map_width (cutStrip_width _), List.map_id]
      exact h.widths
    exact even_iff_two_dvd.2 ⟨_, (List.map_eq_map_iff.1 hwidths w hw).symm⟩
  · rintro ⟨hwidths, start, htotal⟩
    rw [busStrips, layOut_congr fun before w hw => cutStrip_of_even htotal (hwidths w hw) before]
    exact laid_layOut hlength htotal

theorem gaps_busStrips (hlength : spaces.length + 1 = widths.length) (hspaces : ∀ space ∈ spaces, 0 ≤ space)
    (hwidths : ∀ w ∈ widths, 2 ≤ w) :
    List.Forall₂ (fun gap space => |gap - space| ≤ 1) (gaps (busStrips widths spaces)) spaces :=
  forall₂_gaps_layOut hlength fun before width hwidth space hspace w hw =>
    cutStrip_gap _ before (hwidths width hwidth) (hspaces space hspace) (hwidths w hw)

/-- Wide strips that overlap by one unit at most lie from right to left. -/
theorem isChain_right (hwidth : ∀ s ∈ strips, 2 ≤ s.width) (h : List.Forall₂ (fun gap _ => -1 ≤ gap) (gaps strips) spaces) :
    (strips.map Strip.right).IsChain (· < ·) := by
  induction strips generalizing spaces with
  | nil => exact .nil
  | cons s rest ih =>
      cases rest with
      | nil => exact .singleton _
      | cons t rest =>
          obtain ⟨hs, hrest⟩ := List.forall_mem_cons.1 hwidth
          rw [gaps_cons_cons, List.forall₂_cons_left_iff] at h
          obtain ⟨-, more, hgap, hmore, -⟩ := h
          refine .cons_cons ?_ (ih hrest hmore)
          rw [Strip.width] at hs
          omega

theorem pairwise_busStrips (hlength : spaces.length + 1 = widths.length) (hspaces : ∀ space ∈ spaces, 0 ≤ space)
    (hwidths : ∀ w ∈ widths, 2 ≤ w) : ((busStrips widths spaces).map Strip.right).Pairwise (· < ·) := by
  have hwide : ∀ s ∈ busStrips widths spaces, 2 ≤ s.width := by
    intro s hs
    have hmap := List.mem_map_of_mem (f := Strip.width) hs
    rw [busStrips, layOut_map_width (cutStrip_width _)] at hmap
    obtain ⟨w, hw, hws⟩ := List.mem_map.1 hmap
    have hw := hwidths w hw
    rw [tdiv_two] at hws
    omega
  have hgaps : List.Forall₂ (fun gap _ => -1 ≤ gap) (gaps (busStrips widths spaces)) spaces := by
    refine forall₂_gaps_layOut hlength fun before width hwidth space hspace w hw => ?_
    have hspace := hspaces space hspace
    have hgap := abs_le.1 (cutStrip_gap (widths.sum + spaces.sum) before (hwidths width hwidth) hspace (hwidths w hw))
    omega
  exact List.isChain_iff_pairwise.1 (isChain_right hwide hgaps)

end Path

end MaskLayout
