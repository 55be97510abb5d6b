import MaskLayout.Proofs.Tech.Acceptance
import MaskLayout.Proofs.Tech.Names
import Mathlib.Order.Bounds.Basic

/-!
# Minimum spacings

Minimum spacings of a loaded technology. What is looked up in a spacing table is the spacing of the least threshold that
a width does not exceed, or the largest spacing of the table, so wider wires never get less space. A lookup fails only
where the rules have no table of the class for the type.
-/

namespace MaskLayout

/-- `t.HasRows rows` says that `rows` are the widths of a table, each with the spacing at its place. -/
structure SpaceTableRules.HasRows (t : SpaceTableRules) (rows : List (Int × Int)) : Prop where
  widths : Converts t.widths (rows.map Prod.fst)
  spaces : Converts t.spaces (rows.map Prod.snd)

/-- The tables of a class of spacing. Without tables of their own, wires of one color have those of other wires. -/
def TechRules.spaceTables (rules : TechRules) : SpaceType → KeyMap String SpaceTableRules
  | .diffColor => rules.minSpace
  | .lineEnd => rules.lineEnd
  | .sameColor => rules.sameColor.getD rules.minSpace

namespace SpaceTable

/-- The spacing of a width by the rows of a table: the one of the least threshold that the width does not exceed, or the
largest one if the width exceeds every threshold. -/
inductive Prescribes (rows : List (Int × Int)) (width : Int) : Int → Prop
  | within {threshold space : Int} (hrow : (threshold, space) ∈ rows)
      (hleast : IsLeast {x | x ∈ rows.map Prod.fst ∧ width ≤ x} threshold) : Prescribes rows width space
  | beyond {space : Int} (hwide : ∀ x ∈ rows.map Prod.fst, x < width)
      (hlargest : IsGreatest {s | s ∈ rows.map Prod.snd} space) : Prescribes rows width space

/-- Rows in order: thresholds ascend, and spacings do not descend. -/
structure Ordered (rows : List (Int × Int)) : Prop where
  nonempty : rows ≠ []
  rising : rows.Pairwise fun a b => a.1 < b.1 ∧ a.2 ≤ b.2

variable {rows : List (Int × Int)} {a b : Int × Int} {v w s s' : Int} {table : SpaceTable}

/-- Rows in order compare by their spacings as by their thresholds. -/
theorem Ordered.space_le (h : Ordered rows) (ha : a ∈ rows) (hb : b ∈ rows) (hle : a.1 ≤ b.1) : a.2 ≤ b.2 := by
  have hforward : rows.Pairwise fun a b => a.1 ≤ b.1 → a.2 ≤ b.2 := h.rising.imp fun hab _ => hab.2
  have hback : rows.Pairwise (flip fun a b => a.1 ≤ b.1 → a.2 ≤ b.2) :=
    h.rising.imp fun hab hle => absurd hab.1 (Int.not_lt.2 hle)
  exact hforward.forall_of_forall_of_flip (fun a _ _ => Int.le_refl a.2) hback ha hb hle

/-- What is looked up is what the rows prescribe. -/
theorem Ordered.prescribes_lookup (h : Ordered table.rows) (w : Int) : Prescribes table.rows w (table.lookup w) := by
  rw [lookup]
  split
  · rename_i row hrow
    obtain ⟨hle, before, after, hrows, hbefore⟩ := List.find?_eq_some_iff_append.1 hrow
    have hmem : row ∈ table.rows := List.mem_of_find?_eq_some hrow
    refine .within hmem ⟨⟨List.mem_map_of_mem hmem, of_decide_eq_true hle⟩, ?_⟩
    rintro _ ⟨hx, hwx⟩
    obtain ⟨other, hother, rfl⟩ := List.mem_map.1 hx
    have hrising := h.rising
    rw [hrows] at hother hrising
    -- The rows before the one that is found are too narrow, and those after it have larger thresholds.
    rcases List.mem_append.1 hother with hother | hother
    · simpa [hwx] using hbefore other hother
    · rcases List.mem_cons.1 hother with rfl | hother
      · exact Int.le_refl _
      · exact Int.le_of_lt ((List.pairwise_cons.1 (List.pairwise_append.1 hrising).2.1).1 other hother).1
  · rename_i hnone
    have hwide : ∀ row ∈ table.rows, row.1 < w := by simpa using hnone
    obtain ⟨before, last, hrows⟩ := List.eq_nil_or_concat' table.rows |>.resolve_left h.nonempty
    have hlast : last ∈ table.rows := by simp [hrows]
    have hlargest : (table.rows.getLast?.map (·.2)).getD 0 = last.2 := by simp [hrows]
    rw [hlargest]
    refine .beyond (by simpa using hwide) ⟨List.mem_map_of_mem hlast, ?_⟩
    intro x hx
    obtain ⟨other, hother, rfl⟩ := List.mem_map.1 hx
    have hrising := h.rising
    rw [hrows] at hother hrising
    rcases List.mem_append.1 hother with hother | hother
    · exact ((List.pairwise_append.1 hrising).2.2 other hother last List.mem_cons_self).2
    · rw [List.mem_singleton.1 hother]

/-- Wider wires are prescribed no less space. -/
theorem Prescribes.le (hrows : Ordered rows) (hvw : v ≤ w) (hs : Prescribes rows v s) (hs' : Prescribes rows w s') :
    s ≤ s' := by
  cases hs with
  | within hrow hleast =>
      cases hs' with
      | within hrow' hleast' =>
          refine hrows.space_le hrow hrow' (hleast.2 ⟨hleast'.1.1, ?_⟩)
          exact Int.le_trans hvw hleast'.1.2
      | beyond hwide' hlargest' => exact hlargest'.2 (List.mem_map_of_mem (f := Prod.snd) hrow)
  | beyond hwide hlargest =>
      cases hs' with
      | within hrow' hleast' =>
          have hlt := hwide _ hleast'.1.1
          have hle := hleast'.1.2
          omega
      | beyond hwide' hlargest' => exact hlargest'.2 hlargest.1

/-- A table that is loaded has the rows of its rules, and these are in order. -/
theorem rows_of_load {r : Reporter RuleFault LayoutError} {rules : SpaceTableRules} (h : load r rules = .ok table) :
    rules.HasRows table.rows ∧ Ordered table.rows := by
  simp only [load, Success.bind_iff, Success.pure_iff, Reporter.ensure_iff, convert_iff, Bool.and_eq_true,
    Bool.not_eq_true', List.isEmpty_eq_false_iff, beq_iff_eq] at h
  obtain ⟨_, ⟨hnonempty, hlengths⟩, widths, hwidths, spaces, hspaces, _, hascending, _, hrising, rfl⟩ := h
  have hlength : widths.length = spaces.length := by
    rw [← List.Forall₂.length_eq hwidths, ← List.Forall₂.length_eq hspaces, hlengths]
  have hfst : (widths.zip spaces).map Prod.fst = widths := List.map_fst_zip hlength.le
  have hsnd : (widths.zip spaces).map Prod.snd = spaces := List.map_snd_zip hlength.ge
  refine ⟨⟨hfst.symm ▸ hwidths, hsnd.symm ▸ hspaces⟩, ?_, ?_⟩
  · intro hnil
    rw [show widths.zip spaces = [] from hnil] at hfst
    rw [← hfst] at hwidths
    exact hnonempty (List.forall₂_nil_right_iff.1 hwidths)
  · rw [List.pairwise_and_iff]
    constructor
    · rw [← List.pairwise_map (f := Prod.fst) (R := (· < ·)), hfst]
      exact List.isChain_iff_pairwise.1 ((all_gaps_iff (· < ·) widths).1 hascending)
    · rw [← List.pairwise_map (f := Prod.snd) (R := (· ≤ ·)), hsnd]
      exact List.isChain_iff_pairwise.1 ((all_gaps_iff (· ≤ ·) spaces).1 hrising)

end SpaceTable

namespace Tech

variable {t : Tech} {rules : TechRules} {type : String} {c : SpaceType} {w s : Int} {x : LayoutError}

/-- A loaded technology has a table exactly where its rules have one, and has loaded it from there. -/
theorem rel_get?_spaceTables (h : load rules = .ok t) (c : SpaceType) (type : String) :
    Option.Rel (fun table loaded => ∃ r, SpaceTable.load r table = .ok loaded)
      ((rules.spaceTables c).get? type) ((t.spaceTables c).get? type) := by
  have hfrom := loadedFrom_of_load h
  have hclass {tables : KeyMap String SpaceTableRules} {loaded : KeyMap String SpaceTable}
      (hrun : ∃ s s', (loadTables tables).run s = .ok (loaded, s')) :
      Option.Rel (fun table loaded => ∃ r, SpaceTable.load r table = .ok loaded) (tables.get? type)
        (loaded.get? type) := by
    obtain ⟨s, s', hrun⟩ := hrun
    have hrel := KeyMap.rel_get?_traverse (Loading.traverse_of_run hrun).1 type
    generalize tables.get? type = table at hrel ⊢
    generalize loaded.get? type = row at hrel ⊢
    cases hrel with
    | none => exact .none
    | some hload => exact .some ⟨_, hload⟩
  cases c with
  | diffColor => exact hclass hfrom.minSpace
  | lineEnd => exact hclass hfrom.lineEnd
  | sameColor =>
      obtain ⟨s, s', hrun⟩ := hfrom.sameColor
      rw [TechRules.spaceTables, spaceTables]
      generalize rules.sameColor = tables at hrun ⊢
      generalize t.sameColor = loaded at hrun ⊢
      cases tables with
      | none =>
          cases hrun
          exact hclass hfrom.minSpace
      | some tables =>
          have hmap : (fun p => (some p.1, p.2)) <$> (loadTables tables).run s = .ok (loaded, s') := hrun
          obtain ⟨⟨found, _⟩, hfound, hout⟩ := Success.map_iff.1 hmap
          cases hout
          exact hclass ⟨_, _, hfound⟩

theorem minSpaceOf_ok_iff :
    t.minSpaceOf type w c = .ok s ↔ ∃ table, (t.spaceTables c).get? type = some table ∧ table.lookup w = s := by
  simp only [minSpaceOf, Success.bind_iff, Success.pure_iff, found_iff]

theorem minSpaceOf_error_iff : t.minSpaceOf type w c = .error x ↔ (t.spaceTables c).get? type = none ∧
    x = .notFound .spaceTable (type ++ " (" ++ Named.text c ++ ")") := by
  rw [minSpaceOf]
  cases (t.spaceTables c).get? type with
  | none => simp [found, eq_comm]
  | some table => simp [found, Success.ok_bind, pure, Except.pure]

/-- A loaded technology without tables of its own for wires of one color treats these as all other wires. -/
theorem sameColor_of_load (h : load rules = .ok t) (hnone : rules.sameColor = none) : t.sameColor = none := by
  obtain ⟨s, s', hrun⟩ := (loadedFrom_of_load h).sameColor
  rw [hnone] at hrun
  have hout : (none, s) = (t.sameColor, s') := Except.ok.inj hrun
  exact (Prod.mk.inj hout).1.symm

/-- Minimum spacings are monotone and conservative. Where the rules have a table of the class for a type, every width
has the spacing that the rows of the table prescribe, and a wider wire has no less; where they have none, every lookup
fails. Without tables of their own for wires of one color, these are looked up as all other wires. -/
theorem minSpaceOf_conservative (h : load rules = .ok t) (type : String) :
    (∀ c table, (rules.spaceTables c).get? type = some table → ∃ (rows : List (Int × Int)) (space : Int → Int),
      table.HasRows rows ∧ (∀ v w, v ≤ w → space v ≤ space w) ∧
        ∀ w, t.minSpaceOf type w c = .ok (space w) ∧ SpaceTable.Prescribes rows w (space w)) ∧
    (∀ c w x, t.minSpaceOf type w c = .error x ↔ (rules.spaceTables c).get? type = none ∧
      x = .notFound .spaceTable (type ++ " (" ++ Named.text c ++ ")")) ∧
    (rules.sameColor = none → ∀ w,
      (∀ s, t.minSpaceOf type w .sameColor = .ok s ↔ t.minSpaceOf type w .diffColor = .ok s) ∧
      ((∃ x, t.minSpaceOf type w .sameColor = .error x) ↔ ∃ x, t.minSpaceOf type w .diffColor = .error x)) := by
  refine ⟨fun c table htable => ?_, fun c w x => ?_, fun hnone w => ?_⟩
  · have hrel := rel_get?_spaceTables h c type
    rw [htable] at hrel
    cases hloaded : (t.spaceTables c).get? type with
    | none =>
        rw [hloaded] at hrel
        cases hrel
    | some loaded =>
        rw [hloaded] at hrel
        cases hrel with
        | some hload =>
            obtain ⟨r, hload⟩ := hload
            obtain ⟨hrows, hordered⟩ := SpaceTable.rows_of_load hload
            refine ⟨loaded.rows, loaded.lookup, hrows, fun v w hvw => ?_, fun w => ?_⟩
            · exact (hordered.prescribes_lookup v).le hordered hvw (hordered.prescribes_lookup w)
            · exact ⟨minSpaceOf_ok_iff.2 ⟨loaded, hloaded, rfl⟩, hordered.prescribes_lookup w⟩
  · have hrel := rel_get?_spaceTables h c type
    rw [minSpaceOf_error_iff]
    generalize (t.spaceTables c).get? type = loaded at hrel ⊢
    generalize (rules.spaceTables c).get? type = table at hrel ⊢
    cases hrel with
    | none => simp
    | some _ => simp
  · have htables : t.spaceTables .sameColor = t.spaceTables .diffColor := by
      change t.sameColor.getD t.minSpace = t.minSpace
      rw [sameColor_of_load h hnone, Option.getD_none]
    simp only [minSpaceOf_ok_iff, minSpaceOf_error_iff, htables, exists_and_left, exists_eq, and_true, implies_true,
      and_self]

/-- A table of one threshold. -/
def lineEnds : SpaceTableRules := ⟨[.finite false 50 0], [.finite false 40 0]⟩

/-- Rules of one type with a spacing for narrow and one for all wider wires, and with one at line ends. -/
def gapRules : TechRules where
  layers := .empty
  purposes := .ofList [("drawing", 0)]
  viaLayers := .empty
  defaultPurpose := "drawing"
  pinPurpose := "drawing"
  drawPins := false
  layerTypes := .empty
  minSpace := .ofList [("Mx", ⟨[.finite false 100 0, .infinite false], [.finite false 32 0, .finite false 48 0]⟩)]
  lineEnd := .ofList [("Mx", lineEnds)]
  sameColor := none
  vias := .empty

theorem minSpaceOf_conservative_gaps : ∃ t, load gapRules = .ok t ∧
    t.minSpaceOf "Mx" 101 .sameColor = .ok 48 ∧ t.minSpaceOf "Mx" 101 .diffColor = .ok 48 ∧
    (∃ (rows : List (Int × Int)) (space : Int → Int), lineEnds.HasRows rows ∧ space 50 ≤ space 51 ∧
      t.minSpaceOf "Mx" 51 .lineEnd = .ok (space 51) ∧ SpaceTable.Prescribes rows 51 (space 51)) ∧
    ∃ x, t.minSpaceOf "My" 101 .diffColor = .error x := by
  obtain ⟨t, ht⟩ : ∃ t, load gapRules = .ok t := ⟨_, rfl⟩
  obtain ⟨htables, -, hfallback⟩ := minSpaceOf_conservative ht "Mx"
  obtain ⟨-, hmissing, -⟩ := minSpaceOf_conservative ht "My"
  have hwide : t.minSpaceOf "Mx" 101 .diffColor = .ok 48 := by cases ht; rfl
  obtain ⟨rows, space, hrows, hmono, hspace⟩ := htables .lineEnd _ rfl
  exact ⟨t, ht, ((hfallback rfl 101).1 48).2 hwide, hwide, ⟨rows, space, hrows, hmono 50 51 (by decide), hspace 51⟩, _,
    (hmissing .diffColor 101 _).2 ⟨rfl, rfl⟩⟩

end Tech

end MaskLayout
