import MaskLayout.Proofs.Cell.Atomic

/-!
# The composition rule

The composition rule, and binding anew. The rule says that every bound master has the technology of the cell and a mode
that is not more general. While it holds, another master for an instance is bound as a whole or not at all. Every call
keeps it but one: a less general mode is accepted whenever nothing is on any layer, also where a master is bound whose
mode is more general than that.
-/

namespace MaskLayout

section Library

variable [PolygonLibrary]

namespace CellOf

variable {B : Master → Prop} {c c' : Cell} {m : Master} {name : String}

/-- An instance of a master at the origin. -/
def placed (name : String) (m : Master) : CellCall := .op (.inst ⟨name, .bound m, ⟨⟨0, 0⟩, .r0⟩, ⟨1, 1, 0, 0⟩⟩)

theorem Reachable.place (h : Reachable c) (name : String) (m : Master) (hm : Reachable m.cell) :
    Reachable ((placed name m).edit.leaves c) :=
  h.call trivial (by simpa [placed, CellCall.masters, CellOp.masters, InstanceOf.bound?] using hm)

theorem Reachable.rebind (h : Reachable c) (name : String) (m : Master) (hm : Reachable m.cell) :
    Reachable ((CellCall.op (.setMaster name m)).edit.leaves c) :=
  h.call trivial (by simpa [CellCall.masters, CellOp.masters] using hm)

theorem Reachable.withMode (h : Reachable c) (mode : Mode) :
    Reachable ((CellCall.op (.setMode mode)).edit.leaves c) :=
  h.call trivial (by simp [CellCall.masters, CellOp.masters])

instance (c : Cell) (m : Master) : Decidable (c.Accepts m) :=
  inferInstanceAs (Decidable (m.cell.tech = c.tech ∧ m.cell.mode ≤ c.mode))

/-- The check of a master succeeds exactly if the cell accepts it. -/
theorem checkMaster_iff : Edit.checkMaster name m c = .ok () c ↔ c.Accepts m := by
  rw [← (Edit.decides_checkMaster name m c).exists_ok_iff]
  constructor
  · exact fun hrun => ⟨(), c, hrun⟩
  · rintro ⟨_, c', hrun⟩
    obtain ⟨-, rfl⟩ := (Edit.decides_checkMaster name m c).of_ok hrun
    exact hrun

/-- Whether a cell still accepts every master that it binds. -/
def Ruled (c : Cell) : Prop := ∀ i ∈ c.instances, ∀ m, i.bound? = some m → c.Accepts m

instance (c : Cell) : Decidable c.Ruled :=
  inferInstanceAs (Decidable (∀ i ∈ c.instances, ∀ m ∈ i.bound?, c.Accepts m))

theorem Regular.ruled_iff (h : c.Regular B) : c.Ruled ↔ c.Regular fun m => m.cell.mode ≤ c.mode := by
  constructor
  · intro hruled
    refine { h with masters := fun i hi m hm => ?_ }
    exact ⟨(hruled i hi m hm).2, (h.masters i hi m hm).2⟩
  · intro hregular i hi m hm
    obtain ⟨hmode, htech, -⟩ := hregular.masters i hi m hm
    exact ⟨htech, hmode⟩

/-- Under the composition rule all instances merge only what the mode of the cell allows. -/
theorem Regular.settled (h : c.Regular B) (hruled : c.Ruled) (name : String) : c.Settled name := fun i hi _ =>
  InstanceOf.recordable_of_mode_le fun m hm => ⟨(h.masters i hi m hm).2.2, (hruled i hi m hm).2⟩

/-- Another master is bound exactly if the instance is there, the master is accepted, and all other instances merge only
what the mode of the cell allows. If only the last of these fails, the instance is bound to it nevertheless. -/
theorem Reachable.setMaster_ends (h : Reachable c) (hm : Reachable m.cell) (name : String) :
    Edit.Ends (Edit.setMaster name m) c (fun _ c' => c.Rebinds name m c' ∧ c.Settled name) fun _ c' =>
      c' = c ∧ ¬ ((∃ i, c.theInstance name = .ok i) ∧ c.Accepts m) ∨ c.Rebinds name m c' ∧ ¬ c.Settled name := by
  refine (Edit.ends_setMaster h.regular hm.offers).mono ?_ ?_
  · rintro _ c' ⟨⟨-, hrebinds⟩, hsettled⟩
    exact ⟨hrebinds, hsettled⟩
  · rintro _ c' (hsame | ⟨⟨-, hrebinds⟩, hnot⟩)
    · exact .inl hsame
    · exact .inr ⟨hrebinds, hnot⟩

/-- Under the composition rule another master is bound exactly if the instance is there and the master is accepted, and
otherwise nothing changes. -/
theorem Reachable.setMaster_atomic (h : Reachable c) (hruled : c.Ruled) (hm : Reachable m.cell) (name : String) :
    ((∃ c', Edit.setMaster name m c = .ok () c') ↔
      (∃ i, c.theInstance name = .ok i) ∧ Edit.checkMaster name m c = .ok () c) ∧
    ∀ x c', Edit.setMaster name m c = .error x c' → c' = c := by
  have hends := h.setMaster_ends hm name
  have hsettled := h.regular.settled hruled name
  rw [checkMaster_iff]
  refine ⟨⟨?_, fun hp => ?_⟩, fun x c' hrun => ?_⟩
  · rintro ⟨c', hrun⟩
    obtain ⟨⟨i, hi, haccepts, -⟩, -⟩ := hends.of_ok hrun
    exact ⟨⟨i, hi⟩, haccepts⟩
  · cases hrun : Edit.setMaster name m c with
    | ok u c' => exact ⟨c', rfl⟩
    | error x c' =>
        rcases hends.of_error hrun with ⟨-, hnot⟩ | ⟨-, hnot⟩
        · exact absurd hp hnot
        · exact absurd hsettled hnot
  · rcases hends.of_error hrun with ⟨rfl, -⟩ | ⟨-, hnot⟩
    · rfl
    · exact absurd hsettled hnot

end CellOf

end Library

section Examples

open scoped ExactPolygons

namespace CellOf

theorem setMaster_atomic_stack :
    stack.Ruled ∧ Reachable (plate 1 1) ∧ (∃ c', Edit.setMaster "I0" (.mk 3 (plate 1 1)) stack = .ok () c') ∧
      ∃ x, Edit.setMaster "I1" (.mk 3 (plate 1 1)) stack = .error x stack := by
  have hruled : stack.Ruled := by decide +kernel
  have hatomic := reachable_stack.setMaster_atomic hruled (m := .mk 3 (plate 1 1)) (reachable_plate 1 1)
  refine ⟨hruled, reachable_plate 1 1, (hatomic "I0").1.2 ⟨?_, checkMaster_iff.2 (by decide +kernel)⟩, ?_⟩
  · have hfound : (stack.instance? "I0").isSome = true := by decide +kernel
    obtain ⟨i, hi⟩ := Option.isSome_iff_exists.1 hfound
    exact ⟨i, Tech.found_iff.2 hi⟩
  · obtain ⟨x, hx⟩ := Edit.exists_error_of_fails (c := stack) (e := Edit.setMaster "I1" (.mk 3 (plate 1 1)))
      (by decide +kernel)
    exact ⟨x, hx.trans (congrArg _ ((hatomic "I1").2 x _ hx))⟩

/-- An empty cell of the sample technology. -/
def blank (name : String) (mode : Mode) : Cell := .empty stackTech name mode

theorem reachable_blank (name : String) (mode : Mode) : Reachable (blank name mode) := .empty loaded_stackTech name mode

/-- A general cell with one layer that holds nothing any more, as its plate gave way to an empty cell. -/
def hollow : Cell :=
  run [placed "H" (.mk 1 (plate 4 2)), .op (.setMaster "H" (.mk 2 (blank "void" .poly90)))] (blank "hollow" .poly)

theorem reachable_hollow : Reachable hollow := by
  have hplaced := (reachable_blank "hollow" .poly).place "H" (.mk 1 (plate 4 2)) (reachable_plate 4 2)
  exact hplaced.rebind "H" (.mk 2 (blank "void" .poly90)) (reachable_blank "void" .poly90)

/-- A cell that became rectilinear when it held nothing but the general layer of its master. -/
def lowered : Cell :=
  run [placed "I0" (.mk 3 hollow), placed "I1" (.mk 2 (blank "void" .poly90)), .op (.setMode .poly90)] (blank "top" .poly)

theorem reachable_lowered : Reachable lowered := by
  have hplaced := (reachable_blank "top" .poly).place "I0" (.mk 3 hollow) reachable_hollow
  have hfull := hplaced.place "I1" (.mk 2 (blank "void" .poly90)) (reachable_blank "void" .poly90)
  exact hfull.withMode .poly90

/-- Where the composition rule is broken, an accepted master for an instance that is there is not bound as a whole: the
change fails at the general layer of the other instance, and the master is bound nevertheless. -/
theorem setMaster_lowered :
    Reachable lowered ∧ Reachable (plate 4 2) ∧ (lowered.instance? "I1").isSome = true ∧
      Edit.checkMaster "I1" (.mk 1 (plate 4 2)) lowered = .ok () lowered ∧
      ∃ x c', Edit.setMaster "I1" (.mk 1 (plate 4 2)) lowered = .error x c' ∧ c' ≠ lowered := by
  refine ⟨reachable_lowered, reachable_plate 4 2, by decide +kernel, checkMaster_iff.2 (by decide +kernel), ?_⟩
  obtain ⟨x, hx⟩ := Edit.exists_error_of_fails (c := lowered) (e := Edit.setMaster "I1" (.mk 1 (plate 4 2)))
    (by decide +kernel)
  refine ⟨x, _, hx, fun hsame => ?_⟩
  let boundName (c : Cell) : Option String := ((c.instance? "I1").bind (·.bound?)).map (·.cell.name)
  have hbefore : boundName lowered = some "void" := by decide +kernel
  have hafter : boundName ((Edit.setMaster "I1" (.mk 1 (plate 4 2))).leaves lowered) = some "plate" := by decide +kernel
  rw [hsame, hbefore] at hafter
  exact absurd hafter (by decide)

end CellOf

end Examples

section Library

variable [PolygonLibrary]

namespace CellOf

variable {c c' : Cell}

/-- A call that does not change the mode keeps the composition rule, whether it succeeds or fails. -/
theorem Reachable.ruled_call (h : Reachable c) (hruled : c.Ruled) {call : CellCall} (hcall : call.Checked)
    (hmasters : ∀ m ∈ call.masters, Reachable m.cell) (hmode : ∀ m, call ≠ .op (.setMode m)) :
    (call.edit.leaves c).Ruled := by
  have hregular := h.regular.ruled_iff.1 hruled
  have hoffers : ∀ m ∈ call.masters, c.Offers (fun m => m.cell.mode ≤ c.mode) m := fun m hm =>
    ⟨(hmasters m hm).regular.toLayersFit, fun haccepts => haccepts.2⟩
  have hkept {d : Cell} (hd : c.Keeps (fun m => m.cell.mode ≤ c.mode) d) : d.Ruled :=
    hd.regular.ruled_iff.2 (hd.mode.symm ▸ hd.regular)
  suffices hends : Edit.Ends call.edit c (fun _ c' => c'.Ruled) fun _ c' => c'.Ruled from hends.leaves (P := Ruled)
  by_cases hplain : call.Plain
  · refine (Edit.ends_plain hregular hplain hoffers).mono (fun _ c' hc' => hkept (hc' hcall)) ?_
    rintro _ c' rfl
    exact hruled
  · unfold CellCall.Plain at hplain
    split at hplain
    · refine (Edit.ends_setMaster hregular (hoffers _ List.mem_cons_self)).mono ?_ ?_
      · rintro _ c' ⟨⟨hkeeps, -⟩, -⟩
        exact hkept hkeeps
      · rintro _ c' (⟨rfl, -⟩ | ⟨⟨hkeeps, -⟩, -⟩)
        · exact hruled
        · exact hkept hkeeps
    · exact absurd rfl (hmode _)
    · exact absurd trivial hplain

/-- The masters that a reachable cell binds have its technology, also where the composition rule is broken. -/
theorem Reachable.tech_of_bound (h : Reachable c) {i : Instance} (hi : i ∈ c.instances) (hm : i.bound? = some m) :
    m.cell.tech = c.tech := (h.regular.masters i hi m hm).2.1

/-- A run of calls that do not change the mode keeps the composition rule. -/
theorem Reachable.ruled_run (h : Reachable c) (hruled : c.Ruled) {calls : List CellCall}
    (hcalls : ∀ call ∈ calls, call.Checked ∧ (∀ m ∈ call.masters, Reachable m.cell) ∧ ∀ m, call ≠ .op (.setMode m)) :
    (CellOf.run calls c).Ruled := by
  induction calls generalizing c with
  | nil => exact hruled
  | cons call rest ih =>
      obtain ⟨⟨hcall, hmasters, hmode⟩, hrest⟩ := List.forall_mem_cons.1 hcalls
      exact ih (h.call hcall hmasters) (h.ruled_call hruled hcall hmasters hmode) hrest

/-- Another mode breaks the composition rule exactly if it is less general than that of a bound master. -/
theorem Ruled.not_ruled_iff_of_mode (hruled : c.Ruled) (htech : c'.tech = c.tech)
    (hinstances : c'.instances = c.instances) :
    ¬ c'.Ruled ↔ ∃ i ∈ c.instances, ∃ m, i.bound? = some m ∧ c'.mode < m.cell.mode := by
  constructor
  · intro hnot
    by_contra hnone
    refine hnot fun i hi m hm => ?_
    rw [hinstances] at hi
    refine ⟨(hruled i hi m hm).1.trans htech.symm, Mode.not_lt.1 fun hless => ?_⟩
    exact hnone ⟨i, hi, m, hm, hless⟩
  · rintro ⟨i, hi, m, hm, hless⟩ hall
    exact Mode.not_lt.2 (hall i (hinstances ▸ hi) m hm).2 hless

/-- A new mode breaks the composition rule exactly if nothing is on any layer and a bound master is more general. -/
theorem Reachable.not_ruled_setMode_iff (h : Reachable c) (hruled : c.Ruled) (mode : Mode) :
    ¬ ((Edit.setMode mode).leaves c).Ruled ↔ (∀ key, (c.layerAt key).isEmpty = true) ∧
      ∃ i ∈ c.instances, ∃ m, i.bound? = some m ∧ mode < m.cell.mode := by
  have hdecides := Edit.decides_setMode h.regular mode
  cases hrun : Edit.setMode mode c with
  | error x c' =>
      obtain ⟨rfl, hnot⟩ := hdecides.of_error hrun
      rw [Edit.leaves_of_error hrun]
      exact iff_of_false (fun hbroken => hbroken hruled) fun hlowers => hnot (.inr hlowers.1)
  | ok u c' =>
      obtain ⟨hp, -, htech, rfl, hmap⟩ := hdecides.of_ok hrun
      have hinstances : c'.instances = c.instances := by rw [instances, instances, hmap]
      rw [Edit.leaves_of_ok hrun, hruled.not_ruled_iff_of_mode htech hinstances]
      refine (and_iff_right_of_imp ?_).symm
      rintro ⟨i, hi, m, hm, hless⟩
      -- A mode that is not less general cannot be below a master that the rule allowed so far.
      refine hp.resolve_left fun hmore => ?_
      exact Mode.not_lt.2 (Mode.le_trans (hruled i hi m hm).2 hmore) hless

/-- There is one way only to break the composition rule: a less general mode than that of a bound master is set while
nothing is on any layer. -/
theorem Reachable.not_ruled_iff (h : Reachable c) (hruled : c.Ruled) {call : CellCall} (hcall : call.Checked)
    (hmasters : ∀ m ∈ call.masters, Reachable m.cell) :
    ¬ (call.edit.leaves c).Ruled ↔ ∃ mode, call = .op (.setMode mode) ∧ (∀ key, (c.layerAt key).isEmpty = true) ∧
      ∃ i ∈ c.instances, ∃ m, i.bound? = some m ∧ mode < m.cell.mode := by
  by_cases hmode : ∃ mode, call = .op (.setMode mode)
  · obtain ⟨mode, rfl⟩ := hmode
    simp only [CellCall.op.injEq, CellOp.setMode.injEq, exists_eq_left']
    exact h.not_ruled_setMode_iff hruled mode
  · refine iff_of_false (fun hbroken => hbroken ?_) fun hlowers => hmode (hlowers.imp fun _ hmode => hmode.1)
    exact h.ruled_call hruled hcall hmasters fun mode heq => hmode ⟨mode, heq⟩

end CellOf

end Library

open scoped ExactPolygons

namespace CellOf

/-- A general cell that binds an empty master of its mode. -/
def roomy : Cell := run [placed "I0" (.mk 4 (blank "void" .poly))] (blank "top" .poly)

theorem reachable_roomy : Reachable roomy :=
  (reachable_blank "top" .poly).place "I0" (.mk 4 (blank "void" .poly)) (reachable_blank "void" .poly)

theorem not_ruled_iff_roomy :
    Reachable roomy ∧ roomy.Ruled ∧ ¬ ((CellCall.op (.setMode .poly90)).edit.leaves roomy).Ruled ∧
      Reachable stack ∧ stack.Ruled ∧ ((CellCall.op (.setMode .poly90)).edit.leaves stack).Ruled := by
  have hroomy : roomy.Ruled := by decide +kernel
  have hstack : stack.Ruled := by decide +kernel
  have hmasters : ∀ m ∈ (CellCall.op (.setMode .poly90)).masters, Reachable m.cell := by
    simp [CellCall.masters, CellOp.masters]
  have hchecked : (CellCall.op (.setMode .poly90)).Checked := trivial
  refine ⟨reachable_roomy, hroomy, ?_, reachable_stack, hstack, ?_⟩
  · refine (reachable_roomy.not_ruled_iff hroomy hchecked hmasters).2 ⟨.poly90, rfl, ?_, ?_⟩
    · refine (forall_layerAt_iff (p := fun g => g.isEmpty = true) (LayerGeometry.isEmpty_empty _)).2 ?_
      exact KeyMap.forall_mem_values_iff.1 (by decide +kernel)
    · change ∃ i ∈ roomy.instances, ∃ m ∈ i.bound?, Mode.poly90 < m.cell.mode
      decide +kernel
  · by_contra hbroken
    obtain ⟨_, -, hempty, -⟩ := (reachable_stack.not_ruled_iff hstack hchecked hmasters).1 hbroken
    have hpin : (stack.layerAt ⟨1, 5⟩).isEmpty = false := by decide +kernel
    rw [hempty] at hpin
    cases hpin

/-- A less general mode is accepted although a master of the mode before is bound, and the rule is broken from then
on. -/
theorem setMode_roomy :
    Reachable roomy ∧ roomy.Ruled ∧ ∃ c', Edit.setMode .poly90 roomy = .ok () c' ∧ Reachable c' ∧ ¬ c'.Ruled := by
  obtain ⟨_, hrun⟩ := Edit.exists_ok_of_fails (c := roomy) (e := Edit.setMode .poly90) (by decide +kernel)
  exact ⟨reachable_roomy, by decide +kernel, _, hrun, reachable_roomy.withMode .poly90, by decide +kernel⟩

end CellOf

end MaskLayout
