import MaskLayout.Proofs.Tech.Names
import MaskLayout.Proofs.Via.Search

/-!
# Optimal vias

The via that a technology picks for a box is the best of all the vias it has between the two layers: the one with the
most cuts, of those the first by id, and of those the widest. A request fails only where no via fits at all.
-/

namespace MaskLayout

namespace Tech

/-- Every via rule of a loaded technology is valid, and its via has layers. -/
theorem viaRule_of_load {rules : TechRules} {t : Tech} (h : load rules = .ok t) {id : String} {rule : ViaRule}
    (hmem : (id, rule) ∈ t.viaRules.entries) : rule.Valid ∧ ∃ layers, t.viaLayersOf id = .ok layers := by
  obtain ⟨_, _, hlayers⟩ := (loadedFrom_of_load h).viaLayers
  obtain ⟨_, _, hrules⟩ := (loadedFrom_of_load h).viaRules
  obtain ⟨via, -, hload⟩ := KeyMap.get?_of_traverse (Loading.traverse_of_run hrules).1 (KeyMap.get?_eq_some_iff.2 hmem)
  obtain ⟨_, hlisted, hrule⟩ := Success.bind_iff.1 hload
  rw [Reporter.ensure_iff, ← KeyMap.contains_traverse (Loading.traverse_of_run hlayers).1, KeyMap.contains, Option.isSome_iff_exists] at hlisted
  obtain ⟨layers, hget⟩ := hlisted
  refine ⟨ViaRule.valid_of_load hrule, layers, ?_⟩
  rw [viaLayersOf, hget]
  rfl

/-- An array of `nx` by `ny` cuts of a via between two layers that fits a box, with its parameters. -/
structure ViaFit (t : Tech) (bot top : Int) (req : ViaRequest) (id : String) (nx ny : Int) (p : ViaParams) :
    Prop where
  layers : t.viaLayersOf id = .ok (bot, top)
  columns : 1 ≤ nx
  rows : 1 ≤ ny
  fits : ∃ rule, (id, rule) ∈ t.viaRules.entries ∧ rule.fit? req nx ny = some p

/-- An array with more cuts is preferred to others; of equal arrays the one of the first via, and then the widest. -/
def Preferred (id : String) (nx ny : Int) (id' : String) (nx' ny' : Int) : Prop :=
  nx' * ny' < nx * ny ∨ nx' * ny' = nx * ny ∧ (id < id' ∨ id = id' ∧ nx' ≤ nx)

/-- The preferred fit among the vias of a list, or none if none of them fits. -/
def BestVia (t : Tech) (bot top : Int) (req : ViaRequest) (ids : List String) :
    Option (String × ViaParams) → Prop
  | some (id, p) => id ∈ ids ∧ ∃ nx ny, t.ViaFit bot top req id nx ny p ∧
      ∀ id' ∈ ids, ∀ nx' ny' p', t.ViaFit bot top req id' nx' ny' p' → Preferred id nx ny id' nx' ny'
  | none => ∀ id ∈ ids, ∀ nx ny p, ¬ t.ViaFit bot top req id nx ny p

variable {t : Tech} {bot top : Int} {req : ViaRequest} {ids : List String} {best : Option (String × ViaParams)}
  {id : String} {rule : ViaRule}

theorem fit?_of_viaFit (hmem : (id, rule) ∈ t.viaRules.entries) {nx ny : Int} {p : ViaParams}
    (h : t.ViaFit bot top req id nx ny p) : rule.fit? req nx ny = some p := by
  obtain ⟨rule', hmem', hfit⟩ := h.fits
  rw [← KeyMap.get?_eq_some_iff] at hmem hmem'
  rw [hmem, Option.some.injEq] at hmem'
  rw [hmem']
  exact hfit

/-- A via without fits leaves the best as it is. -/
theorem BestVia.skip (h : t.BestVia bot top req ids best) (hnone : ∀ nx ny p, ¬ t.ViaFit bot top req id nx ny p) :
    t.BestVia bot top req (ids ++ [id]) best := by
  cases best with
  | none => exact List.forall_mem_append.2 ⟨h, List.forall_mem_singleton.2 hnone⟩
  | some via =>
      obtain ⟨hin, nx, ny, hvia, hbest⟩ := h
      refine ⟨List.mem_append_left _ hin, nx, ny, hvia, List.forall_mem_append.2 ⟨hbest, ?_⟩⟩
      exact List.forall_mem_singleton.2 fun nx' ny' p' hfit => (hnone nx' ny' p' hfit).elim

/-- The best fit of a later via replaces the best so far only if it has more cuts. -/
theorem BestVia.next (h : t.BestVia bot top req ids best) (hlater : ∀ id' ∈ ids, id' < id)
    (hmem : (id, rule) ∈ t.viaRules.entries) (hlayers : t.viaLayersOf id = .ok (bot, top)) (hv : rule.Valid) :
    t.BestVia bot top req (ids ++ [id]) (betterVia best id (rule.solve? req)) := by
  have hsolve := ViaRule.best_solve? hv req
  cases hp : rule.solve? req with
  | none =>
      rw [hp] at hsolve
      refine h.skip fun nx ny p hfit => ?_
      have hpos := hfit.columns
      exact hsolve nx ny (by omega) hfit.rows (.of_fit? (fit?_of_viaFit hmem hfit))
  | some p =>
      rw [hp] at hsolve
      obtain ⟨nx, ny, hnx, hny, hfitp, hmost⟩ := hsolve
      obtain ⟨hpx, hpy⟩ := ViaRule.counts_of_fit? hfitp
      have hhere {nx' ny' : Int} {p' : ViaParams} (hfit : t.ViaFit bot top req id nx' ny' p') :
          nx' * ny' < nx * ny ∨ nx' * ny' = nx * ny ∧ nx' ≤ nx := by
        have hpos := hfit.columns
        exact hmost nx' ny' (by omega) hfit.rows (.of_fit? (fit?_of_viaFit hmem hfit))
      have hfits : t.ViaFit bot top req id nx ny p := ⟨hlayers, by omega, hny, rule, hmem, hfitp⟩
      have hlast : id ∈ ids ++ [id] := List.mem_append_right _ List.mem_cons_self
      have hown : ∀ nx' ny' p', t.ViaFit bot top req id nx' ny' p' → Preferred id nx ny id nx' ny' :=
        fun nx' ny' p' hfit => (hhere hfit).imp_right fun ⟨heq, hle⟩ => ⟨heq, .inr ⟨rfl, hle⟩⟩
      cases best with
      | none =>
          refine ⟨hlast, nx, ny, hfits, List.forall_mem_append.2 ⟨?_, List.forall_mem_singleton.2 hown⟩⟩
          exact fun id' hid' nx' ny' p' hfit => (h id' hid' nx' ny' p' hfit).elim
      | some via =>
          obtain ⟨hin, mx, my, hvia, hbest⟩ := h
          obtain ⟨rule', hmem', hfit'⟩ := hvia.fits
          obtain ⟨hqx, hqy⟩ := ViaRule.counts_of_fit? hfit'
          simp only [betterVia, hpx, hpy, hqx, hqy, gt_iff_lt]
          split
          · rename_i hmore
            refine ⟨hlast, nx, ny, hfits, List.forall_mem_append.2 ⟨?_, List.forall_mem_singleton.2 hown⟩⟩
            intro id' hid' nx' ny' p' hfit
            have hle : nx' * ny' ≤ mx * my := (hbest id' hid' nx' ny' p' hfit).elim le_of_lt fun hle => hle.1.le
            exact .inl (by omega)
          · rename_i hless
            refine ⟨List.mem_append_left _ hin, mx, my, hvia, List.forall_mem_append.2 ⟨hbest, ?_⟩⟩
            refine List.forall_mem_singleton.2 fun nx' ny' p' hfit => ?_
            have hle : nx' * ny' ≤ nx * ny := (hhere hfit).elim le_of_lt fun hle => hle.1.le
            rcases Int.lt_or_eq_of_le (show nx' * ny' ≤ mx * my by omega) with hlt | heq
            · exact .inl hlt
            · exact .inr ⟨heq, .inl (hlater _ hin)⟩

/-- One entry of the via rules, taken into account. -/
def considerVia (t : Tech) (bot top : Int) (req : ViaRequest) (best : Option (String × ViaParams))
    (e : String × ViaRule) : Except LayoutError (Option (String × ViaParams)) := do
  let layers ← t.viaLayersOf e.1
  return if layers = (bot, top) then betterVia best e.1 (e.2.solve? req) else best

theorem viaParams_eq (t : Tech) (bot top : Int) (req : ViaRequest) :
    t.viaParams bot top req = (do
      let best ← t.viaRules.entries.foldlM (t.considerVia bot top req) none
      match best with
      | some via => return via
      | none => throw (.representation (.noVia bot top req.dim))) := rfl

theorem bestVia_foldlM {rules : TechRules} (h : load rules = .ok t) {done rest : List (String × ViaRule)}
    (hsplit : t.viaRules.entries = done ++ rest) (hbest : t.BestVia bot top req (done.map Prod.fst) best) :
    ∃ best', rest.foldlM (t.considerVia bot top req) best = .ok best' ∧
      t.BestVia bot top req (t.viaRules.entries.map Prod.fst) best' := by
  induction rest generalizing done best with
  | nil =>
      rw [List.append_nil] at hsplit
      exact ⟨best, rfl, hsplit ▸ hbest⟩
  | cons e rest ih =>
      obtain ⟨id, rule⟩ := e
      have hmem : (id, rule) ∈ t.viaRules.entries := by
        rw [hsplit]
        exact List.mem_append_right _ List.mem_cons_self
      have hlater : ∀ id' ∈ done.map Prod.fst, id' < id := by
        intro id' hid'
        obtain ⟨e, he, heq⟩ := List.mem_map.1 hid'
        have hasc := t.viaRules.ascending
        rw [hsplit, List.pairwise_append] at hasc
        rw [← heq]
        exact compareOfLessAndEq_eq_lt.1 (hasc.2.2 e he (id, rule) List.mem_cons_self)
      obtain ⟨hv, layers, hlayers⟩ := viaRule_of_load h hmem
      have hnext : t.BestVia bot top req ((done ++ [(id, rule)]).map Prod.fst)
          (if layers = (bot, top) then betterVia best id (rule.solve? req) else best) := by
        rw [List.map_append, List.map_singleton]
        split
        · rename_i heq
          exact hbest.next hlater hmem (heq ▸ hlayers) hv
        · rename_i hne
          refine hbest.skip fun nx ny p hfit => hne ?_
          have hok := hfit.layers
          rw [hlayers, Except.ok.injEq] at hok
          exact hok
      obtain ⟨best', hfold, hlast⟩ := ih (by rw [hsplit, List.append_assoc, List.singleton_append]) hnext
      refine ⟨best', ?_, hlast⟩
      rw [List.foldlM_cons, Success.bind_iff]
      refine ⟨_, ?_, hfold⟩
      rw [considerVia, hlayers]
      rfl

/-- A technology picks the preferred one of all the arrays of all its vias between two layers that fit a box, and
it fails to represent a via only if there is none. -/
theorem viaParams_optimal {rules : TechRules} {t : Tech} (h : load rules = .ok t) (bot top : Int) (req : ViaRequest) :
    ((∃ via, t.viaParams bot top req = .ok via) ↔ ∃ id nx ny p, t.ViaFit bot top req id nx ny p) ∧
    (∀ id p, t.viaParams bot top req = .ok (id, p) →
      ∃ nx ny, t.ViaFit bot top req id nx ny p ∧
        ∀ id' nx' ny' p', t.ViaFit bot top req id' nx' ny' p' → Preferred id nx ny id' nx' ny') ∧
    (∀ e, t.viaParams bot top req = .error e → e = .representation (.noVia bot top req.dim)) := by
  have hstart : t.BestVia bot top req [] none := fun id hid => (List.not_mem_nil hid).elim
  obtain ⟨best, hfold, hbest⟩ := bestVia_foldlM h (List.nil_append _).symm hstart
  have hids {id : String} {nx ny : Int} {p : ViaParams} (hfit : t.ViaFit bot top req id nx ny p) :
      id ∈ t.viaRules.entries.map Prod.fst := by
    obtain ⟨rule, hmem, -⟩ := hfit.fits
    exact List.mem_map.2 ⟨_, hmem, rfl⟩
  rw [viaParams_eq, hfold]
  cases best with
  | none =>
      have hnone : ∀ id nx ny p, ¬ t.ViaFit bot top req id nx ny p :=
        fun id nx ny p hfit => hbest id (hids hfit) nx ny p hfit
      refine ⟨⟨?_, ?_⟩, ?_, ?_⟩
      · rintro ⟨via, hvia⟩
        cases hvia
      · rintro ⟨id, nx, ny, p, hfit⟩
        exact (hnone id nx ny p hfit).elim
      · intro id p hvia
        cases hvia
      · intro e he
        cases he
        rfl
  | some via =>
      obtain ⟨hin, nx, ny, hvia, hmost⟩ := hbest
      refine ⟨⟨fun _ => ⟨via.1, nx, ny, via.2, hvia⟩, fun _ => ⟨via, rfl⟩⟩, ?_, ?_⟩
      · intro id p hp
        cases hp
        exact ⟨nx, ny, hvia, fun id' nx' ny' p' hfit => hmost id' (hids hfit) nx' ny' p' hfit⟩
      · intro e he
        cases he

/-- Rules with a via of square cuts, whose arrays of several rows and columns are spaced wider. -/
def spacedRules : TechRules where
  layers := .ofList [("M1", 1), ("M2", 2)]
  purposes := .ofList [("drawing", 0)]
  viaLayers := .ofList [("V1", "M1", "M2")]
  defaultPurpose := "drawing"
  pinPurpose := "drawing"
  drawPins := false
  layerTypes := .empty
  minSpace := .empty
  lineEnd := .empty
  sameColor := none
  vias := .ofList [("V1", {
    cut := ⟨2, 2⟩
    spacing := ⟨2, 2⟩
    spacing2 := some ⟨4, 4⟩
    bottom := [⟨.infinite false, [(1, 0)]⟩]
    top := [⟨.infinite false, [(1, 0)]⟩] })]

/-- The technology of `spacedRules`. -/
def spacedTech : Tech where
  layers := spacedRules.layers
  purposes := spacedRules.purposes
  viaLayers := .ofList [("V1", 1, 2)]
  layerTypes := .empty
  minSpace := .empty
  lineEnd := .empty
  sameColor := none
  defaultPurpose := 0
  pinPurpose := 0
  drawPins := false
  viaRules := .ofList [("V1", {
    cut := ⟨2, 2⟩
    spacing := ⟨2, 2⟩
    spacing2 := some ⟨4, 4⟩
    bottom := [⟨Box.farHigh, [(1, 0)]⟩]
    top := [⟨Box.farHigh, [(1, 0)]⟩] })]

/-- A box that three cuts in a row fit, and four cuts in a square. -/
def spacedRequest : ViaRequest := ⟨⟨12, 8⟩, .horiz, .vert, true⟩

/-- The square of four cuts in that box. -/
def spacedVia : ViaParams := ⟨2, 2, ⟨2, 2⟩, ⟨4, 4⟩, ⟨⟨2, 0⟩, ⟨0, 0⟩⟩, ⟨⟨2, 1⟩, ⟨0, 0⟩⟩⟩

theorem viaParams_optimal_spaced :
    load spacedRules = .ok spacedTech ∧
    spacedTech.viaParams 1 2 spacedRequest = .ok ("V1", spacedVia) ∧
    ∀ id nx ny p, spacedTech.ViaFit 1 2 spacedRequest id nx ny p → Preferred "V1" 2 2 id nx ny := by
  have hload : load spacedRules = .ok spacedTech := rfl
  have hvia : spacedTech.viaParams 1 2 spacedRequest = .ok ("V1", spacedVia) := by decide +kernel
  obtain ⟨nx, ny, hfit, hmost⟩ := (viaParams_optimal hload 1 2 spacedRequest).2.1 _ _ hvia
  obtain ⟨rule, -, hrule⟩ := hfit.fits
  obtain ⟨rfl, rfl⟩ := ViaRule.counts_of_fit? hrule
  exact ⟨hload, hvia, hmost⟩

end Tech

end MaskLayout
