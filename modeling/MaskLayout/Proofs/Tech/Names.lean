import MaskLayout.Proofs.Loading
import MaskLayout.Tech.Load

/-!
# Names and ids

Ids and their names in a technology. An id has a name exactly if some name stands for it, and where several do, it is
called by the first of them. So every key that is resolved from names passes the check of keys; in a loaded technology,
so do the keys of pins and of via enclosures.
-/

namespace MaskLayout

namespace KeyMap

theorem exists_nameOf?_iff {m : KeyMap String Int} {id : Int} :
    (∃ name, m.nameOf? id = some name) ↔ ∃ name, m.get? name = some id := by
  simp only [nameOf?, Option.map_eq_some_iff, get?_eq_some_iff]
  constructor
  · rintro ⟨_, e, he, rfl⟩
    have hid : e.2 = id := by simpa using List.find?_some he
    exact ⟨e.1, hid ▸ List.mem_of_find?_eq_some he⟩
  · rintro ⟨name, hname⟩
    have hsome : (m.entries.find? fun e => e.2 == id).isSome := List.find?_isSome.2 ⟨_, hname, by simp⟩
    obtain ⟨e, he⟩ := Option.isSome_iff_exists.1 hsome
    exact ⟨e.1, e, he, rfl⟩

/-- An id is called by the first of the names that stand for it. -/
theorem nameOf?_spec {m : KeyMap String Int} {id : Int} {first : String} (h : m.nameOf? id = some first) :
    m.get? first = some id ∧ ∀ name, m.get? name = some id → first ≤ name := by
  simp only [get?_eq_some_iff]
  obtain ⟨l, hascending⟩ := m
  obtain ⟨e, he, rfl⟩ := Option.map_eq_some_iff.1 h
  obtain ⟨hid, before, after, rfl, hbefore⟩ := List.find?_eq_some_iff_append.1 he
  obtain rfl : e.2 = id := by simpa using hid
  refine ⟨by simp, fun name hname => ?_⟩
  -- an entry before the found one has another id, and the names after it are greater
  rcases List.mem_append.1 hname with hname | hname
  · simpa using hbefore _ hname
  rcases List.mem_cons.1 hname with hsame | hname
  · exact hsame ▸ Std.le_refl name
  · have hafter := (List.pairwise_cons.1 (List.pairwise_append.1 hascending).2.1).1
    exact Std.le_of_lt (compareOfLessAndEq_eq_lt.1 (hafter _ hname))

end KeyMap

namespace Tech

variable {t : Tech}

@[simp] theorem found_iff {α : Type} {wanted : Wanted} {key : String} {x : Option α} {a : α} :
    found wanted key x = .ok a ↔ x = some a := by
  cases x <;> simp [found]

theorem exists_layerName_iff {id : Int} :
    (∃ name, t.layerName id = .ok name) ↔ ∃ name, t.layers.get? name = some id := by
  simp only [layerName, found_iff]
  exact KeyMap.exists_nameOf?_iff

theorem exists_purposeName_iff {id : Int} :
    (∃ name, t.purposeName id = .ok name) ↔ ∃ name, t.purposes.get? name = some id := by
  simp only [purposeName, found_iff]
  exact KeyMap.exists_nameOf?_iff

theorem checkKey_iff {key : LayerKey} {u : Unit} :
    t.checkKey key = .ok u ↔ (∃ name, t.layerName key.layer = .ok name) ∧ ∃ name, t.purposeName key.purpose = .ok name := by
  simp only [checkKey, Success.bind_iff, Success.pure_iff]
  constructor
  · rintro ⟨layer, hlayer, purpose, hpurpose, -⟩
    exact ⟨⟨layer, hlayer⟩, purpose, hpurpose⟩
  · rintro ⟨⟨layer, hlayer⟩, purpose, hpurpose⟩
    exact ⟨layer, hlayer, purpose, hpurpose, trivial⟩

/-- A key that is resolved from names passes the check. -/
theorem checkKey_of_layerKey {layer purpose : String} {key : LayerKey} (h : t.layerKey layer (some purpose) = .ok key) :
    t.checkKey key = .ok () := by
  simp only [layerKey, layerId, purposeId, Success.bind_iff, Success.pure_iff, found_iff] at h
  obtain ⟨l, hl, p, hp, rfl⟩ := h
  exact checkKey_iff.2 ⟨exists_layerName_iff.2 ⟨layer, hl⟩, exists_purposeName_iff.2 ⟨purpose, hp⟩⟩

/-- `NamesAgree table idOf nameOf` says that names and ids are resolved as a table of names has them: just the ids in the
table have names, an id is called by the first of its names, and looking up the id of that name leads back to it. -/
structure NamesAgree (table : KeyMap String Int) (idOf : String → Except LayoutError Int)
    (nameOf : Int → Except LayoutError String) : Prop where
  resolves : ∀ name id, idOf name = .ok id ↔ table.get? name = some id
  named_iff : ∀ id, (∃ name, nameOf id = .ok name) ↔ ∃ name, table.get? name = some id
  round_trip : ∀ id name, nameOf id = .ok name → idOf name = .ok id
  first : ∀ name id, idOf name = .ok id →
    ∃ first, nameOf id = .ok first ∧ table.get? first = some id ∧ ∀ other, table.get? other = some id → first ≤ other
  settled : ∀ name first, (idOf name >>= nameOf) = .ok first → (idOf first >>= nameOf) = .ok first

theorem namesAgree_of_eq {table : KeyMap String Int} {idOf : String → Except LayoutError Int}
    {nameOf : Int → Except LayoutError String} (hid : ∀ name id, idOf name = .ok id ↔ table.get? name = some id)
    (hname : ∀ id name, nameOf id = .ok name ↔ table.nameOf? id = some name) : NamesAgree table idOf nameOf where
  resolves := hid
  named_iff id := by
    simp only [hname]
    exact KeyMap.exists_nameOf?_iff
  round_trip id name h := (hid name id).2 (KeyMap.nameOf?_spec ((hname id name).1 h)).1
  first name id h := by
    obtain ⟨first, hfirst⟩ := KeyMap.exists_nameOf?_iff.2 ⟨name, (hid name id).1 h⟩
    exact ⟨first, (hname id first).2 hfirst, KeyMap.nameOf?_spec hfirst⟩
  settled name first h := by
    obtain ⟨id, -, hfirst⟩ := Success.bind_iff.1 h
    have hback : idOf first = .ok id := (hid first id).2 (KeyMap.nameOf?_spec ((hname id first).1 hfirst)).1
    exact Success.bind_iff.2 ⟨id, hback, hfirst⟩

theorem namesAgree_layers (t : Tech) : NamesAgree t.layers t.layerId t.layerName :=
  namesAgree_of_eq (fun _ _ => found_iff) fun _ _ => found_iff

theorem namesAgree_purposes (t : Tech) : NamesAgree t.purposes (fun name => t.purposeId (some name)) t.purposeName :=
  namesAgree_of_eq (fun _ _ => found_iff) fun _ _ => found_iff

/-- The keys that pass the check are those that are resolved from names. -/
theorem checkKey_iff_layerKey {key : LayerKey} :
    t.checkKey key = .ok () ↔ ∃ layer purpose, t.layerKey layer (some purpose) = .ok key := by
  constructor
  · intro h
    obtain ⟨⟨layer, hlayer⟩, purpose, hpurpose⟩ := checkKey_iff.1 h
    have hl := t.namesAgree_layers.round_trip _ _ hlayer
    have hp := t.namesAgree_purposes.round_trip _ _ hpurpose
    exact ⟨layer, purpose, Success.bind_iff.2 ⟨_, hl, Success.bind_iff.2 ⟨_, hp, rfl⟩⟩⟩
  · rintro ⟨layer, purpose, h⟩
    exact checkKey_of_layerKey h

/-- Whether a technology was loaded from rules. -/
def Loaded (t : Tech) : Prop := ∃ rules, load rules = .ok t

/-- What the parts of a technology are that was loaded from rules. -/
structure LoadedFrom (rules : TechRules) (t : Tech) : Prop where
  layers : t.layers = rules.layers
  purposes : t.purposes = rules.purposes
  defaultPurpose : rules.purposes.get? rules.defaultPurpose = some t.defaultPurpose
  pinPurpose : rules.purposes.get? rules.pinPurpose = some t.pinPurpose
  viaLayers : ∃ s s', (loadViaLayers rules).run s = .ok (t.viaLayers, s')
  minSpace : ∃ s s', (loadTables rules.minSpace).run s = .ok (t.minSpace, s')
  lineEnd : ∃ s s', (loadTables rules.lineEnd).run s = .ok (t.lineEnd, s')
  sameColor : ∃ s s', (rules.sameColor.mapM loadTables).run s = .ok (t.sameColor, s')
  viaRules : ∃ s s', (loadViaRules rules).run s = .ok (t.viaRules, s')

theorem loadedFrom_of_load {rules : TechRules} (h : load rules = .ok t) : LoadedFrom rules t := by
  obtain ⟨s, h⟩ := Loading.run_of_run' h
  simp only [loadAll, StateT.run_bind, Loading.run_push, Loading.run_here, Success.bind_iff, Reporter.require_iff] at h
  obtain ⟨_, -, _, ⟨_, hdefault, hd⟩, _, ⟨_, hpin, hp⟩, ⟨_, _⟩, hviaLayers, _, -, ⟨_, _⟩, hminSpace, ⟨_, _⟩, hlineEnd,
    ⟨_, _⟩, hsameColor, ⟨_, _⟩, hviaRules, hout⟩ := h
  cases hd
  cases hp
  cases hout
  exact ⟨rfl, rfl, hdefault, hpin, ⟨_, _, hviaLayers⟩, ⟨_, _, hminSpace⟩, ⟨_, _, hlineEnd⟩, ⟨_, _, hsameColor⟩, _, _,
    hviaRules⟩

private theorem purposes_of_load {rules : TechRules} (h : load rules = .ok t) :
    (∃ name, t.purposeName t.defaultPurpose = .ok name) ∧ ∃ name, t.purposeName t.pinPurpose = .ok name := by
  have hfrom := loadedFrom_of_load h
  rw [exists_purposeName_iff, exists_purposeName_iff, hfrom.purposes]
  exact ⟨⟨_, hfrom.defaultPurpose⟩, _, hfrom.pinPurpose⟩

private theorem viaLayers_of_load {rules : TechRules} (h : load rules = .ok t) {id : String} {bot top : Int}
    (hid : t.viaLayersOf id = .ok (bot, top)) :
    (∃ name, t.layerName bot = .ok name) ∧ ∃ name, t.layerName top = .ok name := by
  have hfrom := loadedFrom_of_load h
  rw [exists_layerName_iff, exists_layerName_iff, hfrom.layers]
  obtain ⟨s, s', hlayers⟩ := hfrom.viaLayers
  rw [viaLayersOf, found_iff] at hid
  obtain ⟨⟨lower, upper⟩, -, hresolved⟩ := KeyMap.get?_of_traverse (Loading.traverse_of_run hlayers).1 hid
  simp only [loadLayerId, Success.bind_iff, Success.pure_iff, Reporter.require_iff, Prod.mk.injEq] at hresolved
  obtain ⟨_, hbot, _, htop, rfl, rfl⟩ := hresolved
  exact ⟨⟨lower, hbot⟩, upper, htop⟩

/-- In a technology, the layers and the purposes are called by the first of their names in the rules. The keys that pass
the check are those that are resolved from names, and among them are the keys of both layers of every via with the default
purpose and the pin purpose. -/
theorem names_of_aliases {rules : TechRules} (h : load rules = .ok t) :
    NamesAgree rules.layers t.layerId t.layerName ∧
    NamesAgree rules.purposes (fun name => t.purposeId (some name)) t.purposeName ∧
    (∀ key, t.checkKey key = .ok () ↔ ∃ layer purpose, t.layerKey layer (some purpose) = .ok key) ∧
    (∀ purpose ∈ [t.defaultPurpose, t.pinPurpose], ∃ name, t.purposeName purpose = .ok name) ∧
    ∀ via bot top, t.viaLayersOf via = .ok (bot, top) → ∀ layer ∈ [bot, top],
      (∃ name, t.layerName layer = .ok name) ∧
      ∀ purpose ∈ [t.defaultPurpose, t.pinPurpose], t.checkKey ⟨layer, purpose⟩ = .ok () := by
  have hfrom := loadedFrom_of_load h
  have hpurposes : ∀ purpose ∈ [t.defaultPurpose, t.pinPurpose], ∃ name, t.purposeName purpose = .ok name := by
    obtain ⟨hdefault, hpin⟩ := purposes_of_load h
    simp only [List.forall_mem_cons, List.not_mem_nil, false_imp_iff, implies_true, and_true]
    exact ⟨hdefault, hpin⟩
  refine ⟨hfrom.layers ▸ t.namesAgree_layers, hfrom.purposes ▸ t.namesAgree_purposes, fun _ => checkKey_iff_layerKey,
    hpurposes, fun via bot top hvia => ?_⟩
  obtain ⟨hbot, htop⟩ := viaLayers_of_load h hvia
  have hlayers : ∀ layer ∈ [bot, top], ∃ name, t.layerName layer = .ok name := by
    simp only [List.forall_mem_cons, List.not_mem_nil, false_imp_iff, implies_true, and_true]
    exact ⟨hbot, htop⟩
  intro layer hlayer
  exact ⟨hlayers layer hlayer, fun purpose hpurpose => checkKey_iff.2 ⟨hlayers layer hlayer, hpurposes purpose hpurpose⟩⟩

/-- Rules in which the lower layer of a via has two names, and so has the default purpose. -/
def twinRules : TechRules where
  layers := .ofList [("METAL1", 1), ("M1", 1), ("M2", 2)]
  purposes := .ofList [("drawing", 0), ("drw", 0), ("pin", 5)]
  viaLayers := .ofList [("V1", ("METAL1", "M2"))]
  defaultPurpose := "drw"
  pinPurpose := "pin"
  drawPins := true
  layerTypes := .empty
  minSpace := .empty
  lineEnd := .empty
  sameColor := none
  vias := .empty

/-- The technology of `twinRules`. -/
def twinTech : Tech where
  layers := twinRules.layers
  purposes := twinRules.purposes
  viaLayers := .ofList [("V1", 1, 2)]
  layerTypes := .empty
  minSpace := .empty
  lineEnd := .empty
  sameColor := none
  defaultPurpose := 0
  pinPurpose := 5
  drawPins := true
  viaRules := .empty

theorem names_of_aliases_twins :
    load twinRules = .ok twinTech ∧
    (∃ name, twinTech.layerName 1 = .ok name ∧ twinTech.layerId name = .ok 1 ∧ name ≤ "M1" ∧ name ≤ "METAL1") ∧
    twinTech.checkKey ⟨1, 5⟩ = .ok () := by
  have hload : load twinRules = .ok twinTech := rfl
  obtain ⟨hlayers, -, -, -, hvias⟩ := names_of_aliases hload
  obtain ⟨name, hname, hstands, hfirst⟩ := hlayers.first "METAL1" 1 rfl
  obtain ⟨-, hkeys⟩ := hvias "V1" 1 2 rfl 1 List.mem_cons_self
  exact ⟨hload, ⟨name, hname, (hlayers.resolves name 1).2 hstands, hfirst _ rfl, hfirst _ rfl⟩, hkeys 5 (by decide)⟩

/-- The pin purpose of a loaded technology has a name. -/
theorem Loaded.checkKey_pin (h : t.Loaded) {layer : Int} {name : String} (hlayer : t.layerName layer = .ok name) :
    t.checkKey ⟨layer, t.pinPurpose⟩ = .ok () := by
  obtain ⟨rules, hload⟩ := h
  exact checkKey_iff.2 ⟨⟨name, hlayer⟩, (purposes_of_load hload).2⟩

/-- The layers of a via in a loaded technology and its default purpose have names. -/
theorem Loaded.checkKey_via (h : t.Loaded) {id : String} {bot top : Int} (hid : t.viaLayersOf id = .ok (bot, top)) :
    t.checkKey ⟨bot, t.defaultPurpose⟩ = .ok () ∧ t.checkKey ⟨top, t.defaultPurpose⟩ = .ok () := by
  obtain ⟨rules, hload⟩ := h
  obtain ⟨hbot, htop⟩ := viaLayers_of_load hload hid
  have hpurpose := (purposes_of_load hload).1
  exact ⟨checkKey_iff.2 ⟨hbot, hpurpose⟩, checkKey_iff.2 ⟨htop, hpurpose⟩⟩

end Tech

end MaskLayout
