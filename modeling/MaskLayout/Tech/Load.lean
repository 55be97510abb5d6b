import MaskLayout.Loading
import MaskLayout.Tech.Basic

/-!
# Loading a technology

Loading a technology from its rules. The first fault is reported, with its place: purposes first, then via layers,
layer types, the three classes of spacing tables, and via rules, each in the order of their names.
-/

namespace MaskLayout

/-- Check a spacing table. -/
def SpaceTable.load (r : Reporter RuleFault LayoutError) (rules : SpaceTableRules) :
    Except LayoutError SpaceTable := do
  r.ensure (!rules.widths.isEmpty && rules.widths.length == rules.spaces.length) .tableLists
  let widths ← rules.widths.mapM fun w => r.require w.dimension? (.dimension w)
  let spaces ← rules.spaces.mapM fun s => r.require s.dimension? (.dimension s)
  r.ensure ((widths.zip (widths.drop 1)).all fun (a, b) => a < b) .tableWidths
  r.ensure ((spaces.zip (spaces.drop 1)).all fun (a, b) => a ≤ b) .tableSpaces
  return ⟨widths.zip spaces⟩

namespace Tech

/-- The id of a layer name that the rules use. -/
def loadLayerId (rules : TechRules) (r : Reporter RuleFault LayoutError) (name : String) : Except LayoutError Int :=
  r.require (rules.layers.get? name) (.layer name)

/-- Resolve the layers of every via. -/
def loadViaLayers (rules : TechRules) : Loading (KeyMap String (Int × Int)) :=
  Loading.traverse .viaRule (fun _ layers r => do
    let bot ← loadLayerId rules r layers.1
    let top ← loadLayerId rules r layers.2
    return (bot, top)) rules.viaLayers

/-- Resolve the layers that have a type. -/
def loadLayerTypes (rules : TechRules) : Loading (KeyMap Int String) :=
  rules.layerTypes.entries.foldlM (fun types (layer, type) => do
    let id ← Loading.within (.layer layer) fun r => loadLayerId rules r layer
    return types.insert id type) .empty

/-- Check the spacing tables of a class. -/
def loadTables (tables : KeyMap String SpaceTableRules) : Loading (KeyMap String SpaceTable) :=
  Loading.traverse .layer (fun _ table r => SpaceTable.load r table) tables

/-- Check every via rule, which must have an entry among the via layers. -/
def loadViaRules (rules : TechRules) : Loading (KeyMap String ViaRule) :=
  Loading.traverse .viaRule (fun id via r => do
    r.ensure (rules.viaLayers.contains id) (.viaUnlisted id)
    ViaRule.load r via) rules.vias

/-- Load all parts of a technology, one after the other. -/
def loadAll (rules : TechRules) : Loading Tech := do
  let defaultPurpose ← Loading.here fun r =>
    r.require (rules.purposes.get? rules.defaultPurpose) (.defaultPurpose rules.defaultPurpose)
  let pinPurpose ← Loading.here fun r =>
    r.require (rules.purposes.get? rules.pinPurpose) (.pinPurpose rules.pinPurpose)
  let viaLayers ← loadViaLayers rules
  let layerTypes ← loadLayerTypes rules
  let minSpace ← loadTables rules.minSpace
  let lineEnd ← loadTables rules.lineEnd
  let sameColor ← rules.sameColor.mapM loadTables
  let viaRules ← loadViaRules rules
  return {
    layers := rules.layers, purposes := rules.purposes, viaLayers, layerTypes, minSpace, lineEnd,
    sameColor, defaultPurpose, pinPurpose, drawPins := rules.drawPins, viaRules }

/-- Load a technology. -/
def load (rules : TechRules) : Except LayoutError Tech :=
  (do Loading.push .tech; loadAll rules : Loading Tech).run' []

end Tech

end MaskLayout
