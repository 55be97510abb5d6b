import MaskLayout.Document.Forms
import MaskLayout.Grid.Rules

/-!
# Rules as documents

Rules as documents. Every value has one canonical document, and is read back from it.
-/

namespace MaskLayout

/-- A type whose values stand in documents. -/
class Recorded (α : Type) where
  /-- The canonical document of a value. -/
  toDoc : α → Doc
  /-- The value of a canonical document. -/
  ofDoc? : Doc → Option α

open Recorded

instance : Recorded Int where
  toDoc := .int
  ofDoc?
    | .int i => some i
    | _ => none

instance : Recorded Bool where
  toDoc := .bool
  ofDoc?
    | .bool b => some b
    | _ => none

instance : Recorded String where
  toDoc := .text
  ofDoc?
    | .text s => some s
    | _ => none

instance : Recorded Binary64 where
  toDoc := .real
  ofDoc?
    | .real x => some x
    | _ => none

instance : Recorded Dir where
  toDoc d := .text (Named.text d)
  ofDoc?
    | .text s => Named.parse? s
    | _ => none

section

variable {α β : Type} [Recorded α] [Recorded β]

instance : Recorded (Option α) where
  toDoc
    | some a => toDoc a
    | none => .null
  ofDoc?
    | .null => some none
    | d => (ofDoc? d).map some

instance : Recorded (List α) where
  toDoc as := .list (as.map toDoc)
  ofDoc?
    | .list ds => ds.mapM ofDoc?
    | _ => none

instance : Recorded (α × β) where
  toDoc p := .list [toDoc p.1, toDoc p.2]
  ofDoc?
    | .list [a, b] => do return (← ofDoc? a, ← ofDoc? b)
    | _ => none

instance : Recorded (KeyMap String α) where
  toDoc m := .map (m.entries.map fun (k, a) => (.text k, toDoc a))
  ofDoc?
    | .map es => do return .ofList (← es.mapM fun (k, d) => do return (k.name, ← ofDoc? d))
    | _ => none

instance : Recorded (KeyMap Int α) where
  toDoc m := .map (m.entries.map fun (k, a) => (.int k, toDoc a))
  ofDoc?
    | .map es => do
      return .ofList (← es.mapM fun
        | (.int k, d) => do return (k, ← ofDoc? d)
        | _ => none)
    | _ => none

/-- A field of the document of a record. -/
def Recorded.field (name : String) (a : α) : DocKey × Doc := (.text name, toDoc a)

end

/-- A vector that stands as a pair. -/
def Point.toPair (p : Point) : Int × Int := (p.x, p.y)

/-- The vector of a pair. -/
def Point.ofPair (p : Int × Int) : Point := ⟨p.1, p.2⟩

instance : Recorded SpaceTableRules where
  toDoc t := .map [field "w_list" t.widths, field "sp_list" t.spaces]
  ofDoc?
    | .map [(_, widths), (_, spaces)] => do return ⟨← ofDoc? widths, ← ofDoc? spaces⟩
    | _ => none

instance : Recorded EnclosureRules where
  toDoc e := .map [field "width" e.width, field "enc" e.options]
  ofDoc?
    | .map [(_, width), (_, options)] => do return ⟨← ofDoc? width, ← ofDoc? options⟩
    | _ => none

instance : Recorded ViaRules where
  toDoc v := .map [
    field "cut_dim" v.cut.toPair, field "sp" v.spacing.toPair, field "sp2" (v.spacing2.map Point.toPair),
    field "bot_enc" v.bottom, field "top_enc" v.top]
  ofDoc?
    | .map [(_, cut), (_, spacing), (_, spacing2), (_, bottom), (_, top)] => do
      let spacing2 : Option (Int × Int) ← ofDoc? spacing2
      return {
        cut := .ofPair (← ofDoc? cut), spacing := .ofPair (← ofDoc? spacing)
        spacing2 := spacing2.map .ofPair, bottom := ← ofDoc? bottom, top := ← ofDoc? top }
    | _ => none

instance : Recorded TechRules where
  toDoc r := .map [
    field "layer" r.layers, field "purpose" r.purposes, field "via_layers" r.viaLayers,
    field "default_purpose" r.defaultPurpose, field "pin_purpose" r.pinPurpose, field "make_pin_obj" r.drawPins,
    field "layer_type" r.layerTypes, field "sp_min" r.minSpace, field "sp_le_min" r.lineEnd,
    field "sp_sc_min" r.sameColor, field "via" r.vias]
  ofDoc?
    | .map [(_, layers), (_, purposes), (_, viaLayers), (_, defaultPurpose), (_, pinPurpose), (_, drawPins),
        (_, layerTypes), (_, minSpace), (_, lineEnd), (_, sameColor), (_, vias)] => do
      return {
        layers := ← ofDoc? layers, purposes := ← ofDoc? purposes, viaLayers := ← ofDoc? viaLayers
        defaultPurpose := ← ofDoc? defaultPurpose, pinPurpose := ← ofDoc? pinPurpose
        drawPins := ← ofDoc? drawPins, layerTypes := ← ofDoc? layerTypes, minSpace := ← ofDoc? minSpace
        lineEnd := ← ofDoc? lineEnd, sameColor := ← ofDoc? sameColor, vias := ← ofDoc? vias }
    | _ => none

instance : Recorded TrackRules where
  toDoc t := .map [
    field "direction" t.dir, field "width" t.width, field "space" t.space, field "offset" t.offset,
    field "layers" t.layers, field "w_override" t.overrides]
  ofDoc?
    | .map [(_, dir), (_, width), (_, space), (_, offset), (_, layers), (_, overrides)] => do
      return {
        dir := ← ofDoc? dir, width := ← ofDoc? width, space := ← ofDoc? space, offset := ← ofDoc? offset
        layers := ← ofDoc? layers, overrides := ← ofDoc? overrides }
    | _ => none

instance : Recorded GridRules where
  toDoc g := .map [
    field "routing_grid" g.levels, field "top_ignore_layer" g.topIgnored, field "top_private_layer" g.topPrivate]
  ofDoc?
    | .map [(_, levels), (_, topIgnored), (_, topPrivate)] => do
      return { levels := ← ofDoc? levels, topIgnored := ← ofDoc? topIgnored, topPrivate := ← ofDoc? topPrivate }
    | _ => none

end MaskLayout
