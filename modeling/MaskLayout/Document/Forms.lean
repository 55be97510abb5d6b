import MaskLayout.Cell.Parts
import MaskLayout.Document.Schema
import MaskLayout.Grid.Track
import MaskLayout.Path
import MaskLayout.Tech.Basic

/-!
# Written forms

The forms in which layouts and their rules stand in documents. Documents hold what is written: loops of any shape,
counts of any size. Only a set of loops must not be empty.
-/

namespace MaskLayout.Schema

/-- The integers of coordinates and counts. -/
def coord : Schema := .int (Bits.least 64) (Bits.greatest 64)

/-- The integers of levels. -/
def level : Schema := .int (Bits.least 32) (Bits.greatest 32)

/-- The integers of ids. -/
def id : Schema := .int (Bits.least 16) (Bits.greatest 16)

/-- A map from coordinates or counts. -/
def byCoord (value : Schema) : Schema := .numbered (Bits.least 64) (Bits.greatest 64) value

/-- A map from levels. -/
def byLevel (value : Schema) : Schema := .numbered (Bits.least 32) (Bits.greatest 32) value

/-- A field that must be there. -/
def field (name : String) (form : Schema) : Field Schema := ⟨name, form, none⟩

/-- A field that may be missing. -/
def fieldOr (name : String) (form : Schema) (default : Doc) : Field Schema := ⟨name, form, some default⟩

/-- One of the texts of an enumeration. -/
def words (α : Type) [Named α] : Schema := .choice ((Named.all : List α).map Named.text)

/-- A point. -/
def point : Schema := .record [field "x" coord, field "y" coord]

/-- A box or a rectangle, by two corners. -/
def corners : Schema := .record [field "p0" point, field "p1" point]

/-- A loop of points. -/
def loop : Schema := .record [field "points" (.list point)]

/-- A set of loops. -/
def loops : Schema := .someOf loop

/-- A shape. -/
def shape : Schema :=
  .variant [("Rect", corners), ("Poly90", loop), ("Poly45", loop), ("Poly45Set", loops), ("Poly", loop)]

/-- A placement. -/
def transform : Schema := .record [field "loc" point, field "orient" (words Orientation)]

/-- An array of copies. -/
def tiling : Schema := .record [field "nx" coord, field "ny" coord, field "spx" coord, field "spy" coord]

/-- A layer key. -/
def layerKey : Schema := .record [field "layer" id, field "purpose" id]

/-- Track bundles. -/
def trackId : Schema :=
  .record [field "level" level, field "htr" coord, field "ntr" coord, field "num" coord, field "pitch" coord]

/-- Wires on track bundles. -/
def wireArray : Schema := .record [field "tid" trackId, field "lower" coord, field "upper" coord]

/-- The alignment of objects over a level. -/
def blockPitch : Schema := .record [field "full" coord, field "half" coord]

/-- The parameters of a via. -/
def viaParams : Schema := .record [
  field "num" (.pair coord), field "cut_dim" point, field "cut_spacing" point, field "enc" (.pair point),
  field "off" (.pair point)]

/-- A placed via. -/
def via : Schema := .record [field "xform" transform, field "via_id" .text, field "param" viaParams]

/-- The directions of the wires below and above a via. -/
def viaDirs : Schema := .record [field "bot_horiz" .bool, field "top_horiz" .bool]

/-- A pin. -/
def pin : Schema := .record [field "layer" id, field "net" .text, field "label" .text, field "bbox" corners]

/-- A label. -/
def label : Schema := .record [field "key" layerKey, field "xform" transform, field "text" .text]

/-- A blockage. -/
def blockage : Schema :=
  .record [field "btype" (words BlockageType), field "layer" (.optional id), field "polygon" loop]

/-- A boundary. -/
def boundary : Schema := .record [field "btype" (words BoundaryType), field "polygon" loop]

/-- The value of a parameter. -/
def paramValue : Schema := .variant [("Int", coord), ("Double", .real), ("Bool", .bool), ("Str", .text)]

/-- A cell defined elsewhere. -/
def cellRef : Schema :=
  .record [field "lib" .text, field "cell" .text, field "view" .text, field "params" (.named paramValue)]

/-- A spacing table. -/
def spaceTable : Schema := .record [field "w_list" (.list .real), field "sp_list" (.list .real)]

/-- The enclosures of cuts on wires up to a width. -/
def enclosures : Schema := .record [field "width" .real, field "enc" (.list (.pair coord))]

/-- The rules of a via. -/
def viaRules : Schema := .record [
  field "cut_dim" (.pair coord), field "sp" (.pair coord), fieldOr "sp2" (.optional (.pair coord)) .null,
  field "bot_enc" (.list enclosures), field "top_enc" (.list enclosures)]

/-- The rules of a technology. -/
def techRules : Schema := .record [
  field "layer" (.named id), field "purpose" (.named id), field "via_layers" (.named (.pair .text)),
  field "default_purpose" .text, field "pin_purpose" .text, field "make_pin_obj" .bool,
  fieldOr "layer_type" (.named .text) (.map []), fieldOr "sp_min" (.named spaceTable) (.map []),
  fieldOr "sp_le_min" (.named spaceTable) (.map []), fieldOr "sp_sc_min" (.optional (.named spaceTable)) .null,
  fieldOr "via" (.named viaRules) (.map [])]

/-- The tracks of a level. -/
def trackRules : Schema := .record [
  field "direction" (words Dir), field "width" coord, field "space" coord, fieldOr "offset" (.optional coord) .null,
  field "layers" (.list (.pair .text)), fieldOr "w_override" (byCoord coord) (.map [])]

/-- The rules of a routing grid. -/
def gridRules : Schema := .record [
  field "routing_grid" (byLevel trackRules), fieldOr "top_ignore_layer" (.optional level) .null,
  fieldOr "top_private_layer" (.optional level) .null]

end MaskLayout.Schema
