import MaskLayout.Mode
import MaskLayout.Number.Decimal
import MaskLayout.Plane.Point
import MaskLayout.Text.Quoted

/-!
# Failures

Why an operation on a layout fails. Every failure is a cause; its wording is in `LayoutError.message` alone.
-/

namespace MaskLayout

/-- A place within rules that are being loaded. -/
inductive Place where
  | tech
  | grid
  | layer (name : String)
  | level (number : Int)
  | viaRule (id : String)
deriving DecidableEq

namespace Place

/-- The name of a place for a reader. -/
def describe : Place → String
  | tech => "tech"
  | grid => "routing grid"
  | layer name => s!"layer {name}"
  | level number => s!"level {number}"
  | viaRule id => s!"via rule {id}"

/-- The form of a place in a trail of places. -/
def trail : Place → String
  | tech => "Tech"
  | grid => "Grid"
  | layer name => "Layer(" ++ Text.quoted name ++ ")"
  | level number => s!"Level({number})"
  | viaRule id => "ViaRule(" ++ Text.quoted id ++ ")"

end Place

/-- What was looked up and not found. -/
inductive Wanted where
  | layer
  | purpose
  | via
  | spaceTable
  | viaRule
  | routingGrid
  | inst
deriving DecidableEq

/-- The word for what was looked up. -/
def Wanted.word : Wanted → String
  | layer => "layer"
  | purpose => "purpose"
  | via => "via"
  | spaceTable => "space table"
  | viaRule => "via rule"
  | routingGrid => "routing grid"
  | inst => "instance"

/-- The kinds of closed loops, by the edges they allow. -/
inductive LoopKind where
  | rectilinear
  | diagonal
  | any
deriving DecidableEq

/-- The word for a kind of loop. -/
def LoopKind.word : LoopKind → String
  | rectilinear => "rectilinear polygon"
  | diagonal => "45-degree polygon"
  | any => "polygon"

/-- A number outside of its domain. -/
inductive RangeFault where
  | arrayCounts (nx ny : Int)
  | viaCuts (nx ny : Int)
  | partition (ignored priv bot top : Int)
  | level (number : Int)
  | trackCount (count : Int)
  | offTrack (coord : Int)
  | trackId (width count : Int)
  | wireExtent (lower upper : Int)
  | note (text : String)
deriving DecidableEq

/-- The wording of a number outside of its domain. -/
def RangeFault.message : RangeFault → String
  | arrayCounts nx ny => s!"Invalid array counts ({nx}, {ny})"
  | viaCuts nx ny => s!"Invalid via cut counts [{nx}, {ny}]"
  | partition ignored priv bot top =>
    s!"Invalid grid partition: ignore through {ignored}, private through {priv}, levels {bot} to {top}"
  | level number => s!"Undefined routing grid level: {number}"
  | trackCount count => s!"Invalid track count {count}"
  | offTrack coord => s!"Coordinate {coord} is not on a half-track"
  | trackId width count => s!"Invalid track width {width} or count {count}"
  | wireExtent lower upper => s!"Invalid wire extent [{lower}, {upper}]"
  | note text => text

/-- Data that the wanted form cannot express. -/
inductive FormFault where
  | loopSize (kind : LoopKind) (count : Nat)
  | loopEdge (kind : LoopKind) (p q : Point)
  | emptySet
  | addMode (added held : Mode)
  | notRectilinear (shape : String)
  | convertMode (held wanted : Mode)
  | recordMode (master held : Mode)
  | resetMode (held wanted : Mode)
  | halfWidth (value : Int)
  | fewPoints (points : List Point)
  | angle (p q : Point)
  | busSpaces (widths spaces : Nat)
  | negativeSpace
  | reversal (p : Point)
  | offGrid (p : Point)
  | cutDim (size : Point)
  | noVia (bot top : Int) (dim : Point)
  | shapeMode (shape held : Mode) (cell : String)
  | emptyPin (net : String)
  | placementLayer
  | layerNeeded (type : String)
  | cellMode (held : Mode) (cell : String) (wanted : Mode)
  | masterMode (master : Mode) (masterName : String) (held : Mode) (cell : String)
  | note (text : String)
deriving DecidableEq

/-- The wording of data that the wanted form cannot express. -/
def FormFault.message : FormFault → String
  | loopSize kind count => s!"Invalid {kind.word} with {count} points"
  | loopEdge kind p q => s!"Invalid {kind.word} edge from {p.describe} to {q.describe}"
  | emptySet => "Empty 45-degree polygon set"
  | addMode added held => s!"Cannot add {Named.text added} data to {Named.text held} geometry"
  | notRectilinear shape => s!"Cannot add {shape} to rectilinear geometry"
  | convertMode held wanted => s!"Cannot convert {Named.text held} geometry to {Named.text wanted}"
  | recordMode master held =>
    s!"Cannot record {Named.text master} master geometry in {Named.text held} geometry"
  | resetMode held wanted =>
    s!"Cannot convert non-empty {Named.text held} geometry to {Named.text wanted}"
  | halfWidth value => s!"Invalid path half-width {value}"
  | fewPoints points => "Path requires two distinct points, got " ++ Point.describeAll points
  | angle p q =>
    s!"Path segment from {p.describe} to {q.describe} is not at a multiple of 45 degrees"
  | busSpaces widths spaces => s!"Bus of {widths} wires requires {widths - 1} spaces, not {spaces}"
  | negativeSpace => "Bus spaces must be non-negative"
  | reversal p => s!"Path reverses direction at {p.describe}"
  | offGrid p => s!"Offset path corner near {p.describe} is off the integer grid"
  | cutDim size => s!"Invalid via cut dimensions {size.describe}"
  | noVia bot top dim => s!"No via between layers {bot} and {top} fits in {dim.describe}"
  | shapeMode shape held cell =>
    s!"Cannot add {Named.text shape} shape to {Named.text held} cell {cell}"
  | emptyPin net => s!"Pin {net} has an empty box"
  | placementLayer => "Placement blockages cannot have a layer"
  | layerNeeded type => s!"{type} blockages require a layer"
  | cellMode held cell wanted =>
    s!"Cannot convert non-empty {Named.text held} cell {cell} to {Named.text wanted}"
  | masterMode master masterName held cell =>
    s!"Cannot record {Named.text master} master {masterName} in {Named.text held} cell {cell}"
  | note text => text

/-- A breach of the rules by which cells are composed. -/
inductive CompositionFault where
  | duplicateInstance (name cell : String)
  | foreignMaster (master name : String)
  | foreignGrid (cell : String)
  | boundParams (name : String)
  | cyclicHierarchy (cell : String)
  | alreadyCommitted
  | changeCommitted
  | note (text : String)
deriving DecidableEq

/-- The wording of a breach of composition. -/
def CompositionFault.message : CompositionFault → String
  | duplicateInstance name cell => s!"Duplicate instance name {name} in cell {cell}"
  | foreignMaster master name => s!"Master {master} of instance {name} uses a different technology"
  | foreignGrid cell => s!"Routing grid of cell {cell} uses a different technology"
  | boundParams name => s!"Cannot set parameters of bound instance {name}"
  | cyclicHierarchy cell => s!"Cyclic instance hierarchy at {cell}"
  | alreadyCommitted => "Object is already committed"
  | changeCommitted => "Cannot modify a committed object"
  | note text => text

/-- A fault in technology or routing-grid rules. -/
inductive RuleFault where
  | defaultPurpose (name : String)
  | pinPurpose (name : String)
  | layer (name : String)
  | tableLists
  | dimension (value : Binary64)
  | tableWidths
  | tableSpaces
  | viaUnlisted (id : String)
  | cutDim
  | cutSpacing
  | noEnclosures
  | enclosureWidth (value : Binary64)
  | enclosureOrder
  | enclosureOptions
  | trackSizes
  | oddPitch (pitch : Int)
  | overrides
  | noTrackLayers
  | trackLayer (name drawn : String)
  | noLayerType
  | noLevels
  | levelGap (bot : Int)
  | note (text : String)
deriving DecidableEq

/-- The wording of a fault in rules. -/
def RuleFault.message : RuleFault → String
  | defaultPurpose name => s!"Cannot find default purpose: {name}"
  | pinPurpose name => s!"Cannot find pin purpose: {name}"
  | layer name => s!"Cannot find layer: {name}"
  | tableLists => "Spacing table width and space lists must be non-empty and of equal length"
  | dimension value => s!"Invalid dimension {RealFormat.message.render value}"
  | tableWidths => "Spacing table widths must be strictly ascending"
  | tableSpaces => "Spacing table spaces must be non-decreasing"
  | viaUnlisted id => s!"Via rule {id} has no via_layers entry"
  | cutDim => "Via cut dimensions must be positive"
  | cutSpacing => "Via cut spacing must be non-negative"
  | noEnclosures => "Via enclosure rules must be non-empty"
  | enclosureWidth value => s!"Invalid enclosure width {RealFormat.message.render value}"
  | enclosureOrder => "Enclosure widths must be strictly ascending"
  | enclosureOptions => "Enclosure options must be non-empty and non-negative"
  | trackSizes => "Track width and space must be positive"
  | oddPitch pitch => s!"Track pitch {pitch} must be even"
  | overrides => "Width overrides must have positive track counts and widths"
  | noTrackLayers => "Track layers must be non-empty"
  | trackLayer name drawn => s!"Cannot resolve layer ({name}, {drawn})"
  | noLayerType => "Track layer has no layer type"
  | noLevels => "Routing grid has no levels"
  | levelGap bot => s!"Routing grid levels must be contiguous from {bot}"
  | note text => text

/-- A failure outside of the layout itself. -/
inductive ExternalFault where
  | unknownFormat (file : String)
  | unreadable
  | tooLarge
  | tooSmall
  | note (text : String)
deriving DecidableEq

namespace ExternalFault

/-- The text behind a failure outside of the layout. -/
def cause : ExternalFault → String
  | unknownFormat file => s!"Cannot infer serialization format for {file}"
  | unreadable => ""
  | tooLarge => "number too large to fit in target type"
  | tooSmall => "number too small to fit in target type"
  | note text => text

/-- The wording of a failure outside of the layout. -/
def message : ExternalFault → String
  | tooLarge => "TryFromIntError(PosOverflow)"
  | tooSmall => "TryFromIntError(NegOverflow)"
  | fault => "Error(" ++ Text.quoted fault.cause ++ ")"

end ExternalFault

/-- Why an operation on a layout fails. -/
inductive LayoutError where
  | notFound (wanted : Wanted) (key : String)
  | outOfRange (fault : RangeFault)
  | representation (fault : FormFault)
  | composition (fault : CompositionFault)
  | load (fault : RuleFault) (trail : List Place)
  | external (fault : ExternalFault)
  | note (text : String)
deriving DecidableEq

namespace LayoutError

/-- The wording of a failure. -/
def message : LayoutError → String
  | notFound wanted key => s!"Cannot find {wanted.word}: {key}"
  | outOfRange fault => s!"Out of Range: {fault.message}"
  | representation fault => s!"Representation Error: {fault.message}"
  | composition fault => s!"Composition Error: {fault.message}"
  | load fault trail =>
    "Load Error: \n - " ++ fault.message ++ " \n - [" ++ ", ".intercalate (trail.map Place.trail) ++ "]"
  | external fault => fault.message
  | note text => Text.quoted text

/-- The text behind a failure, for those that wrap another one. -/
def source? : LayoutError → Option String
  | external fault => some fault.cause
  | _ => none

end LayoutError

/-- A number as a 16-bit id, if it fits. -/
def LayoutError.narrow16 (i : Int) : Except LayoutError Int :=
  if i > 32767 then .error (.external .tooLarge)
  else if i < -32768 then .error (.external .tooSmall)
  else .ok i

end MaskLayout
