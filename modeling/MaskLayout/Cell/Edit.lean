import MaskLayout.Cell.Hierarchy

/-!
# Edits

Changes of a cell. A change that fails still leaves a cell, so that what a failure leaves behind can be said.
-/

namespace MaskLayout

variable [PolygonLibrary]

/-- A change of a cell that answers an `α` or fails. Either way the cell goes on. -/
abbrev Edit (α : Type) := EStateM LayoutError Cell α

namespace Edit

/-- Make a check part of a change. -/
def check {α : Type} : Except LayoutError α → Edit α
  | .ok a => pure a
  | .error e => throw e

/-- Change the geometry of a key, which starts empty in the mode of the cell. If the change fails, the geometry is
there nevertheless. -/
def onLayer (key : LayerKey) (f : LayerGeometry → Except LayoutError LayerGeometry) : Edit Unit := do
  let c ← get
  let g := (c.layers.get? key).getD (.empty c.mode)
  set { c with layers := c.layers.insert key g }
  let g' ← check (f g)
  set { c with layers := c.layers.insert key g' }

/-- Draw a shape on a layer. -/
def draw (key : LayerKey) (s : Shape) (horiz : Bool) : Edit Unit :=
  onLayer key fun g => g.add s horiz

/-- Check that a cell may bind a master under an instance name: they share a technology, and the master is not more
general than the cell. -/
def checkMaster (name : String) (m : Master) : Edit Unit := do
  let c ← get
  if m.cell.tech ≠ c.tech then throw (.composition (.foreignMaster m.cell.name name))
  if c.mode < m.cell.mode then
    throw (.representation (.masterMode m.cell.mode m.cell.name c.mode c.name))

/-- Merge the shapes of the master of an instance, once for every element of the array. -/
def recordInstance (i : Instance) : Edit Unit :=
  match i.master with
  | .ref _ => pure ()
  | .bound m =>
    m.cell.layers.entries.forM fun (key, g) =>
      i.elements.forM fun t => onLayer key fun own => own.record g t

/-- The first `n` from `k` on for which the automatic name is not among the given ones, of which there are at most
`fuel`. -/
def freshIndex (names : List String) : Nat → Nat → Nat
  | 0, k => k
  | fuel + 1, k => if names.contains s!"X{k}" then freshIndex names fuel (k + 1) else k

/-- Take the next automatic instance name that is free. -/
def nextName : Edit String := do
  let c ← get
  let names := c.instanceMap.map (·.1)
  let k := freshIndex names names.length c.nameCount
  set { c with nameCount := k + 1 }
  return s!"X{k}"

/-- Put a list of drawn shapes in place of everything on a layer. -/
def stripLayer (key : LayerKey) : Edit Unit := do
  let c ← get
  match c.layers.get? key with
  | none => pure ()
  | some g =>
    let g' ← check g.withoutMasters
    set { c with layers := c.layers.insert key g' }

/-- Merge the shapes of all masters anew into the drawn ones. -/
def rebuild : Edit Unit := do
  let c ← get
  c.layers.keys.forM stripLayer
  c.instances.forM recordInstance

/-- Change the mode of the cell and of every geometry. A less general one is possible only while no geometry holds
anything. -/
def setMode (m : Mode) : Edit Unit := do
  let c ← get
  if m < c.mode ∧ c.layers.values.any (fun g => !g.isEmpty) then
    throw (.representation (.cellMode c.mode c.name m))
  c.layers.keys.forM fun key => onLayer key fun g => g.withMode m
  modify fun c => { c with mode := m }

/-- Rename the cell. -/
def setName (name : String) : Edit Unit := modify fun c => { c with name }

/-- Rename an instance. -/
def renameInstance (old new : String) : Edit Unit := do
  let c ← get
  if old = new then
    let _ ← check (c.theInstance old)
  else do
    if (c.instance? new).isSome then throw (.composition (.duplicateInstance new c.name))
    let i ← check (c.theInstance old)
    set ((c.withoutInstance old).withInstance new { i with name := new })

/-- Bind an instance to another master, whose shapes take the place of those of the old one. -/
def setMaster (name : String) (m : Master) : Edit Unit := do
  let c ← get
  let i ← check (c.theInstance name)
  checkMaster name m
  set (c.withInstance name (i.bind m))
  rebuild

/-- Set a parameter of an instance. -/
def setParam (name param : String) (value : ParamValue) : Edit Unit := do
  let c ← get
  let i ← check (c.theInstance name)
  let i' ← check (i.setParam param value)
  set (c.withInstance name i')

end Edit

end MaskLayout
