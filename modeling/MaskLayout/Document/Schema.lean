import MaskLayout.Document.Scalar
import MaskLayout.KeyMap

/-!
# Schemas

Schemas: the forms that documents are wanted in. A document that conforms is brought into one canonical form, with every
field of a record in its order, every number of the wanted kind, and the keys of maps ascending.
-/

namespace MaskLayout

/-- A field of a record: its name, its form, and the value it has where it is missing. -/
structure Field (σ : Type) where
  name : String
  form : σ
  default? : Option Doc

/-- The form of a document. -/
inductive Schema where
  | int (least most : Int)
  | real
  | bool
  | text
  /-- One of several words. -/
  | choice (words : List String)
  /-- A value of a form, or none. -/
  | optional (form : Schema)
  | list (item : Schema)
  /-- A list of at least one item. -/
  | someOf (item : Schema)
  /-- A list of two items. -/
  | pair (item : Schema)
  /-- A map from names. -/
  | named (value : Schema)
  /-- A map from integers. -/
  | numbered (least most : Int) (value : Schema)
  | record (fields : List (Field Schema))
  /-- One of several cases, each with its own form. -/
  | variant (cases : List (String × Schema))

/-- What documents of a format look like where formats differ. -/
structure Convention where
  /-- The integer that a key stands for. -/
  intKey? : DocKey → Option Int
  /-- Whether a document holds nothing. -/
  isNothing : Doc → Bool

namespace Schema

/-- A text, quoted or bare. -/
def text? : Doc → Option String
  | .text s => some s
  | .bare s => some s
  | _ => none

mutual

/-- The canonical form of a document, if it conforms. Records may also be lists of their fields in order, and fields
that they do not know are left out. -/
def conform (c : Convention) : Schema → Doc → Option Doc
  | .int least most, d => match d.meaning with
    | .int i => if least ≤ i ∧ i ≤ most then some (.int i) else none
    | _ => none
  | .real, d => match d.meaning with
    | .int i => some (.real (.ofInt i))
    | .real x => some (.real x)
    | _ => none
  | .bool, d => match d.meaning with
    | .bool b => some (.bool b)
    | _ => none
  | .text, d => (text? d).map .text
  | .choice words, d =>
    let word? := match d with
      | .map [(k, body)] => if c.isNothing body then some k.name else none
      | d => text? d
    (word?.filter words.contains).map .text
  | .optional form, d => match d.meaning with
    | .null => some .null
    | _ => conform c form d
  | .list item, d => match d with
    | .list ds => (ds.mapM (conform c item)).map .list
    | _ => none
  | .someOf item, d => match d with
    | .list [] => none
    | .list ds => (ds.mapM (conform c item)).map .list
    | _ => none
  | .pair item, d => match d with
    | .list [a, b] => do return .list [← conform c item a, ← conform c item b]
    | _ => none
  | .named value, d => match d with
    | .map es => do
      let es ← es.mapM fun (k, d) => do return (k.name, ← conform c value d)
      return .map ((KeyMap.ofList es).entries.map fun (k, d) => (.text k, d))
    | _ => none
  | .numbered least most value, d => match d with
    | .map es => do
      let inRange (i : Int) : Bool := decide (least ≤ i ∧ i ≤ most)
      let es ← es.mapM fun (k, d) => do return (← (c.intKey? k).filter inRange, ← conform c value d)
      return .map ((KeyMap.ofList es).entries.map fun (k, d) => (.int k, d))
    | _ => none
  | .record fields, d => match d with
    | .map es => (conformFields c es fields).map .map
    | .list ds => (conformRow c ds fields).map .map
    | _ => none
  | .variant cases, d => match d with
    | .map [(k, body)] => conformCase c k.name body cases
    | _ => none

/-- The fields of a record from entries, of which each field takes at most one. -/
def conformFields (c : Convention) (es : List (DocKey × Doc)) :
    List (Field Schema) → Option (List (DocKey × Doc))
  | [] => some []
  | ⟨name, form, default?⟩ :: fields => do
    let value ← match es.filter fun e => e.1.name == name with
      | [(_, d)] => conform c form d
      | [] => default?.or (if let .optional _ := form then some .null else none)
      | _ => none
    return (.text name, value) :: (← conformFields c es fields)

/-- The fields of a record from a row of values; only fields with a value of their own may be missing at its end. -/
def conformRow (c : Convention) : List Doc → List (Field Schema) → Option (List (DocKey × Doc))
  | [], [] => some []
  | _ :: _, [] => none
  | ds, ⟨name, form, default?⟩ :: fields => do
    let value ← match ds with
      | d :: _ => conform c form d
      | [] => default?
    return (.text name, value) :: (← conformRow c ds.tail fields)

/-- The case of a name, from its content. -/
def conformCase (c : Convention) (name : String) (body : Doc) : List (String × Schema) → Option Doc
  | [] => none
  | (n, form) :: cases =>
    if n = name then (conform c form body).map (.variant name) else conformCase c name body cases

end

/-- Whether a document of the form is one of several words or cases. -/
def isCase : Schema → Bool
  | .choice _ => true
  | .variant _ => true
  | _ => false

end Schema

end MaskLayout
