import BlockCode.Document.Basic
import BlockCode.Text.Case
import BlockCode.Text.Integer
import BlockCode.Xml.Parser

namespace BlockCode

namespace Xml

def label (x : Xml) : String := Text.trim x.innerText

def fieldEntry (x : Xml) (name : String) : FieldEntry :=
  match x.attribute? "id" with
  | some id => .variable id x.label
  | none => if name = "VAR" then .variable x.label x.label else .plain (.text x.label)

def shapeSlot (x : Xml) : Slot :=
  let elseIfs := ((x.attribute? "elseif").bind Text.natural?).getD 0
  let hasElse := (x.attribute? "else").any fun v => v == "1" || Text.sameIgnoringCase "true" v
  .shape elseIfs hasElse

def caption (x : Xml) : Caption where
  id := x.attribute? "id"
  type := x.attribute? "type"
  disabled := (x.attribute? "disabled").any (Text.sameIgnoringCase "true")

mutual

def blockEntry : Xml → Entry
  | .element name attributes children =>
    .block (Xml.element name attributes children).caption (parts children)
  | .text _ => .malformed

def part : Xml → List (Slot × Option Entry)
  | .text _ => []
  | .element tag attributes children =>
    let x := Xml.element tag attributes children
    let name := (attributes.get? "name").getD ""
    match tag with
    | "field" => [(.field name (x.fieldEntry name), none)]
    | "value" => [(.value .value name, connection none children)]
    | "statement" => [(.statement .statement name, connection none children)]
    | "next" => [(.next, connection none children)]
    | "mutation" => [(x.shapeSlot, none)]
    | _ => []

def parts : List Xml → List (Slot × Option Entry)
  | [] => []
  | x :: rest => part x ++ parts rest

/-- The first block among some nodes, or else the last shadow block. -/
def connection (shadow : Option Entry) : List Xml → Option Entry
  | [] => shadow
  | x :: rest =>
    if x.isElement "block" then some (blockEntry x)
    else if x.isElement "shadow" then connection (some (blockEntry x)) rest
    else connection shadow rest

end

def top (x : Xml) : Top where
  entry := x.blockEntry
  x := (x.attribute? "x").bind Text.int64?
  y := (x.attribute? "y").bind Text.int64?

/-- A variable without an id goes by its name. -/
def variableEntry (x : Xml) : Option (String × String) :=
  some ((x.attribute? "id").getD x.label, x.label)

end Xml

namespace Document

def ofXml (x : Xml) : Document where
  variableEntries :=
    match x.children.find? (Xml.isElement "variables") with
    | some list => (list.children.filter (Xml.isElement "variable")).map Xml.variableEntry
    | none => []
  tops :=
    some ((x.children.filter fun c => c.isElement "block" || c.isElement "shadow").map Xml.top)

def readXml (source : String) : Except DocumentError Workspace :=
  match Xml.parse? source with
  | some x => (ofXml x).workspace
  | none => .error ⟨[], .notXml⟩

end Document

end BlockCode
