import BlockCode.Document.Basic
import BlockCode.Json.Parser
import BlockCode.Text.Word

namespace BlockCode

def isStatementInput (name : String) : Bool :=
  let numbered (stem : String) : Bool :=
    stem.toList.isPrefixOf name.toList &&
      (name.toList.drop stem.length).all Text.isDecimalDigit
  numbered "DO" || name == "ELSE" || name == "STACK" || numbered "SUBSTACK"

namespace Json

def fieldEntry (name : String) : Json → FieldEntry
  | .string s => if name = "VAR" then .variable s s else .plain (.text s)
  | .integer i => .plain (.number (.ofInt i))
  | .real x => .plain (.number x)
  | .bool b => .plain (.flag b)
  | .null => .plain (.text "")
  | .array _ => .fault .arrayField
  | .object members =>
    let v := Json.object members
    match (v.get? "id").bind text? with
    | some id => .variable id (((v.get? "name").bind text?).getD id)
    | none => .fault .variableFieldWithoutId

def fieldParts (v : Json) : List (Slot × Option Entry) :=
  ((v.get? "fields").bind members?).getD [] |>.map fun (name, field) =>
    (.field name (field.fieldEntry name), none)

def inputSlot (name : String) : Slot :=
  if isStatementInput name then .statement .input name else .value .input name

def statementSlot (name : String) : Slot := .statement .statement name

def shapeParts (v : Json) : List (Slot × Option Entry) :=
  match v.get? "extraState" with
  | some (.object members) =>
    let extra := Json.object members
    let elseIfs := ((extra.get? "elseIfCount").bind natural?).getD 0
    let hasElse := ((extra.get? "hasElse").bind flag?).getD false
    [(.shape elseIfs hasElse, none)]
  | _ => []

def caption (v : Json) : Caption where
  id := (v.get? "id").bind text?
  type := (v.get? "type").bind text?
  disabled := (v.get? "enabled").bind flag? == some false ||
    (v.get? "disabled").bind flag? == some true

mutual

def blockEntry : Json → Entry
  | .object members =>
    let v := Json.object members
    .block v.caption <|
      v.fieldParts ++ inputsAt "inputs" inputSlot members ++
        inputsAt "statements" statementSlot members ++ v.shapeParts ++ nextAt members
  | _ => .malformed

/-- A value read as a connection: to a block of its own, or else to a shadow block. -/
def connection : Json → Option Entry
  | .object members =>
    match entryAt "block" members with
    | some entry => some entry
    | none => entryAt "shadow" members
  | _ => none

def entryAt (name : String) : List (String × Json) → Option Entry
  | [] => none
  | (n, v) :: rest => if name = n then some (blockEntry v) else entryAt name rest

def nextAt : List (String × Json) → List (Slot × Option Entry)
  | [] => []
  | (n, v) :: rest => if n = "next" then [(.next, connection v)] else nextAt rest

def inputsAt (name : String) (slot : String → Slot) :
    List (String × Json) → List (Slot × Option Entry)
  | [] => []
  | (n, v) :: rest => if name = n then inputParts slot v else inputsAt name slot rest

def inputParts (slot : String → Slot) : Json → List (Slot × Option Entry)
  | .object members => connections slot members
  | _ => []

def connections (slot : String → Slot) : List (String × Json) → List (Slot × Option Entry)
  | [] => []
  | (n, v) :: rest => (slot n, connection v) :: connections slot rest

end

def top (v : Json) : Top where
  entry := v.blockEntry
  x := (v.get? "x").bind int64?
  y := (v.get? "y").bind int64?

def variableEntry (v : Json) : Option (String × String) :=
  ((v.get? "id").bind text?).map fun id => (id, ((v.get? "name").bind text?).getD id)

end Json

namespace Document

def ofJson (v : Json) : Document where
  variableEntries := (((v.get? "variables").bind Json.items?).getD []).map Json.variableEntry
  tops :=
    match v.get? "blocks" with
    | none => some []
    | some (.array items) => some (items.map Json.top)
    | some (.object members) =>
      some ((((Json.object members).get? "blocks").bind Json.items?).getD [] |>.map Json.top)
    | some _ => none

def readJson (source : String) : Except DocumentError Workspace :=
  match Json.parse? source with
  | some v => (ofJson v).workspace
  | none => .error ⟨[], .notJson⟩

end Document

end BlockCode
