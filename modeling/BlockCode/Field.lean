import BlockCode.Number.Read
import BlockCode.Number.Show
import BlockCode.Text.Blank

namespace BlockCode

inductive Field where
  | text (s : String)
  | number (x : Number)
  | flag (b : Bool)
  | variable (id : String)
  deriving DecidableEq, Repr, Inhabited

namespace Field

def toText : Field → String
  | .text s => s
  | .number x => x.code
  | .flag b => if b then "true" else "false"
  | .variable id => id

def toNumber? : Field → Option Number
  | .text s => Number.read? (Text.trim s)
  | .number x => some x
  | .flag b => some (.ofInt (if b then 1 else 0))
  | .variable _ => none

def variableId? : Field → Option String
  | .variable id => some id
  | _ => none

end Field

end BlockCode
