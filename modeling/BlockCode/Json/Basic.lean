import BlockCode.Number.Basic

namespace BlockCode

inductive Json where
  | null
  | bool (b : Bool)
  | integer (i : Int)
  | real (x : Number)
  | string (s : String)
  | array (items : List Json)
  | object (members : List (String × Json))
  deriving Inhabited

namespace Json

def get? (name : String) : Json → Option Json
  | .object members => members.lookup name
  | _ => none

def text? : Json → Option String
  | .string s => some s
  | _ => none

def flag? : Json → Option Bool
  | .bool b => some b
  | _ => none

def items? : Json → Option (List Json)
  | .array items => some items
  | _ => none

def members? : Json → Option (List (String × Json))
  | .object members => some members
  | _ => none

def int64? : Json → Option Int
  | .integer i => if -Int.pow 2 63 ≤ i ∧ i < Int.pow 2 63 then some i else none
  | _ => none

def natural? : Json → Option Nat
  | .integer (.ofNat n) => some n
  | _ => none

end Json

end BlockCode
