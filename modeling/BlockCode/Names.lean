import BlockCode.Text.Blank

namespace BlockCode

inductive Category where
  | variable
  | developer
  | procedure
  deriving DecidableEq, Repr

namespace Category

def defaultBase : Category → String
  | .variable => "var"
  | .developer => "dev_var"
  | .procedure => "func"

def label : Category → String
  | .variable => "Variable"
  | .developer => "DeveloperVariable"
  | .procedure => "Procedure"

end Category

def developerKey (name : String) : String := "dev:" ++ name

def isIdentifierChar (c : Char) : Bool := c.isAlphanum || c == '_'

def cleanHint (hint : String) : List Char :=
  (Text.trimList hint.toList).map fun c => if isIdentifierChar c then c else '_'

def safeName (hint : String) (category : Category) : String :=
  let cs := cleanHint hint
  if cs.all (· == '_') then category.defaultBase
  else if cs.head?.any Char.isDigit then "my_" ++ String.ofList cs
  else String.ofList cs

structure Names where
  reserved : List String := []
  hints : List (String × String) := []
  assigned : List ((Category × String) × String) := []
  used : List String := []
  deriving Inhabited

namespace Names

def isReserved (t : Names) (word : String) : Bool := t.reserved.contains word

def setHint (t : Names) (key hint : String) : Names := { t with hints := (key, hint) :: t.hints }

/-- Forgets the identifiers, but not the hints. -/
def reset (t : Names) : Names := { t with assigned := [], used := [] }

def count (t : Names) : Nat := t.used.length

def isTaken (t : Names) (name : String) : Bool := t.used.contains name || t.reserved.contains name

/-- The first free one of `base ++ k`, `base ++ (k + 1)` and so on, after at most `n` taken ones. -/
def freeFrom (t : Names) (base : String) : Nat → Nat → String
  | 0, k => base ++ toString k
  | n + 1, k =>
    if t.isTaken (base ++ toString k) then freeFrom t base n (k + 1) else base ++ toString k

def free (t : Names) (base : String) : String :=
  if t.isTaken base then t.freeFrom base (t.used.length + t.reserved.length) 2 else base

def use (t : Names) (name : String) : Names := { t with used := name :: t.used }

def distinct (t : Names) (hint : String) (category : Category) : String × Names :=
  let name := t.free (safeName hint category)
  (name, t.use name)

def find? (t : Names) (key : String) (category : Category) : Option String :=
  t.assigned.lookup (category, key)

def base (t : Names) (key : String) (category : Category) : String :=
  match t.hints.lookup key with
  | some hint => safeName hint category
  | none => category.defaultBase

def resolve (t : Names) (key : String) (category : Category) : String × Names :=
  match t.find? key category with
  | some name => (name, t)
  | none =>
    let name := t.free (t.base key category)
    (name, { t.use name with assigned := ((category, key), name) :: t.assigned })

end Names

end BlockCode
