import BlockCode.ByName
import BlockCode.Field

namespace BlockCode

structure Head where
  id : String
  type : String
  fields : ByName Field := {}
  disabled : Bool := false
  deriving DecidableEq, Repr, Inhabited

namespace Head

def field? (h : Head) (name : String) : Option Field := h.fields.get? name

def fieldText? (h : Head) (name : String) : Option String := (h.field? name).map Field.toText

def fieldNumber? (h : Head) (name : String) : Option Number :=
  (h.field? name).bind Field.toNumber?

end Head

/-- An input that is declared but not connected has the link `none`. -/
structure Block extends Head where
  values : ByName (Option Nat) := {}
  statements : ByName (Option Nat) := {}
  next : Option Nat := none
  deriving DecidableEq, Repr, Inhabited

namespace Block

def value? (b : Block) (input : String) : Option Nat := (b.values.get? input).join

def statement? (b : Block) (input : String) : Option Nat := (b.statements.get? input).join

def declares (b : Block) (input : String) : Bool :=
  b.values.contains input || b.statements.contains input

end Block

structure Workspace where
  blocks : Array Block := #[]
  roots : List Nat := []
  variableNames : List (String × String) := []
  deriving DecidableEq, Repr, Inhabited

namespace Workspace

def size (w : Workspace) : Nat := w.blocks.size

def add (w : Workspace) (b : Block) : Workspace := { w with blocks := w.blocks.push b }

def addRoot (w : Workspace) (i : Nat) : Workspace := { w with roots := w.roots ++ [i] }

def addVariable (w : Workspace) (id name : String) : Workspace :=
  if (w.variableNames.lookup id).isSome then w
  else { w with variableNames := w.variableNames ++ [(id, name)] }

def replace (w : Workspace) (i : Nat) (b : Block) : Workspace :=
  { w with blocks := w.blocks.setIfInBounds i b }

end Workspace

end BlockCode
