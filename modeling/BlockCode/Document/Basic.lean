import BlockCode.Document.Error
import BlockCode.Workspace.Basic

/-!
Documents of blocks, whatever format they were written in, and the workspace that a document
describes. A block is added after the blocks inside it, and all that is wrong with a document is
found in the order in which its parts are visited.
-/

namespace BlockCode

inductive FieldEntry where
  | plain (value : Field)
  | variable (id name : String)
  | fault (fault : DocumentFault)

/-- A part of a block's description. The parts that lead to a block come with one. -/
inductive Slot where
  | field (name : String) (entry : FieldEntry)
  | value (place : Place) (name : String)
  | statement (place : Place) (name : String)
  | next
  /-- The inputs of a block with that many further conditions, and an alternative or not. -/
  | shape (elseIfs : Nat) (hasElse : Bool)

structure Caption where
  id : Option String
  type : Option String
  disabled : Bool

inductive Entry where
  | malformed
  | block (caption : Caption) (parts : List (Slot × Option Entry))

structure Top where
  entry : Entry
  x : Option Int
  y : Option Int

structure Document where
  variableEntries : List (Option (String × String)) := []
  /-- The list is `none` if what should hold the blocks cannot. -/
  tops : Option (List Top) := some []

abbrev Build := StateT Workspace (Except DocumentError)

def Build.fail {α : Type} (fault : DocumentFault) : Build α := fun _ => .error ⟨[], fault⟩

def Build.within {α : Type} (step : DocumentStep) (act : Build α) : Build α := fun w =>
  match act w with
  | .ok r => .ok r
  | .error e => .error (e.within step)

def Workspace.madeUpId (w : Workspace) : String := "block" ++ toString (w.size + 1)

def Block.setField (b : Block) (name : String) (value : Field) : Block :=
  { b with fields := b.fields.insert name value }

def Block.setValue (b : Block) (name : String) (link : Option Nat) : Block :=
  { b with values := b.values.insert name link }

def Block.setStatement (b : Block) (name : String) (link : Option Nat) : Block :=
  { b with statements := b.statements.insert name link }

def Block.declareArm (b : Block) (n : Nat) : Block :=
  { b with
    values := b.values.insertNew ("IF" ++ toString n) none
    statements := b.statements.insertNew ("DO" ++ toString n) none }

def Block.declareShape (b : Block) (elseIfs : Nat) (hasElse : Bool) : Block :=
  let b := (List.range (elseIfs + 1)).foldl Block.declareArm b
  if hasElse then { b with statements := b.statements.insertNew "ELSE" none } else b

namespace Slot

def step (block : String) : Slot → DocumentStep
  | .field name _ => .field block name
  | .value place name => .input place block name
  | .statement place name => .input place block name
  | .next | .shape _ _ => .next block

def enter (b : Block) (link : Option Nat) : Slot → Build Block
  | .field name (.plain content) => return b.setField name content
  | .field name (.variable id shown) => do
    modify (·.addVariable id shown)
    return b.setField name (.variable id)
  | .field _ (.fault fault) => .fail fault
  | .value _ name => return b.setValue name link
  | .statement _ name => return b.setStatement name link
  | .next => return { b with next := link }
  | .shape elseIfs hasElse => return b.declareShape elseIfs hasElse

end Slot

mutual

def Entry.build : Entry → Build Nat
  | .malformed => .fail .notObject
  | .block caption parts => do
    let id := caption.id.getD (← get).madeUpId
    match caption.type with
    | none => .fail (.missingType id)
    | some type =>
      let b ← buildParts id parts { id, type, disabled := caption.disabled }
      modifyGet fun w => (w.size, w.add b)

def buildParts (id : String) : List (Slot × Option Entry) → Block → Build Block
  | [], b => return b
  | (slot, entry) :: parts, b => do
    let b ← (do slot.enter b (← buildLink entry)) |>.within (slot.step id)
    buildParts id parts b

def buildLink : Option Entry → Build (Option Nat)
  | none => return none
  | some entry => some <$> entry.build

end

namespace Top

/-- The coordinate of a block that has none: it comes after all others. -/
def lastCoordinate : Int := Int.pow 2 63 - 1

def row (t : Top) : Int := t.y.getD lastCoordinate

def column (t : Top) : Int := t.x.getD lastCoordinate

/-- Blocks on their own go from top to bottom, and from left to right at one height. -/
def before (a b : Top) : Bool :=
  a.row < b.row || (a.row == b.row && a.column ≤ b.column)

end Top

namespace Document

def addVariables : List (Option (String × String)) → Build Unit
  | [] => return
  | none :: _ => .fail .variableWithoutId
  | some (id, name) :: rest => do
    modify (·.addVariable id name)
    addVariables rest

def buildTops : List Top → Build (List (Top × Nat))
  | [] => return []
  | top :: tops => do
    let i ← top.entry.build
    return (top, i) :: (← buildTops tops)

def build (d : Document) : Build Unit := do
  addVariables d.variableEntries
  match d.tops with
  | none => .fail .blocksShape
  | some tops =>
    let placed ← buildTops tops
    let ordered := placed.mergeSort fun a b => a.1.before b.1
    modify fun w => { w with roots := ordered.map Prod.snd }

def workspace (d : Document) : Except DocumentError Workspace := do
  let (_, w) ← d.build.run {}
  return w

end Document

end BlockCode
