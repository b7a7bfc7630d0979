import BlockCode.Names
import BlockCode.Render.Event

namespace BlockCode

inductive Fault where
  | unknownType (type id : String)
  | missingInput (type input : String)
  | notExpression (type : String)
  | missingBlock
  | endless
  deriving DecidableEq, Repr

def Fault.message : Fault → String
  | .unknownType type id => "unknown block type '" ++ type ++ "' (block " ++ id ++ ")"
  | .missingInput type input =>
    "block '" ++ type ++ "' is missing required input '" ++ input ++ "'"
  | .notExpression type => "block '" ++ type ++ "' does not produce a value"
  | .missingBlock => "no block at this position"
  | .endless => "blocks in a circle"

structure Pass where
  names : Names
  definitions : List (String × String) := []
  loopDepth : Nat := 0
  events : Array Event := #[]
  deriving Inhabited

abbrev Render := ExceptT Fault (StateM Pass)

def putDefinition (key code : String) : List (String × String) → List (String × String)
  | [] => [(key, code)]
  | (k, c) :: rest => if k = key then (k, code) :: rest else (k, c) :: putDefinition key code rest

namespace Render

def report (e : Event) : Render Unit :=
  modify fun p => { p with events := p.events.push e }

def nameFor (key : String) (category : Category) : Render String := do
  let known := ((← get).names.find? key category).isSome
  let name ← modifyGet fun p =>
    let (name, names) := p.names.resolve key category
    (name, { p with names })
  unless known do report (.named category key name)
  return name

def distinctName (hint : String) (category : Category) : Render String := do
  let name ← modifyGet fun p =>
    let (name, names) := p.names.distinct hint category
    (name, { p with names })
  report (.distinct category hint name)
  return name

def define (key code : String) : Render Unit :=
  modify fun p => { p with definitions := putDefinition key code p.definitions }

def isDefined (key : String) : Render Bool :=
  return ((← get).definitions.lookup key).isSome

def inLoop : Render Bool := return 0 < (← get).loopDepth

/--
Runs an action as the body of a loop. The depth is the same afterwards, unless the run met a link
that leads nowhere.
-/
def asLoopBody {α : Type} (act : Render α) : Render α := fun p =>
  let (result, p) := act { p with loopDepth := p.loopDepth + 1 }
  match result with
  | .error .missingBlock => (result, p)
  | _ => (result, { p with loopDepth := p.loopDepth - 1 })

end Render

end BlockCode
