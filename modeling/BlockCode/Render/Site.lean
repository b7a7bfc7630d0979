import BlockCode.Options
import BlockCode.Render.Level
import BlockCode.Render.Pass
import BlockCode.Text.Lines
import BlockCode.Workspace.Basic

/-!
What a rule sees of a block: its head, and for each of its inputs the means to generate the code of
what is connected there. Nothing is generated before a rule asks for it.
-/

namespace BlockCode

/-- What a rule makes of a block. Code that is `instrumented` has the options' code in it. -/
inductive Emission where
  | statement (code : String)
  | instrumented (code : String)
  | expression (fragment : Fragment)
  deriving DecidableEq, Repr

inductive BlockText where
  | statement (code : String)
  | expression (fragment : Fragment)
  deriving DecidableEq, Repr

structure Operand where
  type : String := ""
  disabled : Bool := false
  text : Render BlockText

structure Site where
  head : Head
  options : Options
  values : List (String × Option Operand) := []
  statements : List (String × Option (Render String)) := []

namespace Site

def declares (s : Site) (input : String) : Bool :=
  (s.values.lookup input).isSome || (s.statements.lookup input).isSome

def value? (s : Site) (input : String) (least : Level) : Render (Option String) :=
  match (s.values.lookup input).join with
  | none => return none
  | some operand =>
    if operand.disabled then return none
    else do
      match ← operand.text with
      | .expression f => return if f.code.isEmpty then none else some (f.splice least)
      | .statement _ => throw (.notExpression operand.type)

def valueOr (s : Site) (input : String) (least : Level) (default : String) : Render String := do
  return (← s.value? input least).getD default

def value (s : Site) (input : String) (least : Level) : Render String := do
  match ← s.value? input least with
  | some code => return code
  | none => throw (.missingInput s.head.type input)

def statementsOf (s : Site) (input : String) : Render String :=
  match (s.statements.lookup input).join with
  | none => return ""
  | some chain => chain

def branch (s : Site) (input : String) : Render String := do
  return Text.indent (← s.statementsOf input)

def instrument (s : Site) (template : String) : String :=
  Text.terminate (fillTemplate template s.head.id)

def before? (s : Site) : Option String := s.options.before.map s.instrument

def after? (s : Site) : Option String := s.options.after.map s.instrument

def trap? (s : Site) : Option String := s.options.trap.map s.instrument

def trapped (s : Site) (body : String) : String :=
  let lines (code? : Option String) : String := (code?.map Text.indent).getD ""
  lines s.after? ++ lines s.trap? ++ body ++ lines s.before?

def loopBranch (s : Site) (input : String) : Render String := do
  return s.trapped (← (s.branch input).asLoopBody)

def wrap (s : Site) (code : String) : String :=
  s.before?.getD "" ++ code ++ s.after?.getD ""

def fieldText? (s : Site) (name : String) : Option String := s.head.fieldText? name

def fieldNumber? (s : Site) (name : String) : Option Number := s.head.fieldNumber? name

def variableName (s : Site) (field : String) : Render String :=
  Render.nameFor ((s.fieldText? field).getD "") .variable

end Site

abbrev Rule := Site → Render Emission

end BlockCode
