import BlockCode.Render.Site
import BlockCode.Text.Word

namespace BlockCode.Rules

def isExponent : List Char → Bool
  | [] => true
  | e :: cs =>
    let ds := match cs with
      | '-' :: ds => ds
      | '+' :: ds => ds
      | ds => ds
    (e == 'e' || e == 'E') && !ds.isEmpty && ds.all Text.isDecimalDigit

def isFraction (cs : List Char) : Bool :=
  match cs with
  | '.' :: ds =>
    !(ds.takeWhile Text.isDecimalDigit).isEmpty && isExponent (ds.dropWhile Text.isDecimalDigit)
  | _ => isExponent cs

def isNumeral (cs : List Char) : Bool :=
  let ds := match cs with
    | '-' :: ds => ds
    | ds => ds
  !(ds.takeWhile Text.isDecimalDigit).isEmpty && isFraction (ds.dropWhile Text.isDecimalDigit)

def isSimple (code : String) : Bool :=
  let cs := code.toList
  (!cs.isEmpty && cs.all Text.isWordChar) || isNumeral cs

def forLoop (name range body : String) : String :=
  Text.line ("for " ++ name ++ " in " ++ range ++ r" {") ++ body ++ Text.line r"}"

def binding (name code : String) : String := "let " ++ name ++ " = " ++ code ++ ";\n"

/--
Code that may be repeated, and the lines that come before: code that is not simple is bound to a new
name.
-/
def hoist (hint code : String) : Render (String × String) := do
  if isSimple code then return (code, "")
  else
    let name ← Render.distinctName hint .variable
    return (name, binding name code)

/-- How often a loop is repeated; a number has its fraction cut off. -/
def repeatCount (s : Site) : Render String := do
  match s.head.field? "TIMES" with
  | some field =>
    let times := field.toNumber?.filter Number.isFinite
    return (times.getD .zero).trunc.code
  | none =>
    let code ← s.valueOr "TIMES" .assignment "0"
    match (Number.read? code).filter Number.isFinite with
    | some times => return times.trunc.code
    | none => return code

def repetition : Rule := fun s => do
  let times ← repeatCount s
  let name ← Render.distinctName "count" .variable
  let (bound, lines) ← hoist "repeat_end" times
  let body ← s.loopBranch "DO"
  return .statement (lines ++ forLoop name ("0.." ++ bound) body)

def whileLoop : Rule := fun s => do
  let isUntil := s.fieldText? "MODE" == some "UNTIL"
  let condition ← s.value? "BOOL" (if isUntil then .unary else .loosest)
  let body ← s.loopBranch "DO"
  let start := match condition with
    | none => "loop"
    | some c => if isUntil then "while !" ++ c else "while " ++ c
  return .statement (Text.line (start ++ r" {") ++ body ++ Text.line r"}")

def upward (start stop : String) : String := start ++ "..=" ++ stop

def downward (start stop : String) : String := "(" ++ stop ++ "..=" ++ start ++ ").rev()"

def inSteps (range step : String) : String :=
  if step = "1" then range
  else
    let grouped := if range.toList.head? = some '(' then range else "(" ++ range ++ ")"
    grouped ++ ".step_by(" ++ step ++ " as usize)"

def dropMinus (code : String) : String := String.ofList (code.toList.dropWhile (· == '-'))

/-- The code that a counting loop is made of; the step comes without its sign. -/
structure Counter where
  name : String
  start : String
  stop : String
  step : String
  body : String

def counter (s : Site) : Render Counter := do
  let name ← s.variableName "VAR"
  let start ← s.valueOr "FROM" Level.range.tighter "0"
  let stop ← s.valueOr "TO" Level.range.tighter "0"
  let step ← s.valueOr "BY" .cast "1"
  let body ← s.loopBranch "DO"
  return ⟨name, start, stop, dropMinus step, body⟩

namespace Counter

def fixed (k : Counter) (falls : Bool) : String :=
  let range := if falls then downward k.start k.stop else upward k.start k.stop
  forLoop k.name (inSteps range k.step) k.body

def chosen (k : Counter) : Render String := do
  let (start, startLines) ← hoist (k.name ++ "_start") k.start
  let (stop, stopLines) ← hoist (k.name ++ "_end") k.stop
  let (step, stepLines) ← hoist (k.name ++ "_step") k.step
  let range ← Render.distinctName (k.name ++ "_range") .variable
  let rising := inSteps (upward start stop) step
  let falling := inSteps (downward start stop) step
  let choose := Text.line ("let " ++ range ++ ": Box<dyn Iterator<Item = _>> = if " ++ start ++
    " <= " ++ stop ++ r" { Box::new(" ++ rising ++ r") } else { Box::new(" ++ falling ++ r") };")
  return startLines ++ stopLines ++ stepLines ++ choose ++ forLoop k.name range k.body

def loop (k : Counter) : Render String :=
  match Number.read? k.start, Number.read? k.stop with
  | some a, some b => return k.fixed (b.lt a)
  | _, _ => k.chosen

end Counter

def countingLoop : Rule := fun s => do
  let k ← counter s
  return .statement (← k.loop)

end BlockCode.Rules
