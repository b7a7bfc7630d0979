import BlockCode.Render.Site
import BlockCode.Text.Literal

namespace BlockCode.Rules

def expression (code : String) (level : Level) : Emission := .expression ⟨code, level⟩

def boolean : Rule := fun s =>
  let isTrue := s.fieldText? "BOOL" == some "TRUE" || s.fieldText? "BOOL" == some "true"
  return expression (if isTrue then "true" else "false") .atomic

def nothing : Rule := fun _ => return expression "None" .atomic

def negation : Rule := fun s => do
  let operand ← s.valueOr "BOOL" .unary "true"
  return expression ("!" ++ operand) .unary

def comparisonSign : Option String → String
  | some "NEQ" => "!="
  | some "LT" => "<"
  | some "LTE" => "<="
  | some "GT" => ">"
  | some "GTE" => ">="
  | _ => "=="

def operatorCode (a sign b : String) : String := a ++ " " ++ sign ++ " " ++ b

/-- Comparisons do not chain, so that both sides bind more tightly. -/
def comparison : Rule := fun s => do
  let sign := comparisonSign (s.fieldText? "OP")
  let a ← s.valueOr "A" Level.comparison.tighter "0"
  let b ← s.valueOr "B" Level.comparison.tighter "0"
  return expression (operatorCode a sign b) .comparison

/-- What stands for a missing operand leaves the other one as it is; two missing ones are false. -/
def connective (sign identity : String) (level : Level) : Rule := fun s => do
  let a ← s.value? "A" level
  let b ← s.value? "B" level.tighter
  let code := match a, b with
    | none, none => operatorCode "false" sign "false"
    | a, b => operatorCode (a.getD identity) sign (b.getD identity)
  return expression code level

def logicOperation : Rule := fun s =>
  if s.fieldText? "OP" == some "OR" then connective "||" "false" .disjunction s
  else connective "&&" "true" .conjunction s

def choice : Rule := fun s => do
  let condition ← s.valueOr "IF" .loosest "false"
  let yes ← s.valueOr "THEN" .loosest "None"
  let no ← s.valueOr "ELSE" .loosest "None"
  return expression ("if " ++ condition ++ r" { " ++ yes ++ r" } else { " ++ no ++ r" }")
    .assignment

def numberFragment (x : Number) : Fragment :=
  match x with
  | .nan => ⟨"f64::NAN", .atomic⟩
  | .infinite false => ⟨"f64::INFINITY", .atomic⟩
  | .infinite true => ⟨"-f64::INFINITY", .unary⟩
  | .finite .. => ⟨x.code, if x.lt .zero then .unary else .atomic⟩

def number : Rule := fun s =>
  return .expression (numberFragment ((s.fieldNumber? "NUM").getD .zero))

def leftOperator (left right sign : String) (level : Level) : Rule := fun s => do
  let a ← s.valueOr left level "0"
  let b ← s.valueOr right level.tighter "0"
  return expression (operatorCode a sign b) level

def power : Rule := fun s => do
  let a ← s.valueOr "A" .loosest "0"
  let b ← s.valueOr "B" .loosest "0"
  return expression ("f64::powf(" ++ a ++ ", " ++ b ++ ")") .call

def arithmetic : Rule := fun s =>
  match s.fieldText? "OP" with
  | some "POWER" => power s
  | some "MINUS" => leftOperator "A" "B" "-" .additive s
  | some "MULTIPLY" => leftOperator "A" "B" "*" .multiplicative s
  | some "DIVIDE" => leftOperator "A" "B" "/" .multiplicative s
  | _ => leftOperator "A" "B" "+" .additive s

def remainder : Rule := leftOperator "DIVIDEND" "DIVISOR" "%" .multiplicative

def text : Rule := fun s =>
  return expression (Text.quote ((s.fieldText? "TEXT").getD "")) .atomic

def variableValue : Rule := fun s => do
  return expression (← s.variableName "VAR") .atomic

end BlockCode.Rules
