import BlockCode.Render.Expressions

namespace BlockCode.Rules

def assignment : Rule := fun s => do
  let value ← s.valueOr "VALUE" .assignment "0"
  let name ← s.variableName "VAR"
  return .statement (name ++ " = " ++ value ++ ";\n")

def increment : Rule := fun s => do
  let delta ← s.valueOr "DELTA" .assignment "0"
  let name ← s.variableName "VAR"
  return .statement (name ++ " += " ++ delta ++ ";\n")

def print : Rule := fun s => do
  match ← s.value? "TEXT" .loosest with
  | some message => return .statement ("println!(\"{}\", " ++ message ++ ");\n")
  | none => return .statement "println!();\n"

def braced (s : Site) (body : String) : String :=
  Text.line r"{" ++ (s.after?.map Text.indent).getD "" ++ body ++ r"}"

def armCount (s : Site) : Nat :=
  let bound := s.values.length + s.statements.length
  ((List.range bound).takeWhile fun n => s.declares ("IF" ++ toString (n + 1))).length + 1

def arm (s : Site) (n : Nat) : Render String := do
  let condition ← s.valueOr ("IF" ++ toString n) .loosest "false"
  let body ← s.branch ("DO" ++ toString n)
  return "if " ++ condition ++ " " ++ braced s body

def alternative (s : Site) : Render (List String) := do
  if s.declares "ELSE" || s.after?.isSome then return [braced s (← s.branch "ELSE")] else return []

def conditional : Rule := fun s => do
  let arms ← (List.range (armCount s)).mapM (arm s)
  let last ← alternative s
  return .instrumented (s.before?.getD "" ++ " else ".intercalate (arms ++ last) ++ "\n")

def jump : Rule := fun s => do
  let keyword ← match s.fieldText? "FLOW" with
    | some "BREAK" => pure "break"
    | some "CONTINUE" => pure "continue"
    | _ => throw (.missingInput s.head.type "FLOW")
  if ← Render.inLoop then return .statement (keyword ++ ";\n")
  else return .statement ("// " ++ keyword ++ " outside of a loop\n")

end BlockCode.Rules
