import BlockCode.ByName
import BlockCode.Render.Declarations
import BlockCode.Render.Loops
import BlockCode.Render.Statements

namespace BlockCode

abbrev Opening := Options → List Tree → Render Unit

structure Rulebook where
  rules : ByName Rule := {}
  opening : Option Opening := none

namespace Rulebook

def register (book : Rulebook) (type : String) (rule : Rule) : Rulebook :=
  { book with rules := book.rules.insert type rule }

def rule? (book : Rulebook) (type : String) : Option Rule := book.rules.get? type

def contains (book : Rulebook) (type : String) : Bool := book.rules.contains type

def types (book : Rulebook) : List String := book.rules.names

def withOpening (book : Rulebook) (opening : Option Opening) : Rulebook := { book with opening }

def builtinRules : List (String × Rule) := [
  ("controls_if", Rules.conditional),
  ("controls_ifelse", Rules.conditional),
  ("controls_repeat_ext", Rules.repetition),
  ("controls_repeat", Rules.repetition),
  ("controls_whileUntil", Rules.whileLoop),
  ("controls_for", Rules.countingLoop),
  ("controls_flow_statements", Rules.jump),
  ("logic_boolean", Rules.boolean),
  ("logic_null", Rules.nothing),
  ("logic_negate", Rules.negation),
  ("logic_compare", Rules.comparison),
  ("logic_operation", Rules.logicOperation),
  ("logic_ternary", Rules.choice),
  ("math_number", Rules.number),
  ("math_arithmetic", Rules.arithmetic),
  ("math_modulo", Rules.remainder),
  ("math_change", Rules.increment),
  ("text", Rules.text),
  ("text_print", Rules.print),
  ("variables_get", Rules.variableValue),
  ("variables_set", Rules.assignment)]

def builtin : Rulebook where
  rules := ByName.ofList builtinRules
  opening := some declareVariables

def describe (book : Rulebook) : String :=
  r"Registry { types: [" ++ ", ".intercalate (book.types.map Text.quote) ++ "], has_init: " ++
    (if book.opening.isSome then "true" else "false") ++ r" }"

end Rulebook

end BlockCode
