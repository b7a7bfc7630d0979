import BlockCode.Names

namespace BlockCode

inductive Event where
  | started (roots blocks : Nat)
  | emitting (type id : String)
  | named (category : Category) (key name : String)
  | distinct (category : Category) (hint name : String)
  | finished (definitions names : Nat)
  | replaced (type : String)
  | stage (task label : String) (step total : Nat)
  deriving DecidableEq, Repr

namespace Event

def message : Event → String
  | .started roots blocks =>
    "DEBUG generate: " ++ toString roots ++ " root block(s), " ++ toString blocks ++
      " block(s) total"
  | .emitting type id => "TRACE emit " ++ type ++ " (" ++ id ++ ")"
  | .named category key name =>
    "TRACE name table: " ++ category.label ++ " '" ++ key ++ "' -> '" ++ name ++ "'"
  | .distinct category hint name =>
    "TRACE name table: distinct " ++ category.label ++ " '" ++ hint ++ "' -> '" ++ name ++ "'"
  | .finished definitions names =>
    "DEBUG generate: " ++ toString definitions ++ " definition(s), " ++ toString names ++
      " identifier(s) assigned"
  | .replaced type => "DEBUG registry: overriding rule for '" ++ type ++ "'"
  | .stage task label step total =>
    "INFO " ++ task ++ ": " ++ label ++ " (" ++ toString step ++ "/" ++ toString total ++ ")"

end Event

end BlockCode
