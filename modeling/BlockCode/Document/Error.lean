namespace BlockCode

inductive Place where
  | input
  | value
  | statement
  deriving DecidableEq, Repr

def Place.label : Place → String
  | .input => "input"
  | .value => "value"
  | .statement => "statement"

inductive DocumentStep where
  | field (block name : String)
  | input (place : Place) (block name : String)
  | next (block : String)
  deriving DecidableEq, Repr

def DocumentStep.message : DocumentStep → String
  | .field block name => "Block '" ++ block ++ "' field '" ++ name ++ "'."
  | .input place block name => "Block '" ++ block ++ "' " ++ place.label ++ " '" ++ name ++ "'."
  | .next block => "Block '" ++ block ++ "' next."

inductive DocumentFault where
  | notJson
  | notXml
  | variableWithoutId
  | blocksShape
  | notObject
  | missingType (block : String)
  | variableFieldWithoutId
  | arrayField
  deriving DecidableEq, Repr

def DocumentFault.message : DocumentFault → String
  | .notJson => "Workspace is not valid JSON."
  | .notXml => "Workspace is not valid XML"
  | .variableWithoutId => "Variable entry missing 'id'."
  | .blocksShape => "'blocks' must be an array or an object with a 'blocks' array."
  | .notObject => "Block entry must be an object."
  | .missingType block => "Block '" ++ block ++ "' missing 'type'."
  | .variableFieldWithoutId => "Variable field missing 'id'."
  | .arrayField => "Array field values are not supported."

structure DocumentError where
  path : List DocumentStep := []
  fault : DocumentFault
  deriving DecidableEq, Repr

def DocumentError.within (step : DocumentStep) (e : DocumentError) : DocumentError :=
  { e with path := step :: e.path }

def DocumentError.message (e : DocumentError) : String :=
  ": ".intercalate (e.path.map DocumentStep.message ++ [e.fault.message])

end BlockCode
