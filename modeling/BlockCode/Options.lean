namespace BlockCode

structure Dialect where
  name : String
  reserved : List String

def rustWords : List String := [
  "as", "break", "const", "continue", "crate", "else", "enum", "extern", "false", "fn", "for",
  "if", "impl", "in", "let", "loop", "match", "mod", "move", "mut", "pub", "ref", "return",
  "self", "Self", "static", "struct", "super", "trait", "true", "type", "unsafe", "use",
  "where", "while", "async", "await", "dyn", "abstract", "become", "box", "do", "final",
  "macro", "override", "priv", "typeof", "unsized", "virtual", "yield", "try", "union",
  "Some", "None", "Ok", "Err", "Vec", "String", "Box", "Option", "Result", "main", "println"]

namespace Dialect

def rust : Dialect := ⟨"rust", rustWords⟩

def reserve (d : Dialect) (words : List String) : Dialect :=
  { d with reserved := d.reserved ++ words }

end Dialect

structure Options where
  before : Option String := none
  after : Option String := none
  trap : Option String := none
  developer : List String := []

namespace Options

def isInstrumented (o : Options) : Bool := o.before.isSome || o.after.isSome || o.trap.isSome

end Options

def quotedId (id : String) : List Char :=
  '"' :: (id.toList.flatMap fun c => if c == '\\' || c == '"' then ['\\', c] else [c]) ++ ['"']

def fillList (value : List Char) : List Char → List Char
  | '%' :: '1' :: cs => value ++ fillList value cs
  | c :: cs => c :: fillList value cs
  | [] => []

def fillTemplate (template id : String) : String :=
  String.ofList (fillList (quotedId id) template.toList)

end BlockCode
