import BlockCode.ByName

/-!
XML elements as far as documents of blocks need them. Names are local names, comments and processing
instructions are left out, and a text node is one run of characters or one CDATA section.
-/

namespace BlockCode

inductive Xml where
  | text (s : String)
  | element (name : String) (attributes : ByName String) (children : List Xml)
  deriving Inhabited

namespace Xml

def attribute? (name : String) : Xml → Option String
  | .element _ attributes _ => attributes.get? name
  | .text _ => none

def children : Xml → List Xml
  | .element _ _ children => children
  | .text _ => []

def isElement (name : String) : Xml → Bool
  | .element n _ _ => n == name
  | .text _ => false

def innerText (x : Xml) : String :=
  String.join (x.children.map fun
    | .text s => s
    | .element .. => "")

end Xml

end BlockCode
