namespace BlockCode.Xml

def isSpace (c : Char) : Bool := c == ' ' || c == '\t' || c == '\n' || c == '\r'

def isChar (c : Char) : Bool :=
  let n := c.toNat
  n == 0x9 || n == 0xA || n == 0xD || (0x20 ≤ n && n ≤ 0xD7FF) || (0xE000 ≤ n && n ≤ 0xFFFD) ||
    0x10000 ≤ n

def nameStartRanges : List (Nat × Nat) := [
  (0xC0, 0xD6), (0xD8, 0xF6), (0xF8, 0x2FF), (0x370, 0x37D), (0x37F, 0x1FFF), (0x200C, 0x200D),
  (0x2070, 0x218F), (0x2C00, 0x2FEF), (0x3001, 0xD7FF), (0xF900, 0xFDCF), (0xFDF0, 0xFFFD),
  (0x10000, 0xEFFFF)]

def isNameStart (c : Char) : Bool :=
  c.isAlpha || c == '_' || c == ':' ||
    nameStartRanges.any fun (first, last) => first ≤ c.toNat && c.toNat ≤ last

def isNameChar (c : Char) : Bool :=
  let n := c.toNat
  isNameStart c || c.isDigit || c == '-' || c == '.' || n == 0xB7 || (0x300 ≤ n && n ≤ 0x36F) ||
    (0x203F ≤ n && n ≤ 0x2040)

structure QName where
  space : Option String
  base : String
  deriving DecidableEq

def QName.ofList? (cs : List Char) : Option QName :=
  let first := cs.takeWhile (· != ':')
  match cs.dropWhile (· != ':') with
  | [] => if first.isEmpty then none else some ⟨none, String.ofList first⟩
  | _ :: second =>
    if first.isEmpty || second.isEmpty || second.contains ':' then none
    else some ⟨some (String.ofList first), String.ofList second⟩

def qualifiedName (cs : List Char) : Option (QName × List Char) :=
  match cs with
  | [] => none
  | c :: _ =>
    if isNameStart c then
      (QName.ofList? (cs.takeWhile isNameChar)).map (·, cs.dropWhile isNameChar)
    else none

end BlockCode.Xml
