import BlockCode.Xml.Basic
import BlockCode.Xml.Piece

namespace BlockCode.Xml

/-- Encoding labels that a declaration may give; a label is known by the part both have. -/
def encodings : List (List Char) :=
  ["utf-8".toList, "utf8".toList, "iso-8859-1".toList, "latin1".toList, "ascii".toList,
    "us-ascii".toList]

def knownEncoding (label : String) : Bool :=
  encodings.any fun e => (e.zip (label.toList.map Char.toLower)).all fun (a, b) => a == b

def validDeclaration : List (QName × String) → Bool
  | (⟨none, "version"⟩, v) :: parts =>
    (v == "1.0" || v == "1.1") &&
      match parts with
      | [] => true
      | [(⟨none, "encoding"⟩, e)] => knownEncoding e
      | [(⟨none, "standalone"⟩, s)] => s == "yes" || s == "no"
      | [(⟨none, "encoding"⟩, e), (⟨none, "standalone"⟩, s)] =>
        knownEncoding e && (s == "yes" || s == "no")
      | _ => false
  | _ => false

def declarationParts : Nat → List Char → Option (List (QName × String) × List Char)
  | 0, _ => none
  | n + 1, cs =>
    match skipSpace cs with
    | '?' :: '>' :: rest => some ([], rest)
    | rest =>
      if cs.head?.any isSpace then do
        let (a, rest) ← assignment rest
        let (as, rest) ← declarationParts n rest
        return (a :: as, rest)
      else none

def afterDeclaration? (cs : List Char) : Option (List Char) :=
  let cs := match cs with
    | '\ufeff' :: rest => rest
    | _ => cs
  match cs with
  | '<' :: '?' :: 'x' :: 'm' :: 'l' :: c :: rest =>
    if isSpace c then do
      let (parts, rest) ← declarationParts (rest.length + 2) (c :: rest)
      if validDeclaration parts then some rest else none
    else some cs
  | _ => some cs

structure Frame where
  name : QName
  attributes : ByName String
  spaces : List String
  children : List Xml

def Frame.close (f : Frame) : Xml := .element f.name.base f.attributes f.children.reverse

/--
What the pieces so far have built. `roots` is held in reverse, and `keepBlank` tells that a run of
spaces counts as text because a CDATA section with other characters stands right before it.
-/
structure Builder where
  stack : List Frame := []
  roots : List Xml := []
  hasDoctype : Bool := false
  keepBlank : Bool := false

namespace Builder

def add (b : Builder) (x : Xml) : Builder :=
  match b.stack with
  | [] => { b with roots := x :: b.roots }
  | f :: stack => { b with stack := { f with children := x :: f.children } :: stack }

def standardSpaces : List String := ["xml", "xmlns"]

def declared? : List (QName × String) → Option (List String)
  | [] => some []
  | (⟨some "xmlns", p⟩, uri) :: rest =>
    if standardSpaces.contains p || uri.isEmpty then none else (declared? rest).map (p :: ·)
  | (⟨none, "xmlns"⟩, uri) :: rest =>
    if standardSpaces.contains uri then none else declared? rest
  | _ :: rest => declared? rest

def isDeclaration (name : QName) : Bool :=
  name.space == some "xmlns" || (name.space.isNone && name.base == "xmlns")

def open? (b : Builder) (name : QName) (as : List (QName × String)) : Option Frame := do
  let outer := match b.stack with
    | [] => standardSpaces
    | f :: _ => f.spaces
  let spaces := (← declared? as) ++ outer
  let plain := as.filter fun a => !isDeclaration a.1
  let bound (n : QName) : Bool := n.space.all spaces.contains
  if name.space.any standardSpaces.contains then none
  else if !bound name || !(plain.all fun a => bound a.1) then none
  else if !(decide (plain.map Prod.fst).Nodup) then none
  else
    let attributes := ByName.ofList (plain.map fun a => (a.1.base, a.2))
    return ⟨name, attributes, spaces, []⟩

def step? (b : Builder) : Piece → Option Builder
  | .opening name as isEmpty => do
    let f ← b.open? name as
    let b := { b with keepBlank := false }
    if isEmpty then return b.add f.close else return { b with stack := f :: b.stack }
  | .closing name =>
    match b.stack with
    | f :: stack =>
      if f.name = name then some (add { b with stack := stack, keepBlank := false } f.close)
      else none
    | [] => none
  | .run s plain =>
    let blank := s.all isSpace
    if b.stack.isEmpty then if blank && plain then some b else none
    else if blank && !b.keepBlank then some b
    else some { b.add (.text (String.ofList s)) with keepBlank := false }
  | .cdata s =>
    if b.stack.isEmpty then none
    else some { b.add (.text (String.ofList s)) with keepBlank := !s.all isSpace }
  | .aside => some { b with keepBlank := false }
  | .doctype =>
    if b.hasDoctype || !b.roots.isEmpty || !b.stack.isEmpty then none
    else some { b with hasDoctype := true }

def finish? (b : Builder) : Option Xml :=
  if b.stack.isEmpty then b.roots.getLast? else none

end Builder

def parseList? (cs : List Char) : Option Xml := do
  let cs ← afterDeclaration? cs
  let ps ← pieces cs.length cs
  let b ← ps.foldlM Builder.step? {}
  b.finish?

def parse? (s : String) : Option Xml := parseList? s.toList

end BlockCode.Xml
