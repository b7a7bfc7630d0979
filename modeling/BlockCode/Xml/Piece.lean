import BlockCode.Number.Read
import BlockCode.Xml.Name

namespace BlockCode.Xml

inductive Piece where
  | opening (name : QName) (attributes : List (QName × String)) (isEmpty : Bool)
  | closing (name : QName)
  | run (s : List Char) (plain : Bool)
  | cdata (s : List Char)
  | aside
  | doctype

def splitAt? (stop : List Char) : List Char → Option (List Char × List Char)
  | [] => none
  | c :: cs =>
    if stop.isPrefixOf (c :: cs) then some ([], (c :: cs).drop stop.length)
    else (splitAt? stop cs).map fun (before, after) => (c :: before, after)

def hexValue? (cs : List Char) : Option Nat :=
  cs.foldlM (fun n c =>
    if c.isDigit then some (16 * n + (c.toNat - '0'.toNat))
    else if 'a' ≤ c ∧ c ≤ 'f' then some (16 * n + (c.toNat - 'a'.toNat + 10))
    else if 'A' ≤ c ∧ c ≤ 'F' then some (16 * n + (c.toNat - 'A'.toNat + 10))
    else none) 0

def charAt? (n : Nat) : Option Char :=
  if n.isValidChar ∧ isChar (Char.ofNat n) then some (Char.ofNat n) else none

def reference? : List Char → Option Char
  | ['l', 't'] => some '<'
  | ['g', 't'] => some '>'
  | ['a', 'm', 'p'] => some '&'
  | ['a', 'p', 'o', 's'] => some '\''
  | ['q', 'u', 'o', 't'] => some '"'
  | '#' :: 'x' :: ds => if ds.isEmpty then none else (hexValue? ds).bind charAt?
  | '#' :: ds => if !ds.isEmpty && ds.all Char.isDigit then charAt? (digitsValue ds) else none
  | _ => none

def reference (cs : List Char) : Option (Char × List Char) :=
  match cs.dropWhile (· != ';') with
  | ';' :: rest => (reference? (cs.takeWhile (· != ';'))).map (·, rest)
  | _ => none

/--
Characters and references up to the first that `stop` accepts. The flag tells that no reference
occurred, and `n` bounds the number of steps.
-/
def characters (stop : Char → Bool) : Nat → List Char → Option (List Char × Bool × List Char)
  | 0, _ => none
  | _ + 1, [] => some ([], true, [])
  | n + 1, c :: cs =>
    if stop c then some ([], true, c :: cs)
    else if c == '&' then do
      let (r, cs) ← reference cs
      let (s, _, rest) ← characters stop n cs
      return (r :: s, false, rest)
    else if isChar c then do
      let (s, plain, rest) ← characters stop n cs
      return (c :: s, plain, rest)
    else none

def quoted (cs : List Char) : Option (String × List Char) :=
  match cs with
  | q :: cs =>
    if q == '"' || q == '\'' then do
      let (s, _, rest) ← characters (fun c => c == q || c == '<') (cs.length + 1) cs
      match rest with
      | c :: rest => if c == q then return (String.ofList s, rest) else none
      | [] => none
    else none
  | [] => none

def skipSpace (cs : List Char) : List Char := cs.dropWhile isSpace

def assignment (cs : List Char) : Option ((QName × String) × List Char) := do
  let (name, cs) ← qualifiedName cs
  match skipSpace cs with
  | '=' :: cs =>
    let (value, cs) ← quoted (skipSpace cs)
    return ((name, value), cs)
  | _ => none

def attributes : Nat → List Char → Option (List (QName × String) × Bool × List Char)
  | 0, _ => none
  | n + 1, cs =>
    match skipSpace cs with
    | '>' :: rest => some ([], false, rest)
    | '/' :: '>' :: rest => some ([], true, rest)
    | rest =>
      if cs.head?.any isSpace then do
        let (a, rest) ← assignment rest
        let (as, isEmpty, rest) ← attributes n rest
        return (a :: as, isEmpty, rest)
      else none

def openingTag (cs : List Char) : Option (Piece × List Char) := do
  let (name, cs) ← qualifiedName cs
  let (as, isEmpty, rest) ← attributes (cs.length + 1) cs
  return (.opening name as isEmpty, rest)

def closingTag (cs : List Char) : Option (Piece × List Char) := do
  let (name, cs) ← qualifiedName cs
  match skipSpace cs with
  | '>' :: rest => return (.closing name, rest)
  | _ => none

def comment (cs : List Char) : Option (Piece × List Char) := do
  let (s, rest) ← splitAt? ['-', '-'] cs
  match rest with
  | '>' :: rest => if s.all isChar then return (.aside, rest) else none
  | _ => none

def cdataSection (cs : List Char) : Option (Piece × List Char) := do
  let (s, rest) ← splitAt? [']', ']', '>'] cs
  if s.all isChar then return (.cdata s, rest) else none

def instruction (cs : List Char) : Option (Piece × List Char) := do
  let (s, rest) ← splitAt? ['?', '>'] cs
  let name := s.takeWhile isNameChar
  let reserved := name.map Char.toLower = ['x', 'm', 'l']
  if name.head?.any isNameStart && !reserved && s.all isChar &&
      (s.drop name.length).head?.all isSpace then
    return (.aside, rest)
  else none

def doctypeEnd : Option Char → List Char → Option (List Char)
  | _, [] => none
  | none, '>' :: cs => some cs
  | none, c :: cs => doctypeEnd (if c == '"' || c == '\'' then some c else none) cs
  | some q, c :: cs => doctypeEnd (if c == q then none else some q) cs

def textRun (cs : List Char) : Option (Piece × List Char) := do
  let raw := cs.takeWhile (· != '<')
  let (s, plain, rest) ← characters (· == '<') (cs.length + 1) cs
  if (splitAt? [']', ']', '>'] raw).isSome then none else return (.run s plain, rest)

def piece (cs : List Char) : Option (Piece × List Char) :=
  match cs with
  | '<' :: '/' :: cs => closingTag cs
  | '<' :: '?' :: cs => instruction cs
  | '<' :: '!' :: '-' :: '-' :: cs => comment cs
  | '<' :: '!' :: '[' :: 'C' :: 'D' :: 'A' :: 'T' :: 'A' :: '[' :: cs => cdataSection cs
  | '<' :: '!' :: 'D' :: 'O' :: 'C' :: 'T' :: 'Y' :: 'P' :: 'E' :: cs =>
    (doctypeEnd none cs).map (.doctype, ·)
  | '<' :: cs => openingTag cs
  | cs => textRun cs

def pieces : Nat → List Char → Option (List Piece)
  | _, [] => some []
  | 0, _ => none
  | n + 1, cs => do
    let (p, rest) ← piece cs
    return p :: (← pieces n rest)

end BlockCode.Xml
