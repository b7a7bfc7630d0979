import BlockCode.ByName
import BlockCode.Json.Numeral

namespace BlockCode.Json

def isSpace (c : Char) : Bool := c == ' ' || c == '\t' || c == '\n' || c == '\r'

def skipSpace (cs : List Char) : List Char := cs.dropWhile isSpace

def hexDigit? (c : Char) : Option Nat :=
  if c.isDigit then some (c.toNat - '0'.toNat)
  else if 'a' ≤ c ∧ c ≤ 'f' then some (c.toNat - 'a'.toNat + 10)
  else if 'A' ≤ c ∧ c ≤ 'F' then some (c.toNat - 'A'.toNat + 10)
  else none

def hexUnit? (a b c d : Char) : Option Nat := do
  return ((← hexDigit? a) * 16 + (← hexDigit? b)) * 256 + ((← hexDigit? c) * 16 + (← hexDigit? d))

def escaped? : Char → Option Char
  | '"' => some '"'
  | '\\' => some '\\'
  | '/' => some '/'
  | 'b' => some '\x08'
  | 'f' => some '\x0c'
  | 'n' => some '\n'
  | 'r' => some '\r'
  | 't' => some '\t'
  | _ => none

def stringBody : List Char → Option (List Char × List Char)
  | [] => none
  | '"' :: cs => some ([], cs)
  | '\\' :: 'u' :: a :: b :: c :: d :: cs =>
    match hexUnit? a b c d with
    | none => none
    | some unit =>
      if 0xDC00 ≤ unit ∧ unit ≤ 0xDFFF then none
      else if 0xD800 ≤ unit ∧ unit ≤ 0xDBFF then
        match cs with
        | '\\' :: 'u' :: a :: b :: c :: d :: cs =>
          match hexUnit? a b c d with
          | none => none
          | some low =>
            if 0xDC00 ≤ low ∧ low ≤ 0xDFFF then
              let code := 0x10000 + (unit - 0xD800) * 0x400 + (low - 0xDC00)
              (stringBody cs).map fun (s, rest) => (Char.ofNat code :: s, rest)
            else none
        | _ => none
      else (stringBody cs).map fun (s, rest) => (Char.ofNat unit :: s, rest)
  | '\\' :: e :: cs =>
    match escaped? e with
    | none => none
    | some c => (stringBody cs).map fun (s, rest) => (c :: s, rest)
  | c :: cs =>
    if c == '\\' || c.toNat < 0x20 then none
    else (stringBody cs).map fun (s, rest) => (c :: s, rest)

def digits (cs : List Char) : Option (List Char × List Char) :=
  match cs.takeWhile Char.isDigit with
  | [] => none
  | ds => some (ds, cs.dropWhile Char.isDigit)

def wholeDigits (cs : List Char) : Option (List Char × List Char) := do
  let (ds, rest) ← digits cs
  if ds.head? = some '0' ∧ 1 < ds.length then none else some (ds, rest)

def fractionDigits : List Char → Option (Option (List Char) × List Char)
  | '.' :: cs => (digits cs).map fun (ds, rest) => (some ds, rest)
  | cs => some (none, cs)

def exponentDigits : List Char → Option (Option (Bool × List Char) × List Char)
  | [] => some (none, [])
  | c :: cs =>
    if c == 'e' || c == 'E' then
      let (down, cs) := match cs with
        | '-' :: cs => (true, cs)
        | '+' :: cs => (false, cs)
        | cs => (false, cs)
      (digits cs).map fun (ds, rest) => (some (down, ds), rest)
    else some (none, c :: cs)

def numeral (cs : List Char) : Option (Numeral × List Char) := do
  let (negative, cs) := match cs with
    | '-' :: cs => (true, cs)
    | cs => (false, cs)
  let (whole, cs) ← wholeDigits cs
  let (fraction, cs) ← fractionDigits cs
  let (exponent, cs) ← exponentDigits cs
  return (⟨negative, whole, fraction, exponent⟩, cs)

def number (cs : List Char) : Option (Json × List Char) := do
  let (n, rest) ← numeral cs
  return (← n.value?, rest)

def member (value : List Char → Option (Json × List Char)) (cs : List Char) :
    Option ((String × Json) × List Char) :=
  match skipSpace cs with
  | '"' :: cs => do
    let (name, cs) ← stringBody cs
    match skipSpace cs with
    | ':' :: cs =>
      let (v, cs) ← value cs
      return ((String.ofList name, v), cs)
    | _ => none
  | _ => none

/-- One item or more with commas between them, up to `close`; `n` bounds their number. -/
def items {α : Type} (item : List Char → Option (α × List Char)) (close : Char) :
    Nat → List Char → Option (List α × List Char)
  | 0, _ => none
  | n + 1, cs => do
    let (a, cs) ← item cs
    match skipSpace cs with
    | c :: cs =>
      if c == ',' then
        let (as, cs) ← items item close n cs
        return (a :: as, cs)
      else if c == close then return ([a], cs)
      else none
    | [] => none

def bracketed {α : Type} (item : List Char → Option (α × List Char)) (close : Char)
    (cs : List Char) : Option (List α × List Char) :=
  match skipSpace cs with
  | [] => none
  | c :: rest => if c == close then some ([], rest) else items item close cs.length cs

def value : Nat → List Char → Option (Json × List Char)
  | depth, cs =>
    match skipSpace cs with
    | 'n' :: 'u' :: 'l' :: 'l' :: cs => some (.null, cs)
    | 't' :: 'r' :: 'u' :: 'e' :: cs => some (.bool true, cs)
    | 'f' :: 'a' :: 'l' :: 's' :: 'e' :: cs => some (.bool false, cs)
    | '"' :: cs => (stringBody cs).map fun (s, rest) => (.string (String.ofList s), rest)
    | '[' :: cs =>
      match depth with
      | 0 => none
      | depth + 1 => (bracketed (value depth) ']' cs).map fun (vs, rest) => (.array vs, rest)
    | '{' :: cs =>
      match depth with
      | 0 => none
      | depth + 1 => (bracketed (member (value depth)) '}' cs).map fun (ms, rest) =>
          (.object (ByName.ofList ms).entries, rest)
    | cs => number cs

def maxDepth : Nat := 127

def parseList? (cs : List Char) : Option Json :=
  match value maxDepth cs with
  | some (v, rest) => if (skipSpace rest).isEmpty then some v else none
  | none => none

def parse? (s : String) : Option Json := parseList? s.toList

end BlockCode.Json
