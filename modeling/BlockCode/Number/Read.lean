import BlockCode.Number.Basic

namespace BlockCode

def digitsValue (ds : List Char) : Nat :=
  ds.foldl (fun n c => 10 * n + (c.toNat - '0'.toNat)) 0

namespace Number

def readExponent? : List Char → Option Int
  | [] => some 0
  | e :: cs =>
    if e == 'e' || e == 'E' then
      match cs with
      | '-' :: ds => if digits ds then some (-digitsValue ds) else none
      | '+' :: ds => if digits ds then some (digitsValue ds) else none
      | ds => if digits ds then some (digitsValue ds) else none
    else none
where
  digits (ds : List Char) : Bool := !ds.isEmpty && ds.all Char.isDigit

def readDecimal? (negative : Bool) (cs : List Char) : Option Number :=
  let whole := cs.takeWhile Char.isDigit
  let rest := cs.dropWhile Char.isDigit
  let (fraction, rest) := match rest with
    | '.' :: cs => (cs.takeWhile Char.isDigit, cs.dropWhile Char.isDigit)
    | _ => ([], rest)
  if whole.isEmpty && fraction.isEmpty then none
  else (readExponent? rest).map fun e =>
    ofDecimal negative (digitsValue (whole ++ fraction)) (e - fraction.length)

def readMagnitude? (negative : Bool) (cs : List Char) : Option Number :=
  let word := cs.map Char.toLower
  if word = ['i', 'n', 'f'] || word = ['i', 'n', 'f', 'i', 'n', 'i', 't', 'y'] then
    some (.infinite negative)
  else if word = ['n', 'a', 'n'] then some .nan
  else readDecimal? negative cs

def readList? : List Char → Option Number
  | '-' :: cs => readMagnitude? true cs
  | '+' :: cs => readMagnitude? false cs
  | cs => readMagnitude? false cs

def read? (s : String) : Option Number := readList? s.toList

end Number

end BlockCode
