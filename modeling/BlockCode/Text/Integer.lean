import BlockCode.Number.Read

namespace BlockCode.Text

def digitsNat? (ds : List Char) : Option Nat :=
  if !ds.isEmpty && ds.all Char.isDigit then some (digitsValue ds) else none

def int64? (s : String) : Option Int := do
  let i : Int ← match s.toList with
    | '-' :: ds => (digitsNat? ds).map fun n => -(n : Int)
    | '+' :: ds => (digitsNat? ds).map Int.ofNat
    | ds => (digitsNat? ds).map Int.ofNat
  if -Int.pow 2 63 ≤ i ∧ i < Int.pow 2 63 then some i else none

def natural? (s : String) : Option Nat := do
  let n ← match s.toList with
    | '+' :: ds => digitsNat? ds
    | ds => digitsNat? ds
  if n < Nat.pow 2 64 then some n else none

end BlockCode.Text
