import BlockCode.Number.Basic

/-!
Writing numbers: the fewest decimal digits that read back, without an exponent. Of two shortest
decimals the nearer one is taken, and of two equally near ones the larger.
-/

namespace BlockCode.Number

def onGrid (units : Nat) : Int → Nat × Nat
  | .ofNat k => (units, one * Nat.pow 10 k)
  | .negSucc k => (units * Nat.pow 10 (k + 1), one)

/-- The multiple of `10 ^ k` beside `units` that reads back, if there is one. -/
def decimalAt? (units : Nat) (k : Int) : Option Nat :=
  let (n, d) := onGrid units k
  let low := n / d
  let readsBack (m : Nat) : Bool := ofDecimal false m k == .finite false units
  if readsBack low then
    if d ≤ 2 * (n % d) && readsBack (low + 1) then some (low + 1) else some low
  else if readsBack (low + 1) then some (low + 1)
  else none

def exactDecimal (units : Nat) : Nat × Int := (units * Nat.pow 5 1074, -1074)

def searchDecimal (units : Nat) : Nat → Int → Nat × Int
  | 0, _ => exactDecimal units
  | tries + 1, k =>
    match decimalAt? units k with
    | some m => (m, k)
    | none => searchDecimal units tries (k - 1)

/-- The shortest decimal `m · 10 ^ k` that reads back as a positive number of units. -/
def shortest (units : Nat) : Nat × Int :=
  let exponent : Int := units.log2 - 1074
  searchDecimal units 32 ((exponent + 2) * 301 / 1000 + 2)

def positional (m : Nat) : Int → List Char
  | .ofNat k => Nat.toDigits 10 m ++ List.replicate k '0'
  | .negSucc k =>
    let places := k + 1
    let digits := Nat.toDigits 10 m
    let padded := List.replicate (places + 1 - digits.length) '0' ++ digits
    let whole := padded.length - places
    padded.take whole ++ '.' :: padded.drop whole

def display : Number → String
  | .nan => "NaN"
  | .infinite negative => if negative then "-inf" else "inf"
  | .finite negative units =>
    let sign := if negative then ['-'] else []
    let digits := if units = 0 then ['0'] else
      let (m, k) := shortest units
      positional m k
    String.ofList (sign ++ digits)

/-- A number in generated code: a whole number below `10 ^ 15` is written as an integer. -/
def code (x : Number) : String :=
  match x.toInt? with
  | some i => if i.natAbs < Nat.pow 10 15 then toString i else x.display
  | none => x.display

end BlockCode.Number
