/-!
Binary64 numbers as exact data. A finite number is a sign and a whole number of units of `2⁻¹⁰⁷⁴`,
the smallest positive magnitude, so that comparing, cutting off and reading are arithmetic on `Nat`.
-/

namespace BlockCode

inductive Number where
  | nan
  | infinite (negative : Bool)
  | finite (negative : Bool) (units : Nat)
  deriving DecidableEq, Repr, Inhabited

namespace Number

/-- The number of units in `1`. -/
def one : Nat := Nat.pow 2 1074

/-- The least magnitude in units that is too large to be finite. -/
def limit : Nat := Nat.pow 2 2098

def zero : Number := .finite false 0

/-- The quotient to the nearest whole number, and a half to the even one. -/
def roundDiv (n d : Nat) : Nat :=
  let q := n / d
  let r := n % d
  if 2 * r < d then q
  else if d < 2 * r then q + 1
  else if q % 2 = 0 then q else q + 1

/-- The distance between neighbouring magnitudes around `units`: 53 binary digits are kept. -/
def spacing (units : Nat) : Nat := Nat.pow 2 (units.log2 - 52)

def nearest (n d : Nat) : Nat :=
  let s := spacing (n / d)
  roundDiv n (d * s) * s

def ofUnits (negative : Bool) (units : Nat) : Number :=
  if units < limit then .finite negative units else .infinite negative

def ofRatio (negative : Bool) (n d : Nat) : Number :=
  ofUnits negative (nearest (n * one) d)

def ofDecimal (negative : Bool) (digits : Nat) (exponent : Int) : Number :=
  if digits = 0 then .finite negative 0
  else match exponent with
    | .ofNat e => if 400 ≤ e then .infinite negative else ofRatio negative (digits * Nat.pow 10 e) 1
    | .negSucc e =>
      if digits.log2 + 400 ≤ e then .finite negative 0
      else ofRatio negative digits (Nat.pow 10 (e + 1))

def ofInt (i : Int) : Number := ofRatio (i < 0) i.natAbs 1

def isFinite : Number → Bool
  | .finite _ _ => true
  | _ => false

/-- The place of a number in the order, in units; a value that is not a number has none. -/
def rank? : Number → Option Int
  | .nan => none
  | .infinite negative => some (if negative then -limit else limit)
  | .finite negative units => some (if negative then -units else units)

def lt (x y : Number) : Bool :=
  match x.rank?, y.rank? with
  | some a, some b => a < b
  | _, _ => false

def trunc : Number → Number
  | .finite negative units => .finite negative (units / one * one)
  | x => x

def toInt? : Number → Option Int
  | .finite negative units =>
    if units % one = 0 then
      let n : Int := units / one
      some (if negative then -n else n)
    else none
  | _ => none

end Number

end BlockCode
