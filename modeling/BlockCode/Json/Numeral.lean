import BlockCode.Json.Basic
import BlockCode.Number.Read

/-!
Numbers as JSON writes them. An integer that fits 64 bits is exact. Any other number is a 64-bit
significand and a power of ten, read by one rounded product or quotient, so that it need not be the
nearest number. A magnitude too large to be finite is refused.
-/

namespace BlockCode.Json

structure Numeral where
  negative : Bool
  whole : List Char
  fraction : Option (List Char)
  exponent : Option (Bool × List Char)

def digitValue (c : Char) : Nat := c.toNat - '0'.toNat

/-- The longest run of digits at the front whose value with `s` before it fits 64 bits. -/
def takeDigits (s : Nat) : List Char → Nat × List Char
  | [] => (s, [])
  | d :: ds =>
    let s' := 10 * s + digitValue d
    if s' < Nat.pow 2 64 then takeDigits s' ds else (s, d :: ds)

namespace Numeral

def significand (n : Numeral) : Nat × Int :=
  let (s, skipped) := takeDigits 0 n.whole
  let fraction := n.fraction.getD []
  let (s, unread) := takeDigits s fraction
  (s, skipped.length - (fraction.length - unread.length : Nat))

def powerOfTen (e : Nat) : Nat := Number.nearest (Nat.pow 10 e * Number.one) 1

/-- Divides by `10 ^ 308` while the exponent is below the table of powers of ten. -/
def reduce (units : Nat) (e : Nat) : Nat × Nat :=
  if h : 308 < e ∧ units ≠ 0 then
    reduce (Number.nearest (units * Number.one) (powerOfTen 308)) (e - 308)
  else (units, e)
termination_by e

def scale? (s : Nat) : Int → Option Nat
  | .ofNat e =>
    let units := Number.nearest (s * Number.one) 1
    if units = 0 then some 0
    else if 308 < e then none
    else
      let product := Number.nearest (units * powerOfTen e) Number.one
      if product < Number.limit then some product else none
  | .negSucc e =>
    let (units, e) := reduce (Number.nearest (s * Number.one) 1) (e + 1)
    if units = 0 then some 0
    else some (Number.nearest (units * Number.one) (powerOfTen e))

def real? (n : Numeral) : Option Number :=
  let (s, e) := n.significand
  let scaled (e : Int) : Option Number := (scale? s e).map (.finite n.negative)
  match n.exponent with
  | none => scaled e
  | some (down, ds) =>
    let written := digitsValue ds
    if written < Nat.pow 2 31 then scaled (if down then e - written else e + written)
    else if down || s = 0 then some (.finite n.negative 0)
    else none

def value? (n : Numeral) : Option Json :=
  match n.fraction, n.exponent with
  | none, none =>
    let i := digitsValue n.whole
    if n.negative then
      if 0 < i ∧ i ≤ Nat.pow 2 63 then some (.integer (-i)) else n.real?.map .real
    else if i < Nat.pow 2 64 then some (.integer i) else n.real?.map .real
  | _, _ => n.real?.map .real

end Numeral

end BlockCode.Json
