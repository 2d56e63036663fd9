import Mathlib.Order.Basic
import Mathlib.Algebra.Order.Ring.Int

/-!
# IEEE 754 binary64 values

`F64` is a binary64 value given by its bits.  The values that are not NaN compare as the integers
`ord`: the bits below the sign are monotone in the magnitude, and both zeros have magnitude `0`.

* `lt`, `le`, `eq` — the IEEE comparisons, all false as soon as one side is NaN;
* `le_iff`, `lt_iff`, `eq_iff` — the same as statements about `ord`;
* `scaleRound`, `ofRatio` — the product with a natural number rounded to an integer, and the quotient of
  two natural numbers, both through the nearest binary64 value with ties to even.
-/

set_option autoImplicit false

/-- A binary64 value, by its bits. -/
structure F64 where
  bits : UInt64
  deriving DecidableEq, Repr

namespace F64

/-- The bits below the sign. -/
def mag (x : F64) : Nat := x.bits.toNat % 2 ^ 63

def isNegative (x : F64) : Bool := decide (2 ^ 63 ≤ x.bits.toNat)

def isNan (x : F64) : Bool := decide (0x7FF0000000000000 < x.mag)

def isFinite (x : F64) : Bool := decide (x.mag < 0x7FF0000000000000)

/-- The place of a value that is not NaN in the order of such values. -/
def ord (x : F64) : Int := if x.isNegative then -(x.mag : Int) else x.mag

/-- `+0.0`. -/
def zero : F64 := ⟨0⟩

def lt (x y : F64) : Bool := !x.isNan && !y.isNan && decide (x.ord < y.ord)

def le (x y : F64) : Bool := !x.isNan && !y.isNan && decide (x.ord ≤ y.ord)

/-- IEEE equality: the two zeros are equal, NaN is not. -/
def eq (x y : F64) : Bool := !x.isNan && !y.isNan && decide (x.ord = y.ord)

/-- Mantissa and exponent of a finite value: its magnitude is `m * 2 ^ e`. -/
def parts (x : F64) : Nat × Int :=
  let exponent : Nat := x.mag / 2 ^ 52
  let fraction := x.mag % 2 ^ 52
  if exponent = 0 then (fraction, -1074) else (2 ^ 52 + fraction, exponent - 1075)

/-- `m * 2 ^ e` to the nearest value of at most 53 bits, ties to even. -/
def nearest (m : Nat) (e : Int) : Nat × Int :=
  let bits := m.log2 + 1
  if bits ≤ 53 then (m, e)
  else
    let shift := bits - 53
    let q := m / 2 ^ shift
    let r := m % 2 ^ shift
    let up := r > 2 ^ (shift - 1) ∨ r = 2 ^ (shift - 1) ∧ q % 2 = 1
    (if up then q + 1 else q, e + shift)

/-- `m * 2 ^ e` to the nearest integer, halves away from zero. -/
def roundHalfAway (m : Nat) (e : Int) : Nat :=
  if 0 ≤ e then m * 2 ^ e.toNat else (2 * m + 2 ^ (-e).toNat) / 2 ^ ((-e).toNat + 1)

/-- `(x * k).round() as i128` for a finite `x` and a factor `k` that is itself a binary64 value: the
product is rounded before it is rounded to an integer, and the cast saturates. -/
def scaleRound (x : F64) (k : Nat) : Int :=
  let (m, e) := x.parts
  let (m, e) := nearest (m * k) e
  let n := roundHalfAway m e
  if x.isNegative then -(min n (2 ^ 127) : Nat) else (min n (2 ^ 127 - 1) : Nat)

/-- `a as f64 / b as f64` for natural numbers below `2 ^ 53` with `b` not `0`. -/
def ofRatio (a b : Nat) : F64 :=
  if a = 0 then zero
  else
    -- enough bits of the quotient for the rounding, with a sticky bit for the rest
    let shift := 64 + b.log2
    let sticky := if a * 2 ^ shift % b = 0 then 0 else 1
    let (m, e) := nearest (2 * (a * 2 ^ shift / b) + sticky) (-(shift + 1 : Nat))
    let (m, e) := if m = 2 ^ 53 then (2 ^ 52, e + 1) else (m, e)
    ⟨UInt64.ofNat ((e + 1075).toNat * 2 ^ 52 + (m - 2 ^ 52))⟩

variable {x y : F64}

theorem lt_iff : x.lt y = true ↔ x.isNan = false ∧ y.isNan = false ∧ x.ord < y.ord := by
  simp [lt, and_assoc]

theorem le_iff : x.le y = true ↔ x.isNan = false ∧ y.isNan = false ∧ x.ord ≤ y.ord := by
  simp [le, and_assoc]

theorem eq_iff : x.eq y = true ↔ x.isNan = false ∧ y.isNan = false ∧ x.ord = y.ord := by
  simp [eq, and_assoc]

@[simp] theorem ord_zero : zero.ord = 0 := rfl

@[simp] theorem isNan_zero : zero.isNan = false := rfl

end F64
