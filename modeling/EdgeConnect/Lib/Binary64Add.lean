import Mathlib.Algebra.BigOperators.Group.List.Basic
import Mathlib.Algebra.Order.Group.Int
import EdgeConnect.Lib.Binary64

/-!
# Addition of binary64 values

A finite binary64 value is a whole number of units `2 ^ -1074`, so a sum of two is one too: `add` rounds it.

* `units` — the units of a finite value; `ofUnits` — the nearest value to some units, ties to even, infinite past the
  largest finite one;
* `roundMag_unitsOf` — a magnitude is its own rounding;
* `add_exact`, `sum_exact` — a sum whose units are those of a finite value is that value: nothing is rounded.
-/

set_option autoImplicit false

namespace F64

/-- The magnitude of infinity. -/
def INFINITY_MAG : Nat := 0x7FF0000000000000

/-- A quiet NaN. -/
def nan : F64 := ⟨0x7FF8000000000000⟩

/-- The units `2 ^ -1074` of a finite value. -/
def units (x : F64) : Int :=
  let n : Nat := x.parts.1 * 2 ^ (x.parts.2 + 1074).toNat
  if x.isNegative then -n else n

/-- The magnitude nearest to `n` units.  A mantissa that is rounded up to the next binade carries into the exponent. -/
def roundMag (n : Nat) : Nat :=
  let (m, e) := nearest n 0
  min (e.toNat * 2 ^ 52 + m) INFINITY_MAG

/-- The value with a sign and a magnitude. -/
def ofMag (negative : Bool) (mag : Nat) : F64 := ⟨UInt64.ofNat ((if negative then 2 ^ 63 else 0) + mag)⟩

/-- The value nearest to `n` units; `negativeZero` is the sign of a zero. -/
def ofUnits (n : Int) (negativeZero : Bool) : F64 :=
  ofMag (if n = 0 then negativeZero else decide (n < 0)) (roundMag n.natAbs)

/-- `x + y`. -/
def add (x y : F64) : F64 :=
  if x.isNan || y.isNan then nan
  else if x.isFinite && y.isFinite then ofUnits (x.units + y.units) (x.isNegative && y.isNegative)
  else if x.isFinite then y
  else if !y.isFinite && x.isNegative ≠ y.isNegative then nan
  else x

/-- Some units are those of a finite value. -/
def Representable (n : Int) : Prop := ∃ x : F64, x.isFinite = true ∧ x.units = n

/-! ## A magnitude and its units -/

/-- The units of a magnitude. -/
def unitsOf (mag : Nat) : Nat :=
  if mag / 2 ^ 52 = 0 then mag else (2 ^ 52 + mag % 2 ^ 52) * 2 ^ (mag / 2 ^ 52 - 1)

variable {x y : F64} {mag : Nat}

theorem parts_units (x : F64) : x.parts.1 * 2 ^ (x.parts.2 + 1074).toNat = unitsOf x.mag := by
  unfold parts unitsOf
  simp only
  split
  · rename_i h
    have hsmall : x.mag < 2 ^ 52 := by omega
    rw [Nat.mod_eq_of_lt hsmall]
    exact Nat.mul_one _
  · rename_i h
    have hexp : ((x.mag / 2 ^ 52 : Nat) - 1075 + 1074 : Int).toNat = x.mag / 2 ^ 52 - 1 := by omega
    rw [← hexp]

theorem natAbs_units (x : F64) : x.units.natAbs = unitsOf x.mag := by
  unfold units
  rw [parts_units]
  simp only
  split <;> omega

/-- A mantissa that fits is not rounded. -/
theorem nearest_fits {n : Nat} (h : n < 2 ^ 53) : nearest n 0 = (n, 0) := by
  have hlog : n.log2 + 1 ≤ 53 := by
    by_cases hzero : n = 0
    · subst hzero
      decide
    · have hlt := (Nat.log2_lt hzero).mpr h
      omega
  unfold nearest
  exact if_pos hlog

/-- Nor is one that fits once its trailing zeros are shifted out. -/
theorem nearest_shifted {m shift : Nat} (hlow : 2 ^ 52 ≤ m) (hhigh : m < 2 ^ 53) :
    nearest (m * 2 ^ shift) 0 = (m, (shift : Int)) := by
  cases shift with
  | zero =>
    rw [Nat.pow_zero, Nat.mul_one]
    exact nearest_fits hhigh
  | succ k =>
    have hpos : 0 < 2 ^ (k + 1) := Nat.two_pow_pos _
    have hlog : (m * 2 ^ (k + 1)).log2 = 52 + (k + 1) := by
      rw [Nat.log2_eq_iff (Nat.mul_ne_zero (by omega) hpos.ne')]
      constructor
      · rw [Nat.pow_add]
        exact Nat.mul_le_mul_right _ hlow
      · rw [show 52 + (k + 1) + 1 = 53 + (k + 1) by omega, Nat.pow_add 2 53]
        exact Nat.mul_lt_mul_of_pos_right hhigh hpos
    have hshift : 52 + (k + 1) + 1 - 53 = k + 1 := by omega
    have hhalf : 0 < 2 ^ (k + 1 - 1) := Nat.two_pow_pos _
    unfold nearest
    simp only [hlog, hshift]
    rw [if_neg (by omega), Nat.mul_div_cancel _ hpos, Nat.mul_mod_left, if_neg (by omega), Int.zero_add]

/-- **A magnitude is its own rounding.** -/
theorem roundMag_unitsOf (h : mag < INFINITY_MAG) : roundMag (unitsOf mag) = mag := by
  unfold unitsOf
  by_cases hsub : mag / 2 ^ 52 = 0
  · have hsmall : mag < 2 ^ 52 := by omega
    rw [if_pos hsub, roundMag, nearest_fits (by omega)]
    simp only [Int.toNat_zero, Nat.zero_mul, Nat.zero_add]
    exact Nat.min_eq_left (Nat.le_of_lt h)
  · rw [if_neg hsub, roundMag, nearest_shifted (by omega) (by omega)]
    have hmag : (mag / 2 ^ 52 - 1) * 2 ^ 52 + (2 ^ 52 + mag % 2 ^ 52) = mag := by omega
    simp only [Int.toNat_natCast, hmag]
    exact Nat.min_eq_left (Nat.le_of_lt h)

/-! ## Values of a sign and a magnitude -/

theorem mag_lt (x : F64) : x.mag < 2 ^ 63 := Nat.mod_lt _ (by decide)

theorem toNat_ofMag (negative : Bool) (h : mag < 2 ^ 63) :
    (ofMag negative mag).bits.toNat = (if negative then 2 ^ 63 else 0) + mag := by
  unfold ofMag
  rw [UInt64.toNat_ofNat', Nat.mod_eq_of_lt]
  split <;> omega

theorem mag_ofMag (negative : Bool) (h : mag < 2 ^ 63) : (ofMag negative mag).mag = mag := by
  unfold F64.mag
  rw [toNat_ofMag negative h]
  split <;> omega

theorem isNegative_ofMag (negative : Bool) (h : mag < 2 ^ 63) : (ofMag negative mag).isNegative = negative := by
  unfold isNegative
  rw [toNat_ofMag negative h]
  cases negative with
  | true => exact decide_eq_true (Nat.le_add_right _ _)
  | false => exact decide_eq_false (by simp only [Bool.false_eq_true, if_false]; omega)

/-! ## Exact sums -/

/-- Units that are those of a finite value round to it. -/
theorem ofUnits_exact {n : Int} (h : Representable n) (negativeZero : Bool) :
    (ofUnits n negativeZero).isFinite = true ∧ (ofUnits n negativeZero).units = n := by
  obtain ⟨z, hfinite, rfl⟩ := h
  have hmag : roundMag z.units.natAbs = z.mag := by
    rw [natAbs_units]
    exact roundMag_unitsOf (of_decide_eq_true hfinite)
  unfold ofUnits
  rw [hmag]
  refine ⟨?_, ?_⟩
  · unfold isFinite
    rw [mag_ofMag _ z.mag_lt]
    exact hfinite
  · have habs : ∀ negative, (ofMag negative z.mag).units =
        if negative then -(unitsOf z.mag : Int) else unitsOf z.mag := by
      intro negative
      unfold units
      rw [parts_units, mag_ofMag _ z.mag_lt, isNegative_ofMag _ z.mag_lt]
    have hz := natAbs_units z
    rw [habs]
    by_cases hzero : z.units = 0
    · rw [if_pos hzero]
      split <;> omega
    · rw [if_neg hzero]
      by_cases hneg : z.units < 0
      · rw [decide_eq_true hneg, if_pos rfl]
        omega
      · rw [decide_eq_false hneg, if_neg Bool.false_ne_true]
        omega

theorem isNan_of_isFinite (h : x.isFinite = true) : x.isNan = false := by
  have hmag : x.mag < 0x7FF0000000000000 := of_decide_eq_true h
  exact decide_eq_false (by omega)

/-- **A sum that is representable is exact.** -/
theorem add_exact (hx : x.isFinite = true) (hy : y.isFinite = true) (h : Representable (x.units + y.units)) :
    (x.add y).isFinite = true ∧ (x.add y).units = x.units + y.units := by
  unfold add
  rw [isNan_of_isFinite hx, isNan_of_isFinite hy, hx, hy]
  exact ofUnits_exact h _

/-- **A sum whose partial sums are all representable is exact.** -/
theorem sum_exact : ∀ (xs : List F64) (acc : F64), acc.isFinite = true → (∀ x ∈ xs, x.isFinite = true) →
    (∀ n, Representable (acc.units + ((xs.take n).map units).sum)) →
    (xs.foldl add acc).isFinite = true ∧ (xs.foldl add acc).units = acc.units + (xs.map units).sum
  | [], acc, hacc, _, _ => ⟨hacc, (Int.add_zero _).symm⟩
  | x :: xs, acc, hacc, hxs, hsums => by
    have hfirst : Representable (acc.units + x.units) := by simpa using hsums 1
    obtain ⟨hfinite, hunits⟩ := add_exact hacc (hxs x List.mem_cons_self) hfirst
    obtain ⟨hrest, hsum⟩ := sum_exact xs (acc.add x) hfinite (fun y hy => hxs y (List.mem_cons_of_mem _ hy))
      fun n => by
        rw [hunits]
        simpa [Int.add_assoc] using hsums (n + 1)
    refine ⟨hrest, hsum.trans ?_⟩
    rw [hunits, List.map_cons, List.sum_cons, Int.add_assoc]

end F64
