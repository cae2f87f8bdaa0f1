import ScriptHeap.Binary64.Basic
/-!
# Rounding to the nearest double

* `roundHalfEven`      a quotient of natural numbers to the nearest integer, ties to even;
* `Binary64.unitsPerOne`     how many units `2 ^ -1074` make one;
* `Binary64.nearestCode`   the code nearest to a ratio of units, with 53 significant bits;
* `Decimal`            a mantissa and a power of ten;
* `Decimal.trim`       the same number with no trailing zero in the mantissa;
* `Binary64.ofDecimal` the nearest double of a decimal, none beyond the finite ones.
-/

namespace ScriptHeap

/-- `num / den` to the nearest integer, a half to the even neighbour -/
def roundHalfEven (num den : Nat) : Nat :=
  let q := num / den
  let r := num % den
  if den < 2 * r ∨ (den = 2 * r ∧ q % 2 = 1) then q + 1 else q

theorem roundHalfEven_mul (q : Nat) {den : Nat} (h : 0 < den) :
    roundHalfEven (q * den) den = q := by
  simp only [roundHalfEven, Nat.mul_div_cancel _ h, Nat.mul_mod_left]
  rw [if_neg (by omega)]

/-- the number `mantissa * 10 ^ exponent` -/
structure Decimal where
  mantissa : Nat
  exponent : Int
deriving DecidableEq, Inhabited

namespace Decimal

/-- move the trailing zeros of the mantissa into the exponent; zero has exponent zero -/
def trim (d : Decimal) : Decimal :=
  if _h : d.mantissa = 0 then ⟨0, 0⟩
  else if d.mantissa % 10 = 0 then trim ⟨d.mantissa / 10, d.exponent + 1⟩
  else d
termination_by d.mantissa
decreasing_by exact Nat.div_lt_self (by omega) (by decide)

theorem trim_zero (e : Int) : trim ⟨0, e⟩ = ⟨0, 0⟩ := by rw [trim]; simp

/-- a zero more in the mantissa is one less in the exponent -/
theorem trim_mul_ten (m : Nat) (e : Int) : trim ⟨m * 10, e⟩ = trim ⟨m, e + 1⟩ := by
  by_cases h : m = 0
  · rw [h, Nat.zero_mul, trim_zero, trim_zero]
  · rw [trim]
    have h1 : ¬ m * 10 = 0 := by omega
    have h2 : m * 10 % 10 = 0 := by omega
    have h3 : m * 10 / 10 = m := by omega
    simp only [h1, h2, h3, dite_false, if_true]

theorem trim_mul_pow (m n : Nat) (e : Int) : trim ⟨m * Nat.pow 10 n, e⟩ = trim ⟨m, e + n⟩ := by
  induction n generalizing m e with
  | zero => simp
  | succ n ih =>
    have h : m * Nat.pow 10 (n + 1) = m * Nat.pow 10 n * 10 := (Nat.mul_assoc ..).symm
    rw [h, trim_mul_ten, ih]
    congr 2
    omega

end Decimal

namespace Binary64

/-- how many units make one -/
@[irreducible] def unitsPerOne : Nat := Nat.pow 2 1074

def nearestCode (num den : Nat) : Nat :=
  let shift := (num / den).log2 - 52
  shift * Nat.pow 2 52 + roundHalfEven num (den * Nat.pow 2 shift)

/-- the code nearest to a trimmed decimal; a power of ten that is far out of range is not computed -/
def codeOfTrimmed (d : Decimal) : Option Nat :=
  if d.mantissa = 0 then some 0
  else
    match d.exponent with
    | .ofNat e =>
      if 310 ≤ e then none
      else
        let c := nearestCode (d.mantissa * Nat.pow 10 e * unitsPerOne) 1
        if c < infinityCode then some c else none
    | .negSucc e =>
      if d.mantissa.log2 + 1081 < 3 * (e + 1) then some 0
      else
        let c := nearestCode (d.mantissa * unitsPerOne) (Nat.pow 10 (e + 1))
        if c < infinityCode then some c else none

def ofDecimal (negative : Bool) (d : Decimal) : Option Binary64 :=
  (codeOfTrimmed d.trim).map (ofCode negative)

theorem codeOfTrimmed_lt {d : Decimal} {c : Nat} (h : codeOfTrimmed d = some c) :
    c < infinityCode := by
  unfold codeOfTrimmed at h
  split at h
  · cases h; decide
  · split at h <;> split at h
    · cases h
    · simp only [Option.ite_none_right_eq_some, Option.some.injEq] at h; omega
    · cases h; decide
    · simp only [Option.ite_none_right_eq_some, Option.some.injEq] at h; omega

/-- a decimal is never read as an infinity or a NaN -/
theorem isFinite_ofDecimal {negative : Bool} {d : Decimal} {x : Binary64}
    (h : ofDecimal negative d = some x) : x.isFinite = true := by
  obtain ⟨c, hc, rfl⟩ := Option.map_eq_some_iff.mp h
  exact isFinite_ofCode (codeOfTrimmed_lt hc)

/-- the reading of a decimal hangs on its trimmed form only -/
theorem ofDecimal_trim_congr {negative : Bool} {d d' : Decimal} (h : d.trim = d'.trim) :
    ofDecimal negative d = ofDecimal negative d' := by rw [ofDecimal, h, ofDecimal]

end Binary64

end ScriptHeap
