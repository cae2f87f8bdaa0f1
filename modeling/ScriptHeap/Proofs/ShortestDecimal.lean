import Mathlib.Tactic.Ring
import ScriptHeap.Binary64.Shortest
/-!
# The shortest decimal reads back

* `Binary64.units_eq`, `Binary64.nearestCode_units`   a magnitude is nearest to itself;
* `Decimal.trim_trim`  trimming twice is trimming once;
* `Binary64.Spells`    a decimal is exactly the magnitude of a code;
* `Binary64.codeOfTrimmed_of_spells`   such a decimal is read as the code;
* `Binary64.ofDecimal_shortest`   a finite double is read from its shortest decimal, with its sign.
-/

namespace ScriptHeap

/-! ## trimming -/

namespace Decimal

theorem trim_of_not_dvd {d : Decimal} (h : d.mantissa % 10 ≠ 0) : d.trim = d := by
  rw [trim]
  have hne : d.mantissa ≠ 0 := by
    intro heq
    rw [heq] at h
    exact h rfl
  rw [dif_neg hne, if_neg h]

theorem trim_of_dvd {d : Decimal} (hne : d.mantissa ≠ 0) (h : d.mantissa % 10 = 0) :
    d.trim = trim ⟨d.mantissa / 10, d.exponent + 1⟩ := by
  rw [trim, dif_neg hne, if_pos h]

/-- induction over the steps of trimming -/
theorem trim_induction {P : Decimal → Prop} (zero : ∀ e, P ⟨0, e⟩)
    (trimmed : ∀ d, d.mantissa % 10 ≠ 0 → P d)
    (step : ∀ d, d.mantissa ≠ 0 → d.mantissa % 10 = 0 → P ⟨d.mantissa / 10, d.exponent + 1⟩ → P d) :
    ∀ d, P d := by
  intro d
  induction d using trim.induct with
  | case1 d h =>
    obtain ⟨m, e⟩ := d
    obtain rfl : m = 0 := h
    exact zero e
  | case2 d hne h ih => exact step d hne h ih
  | case3 d hne h => exact trimmed d h

theorem trim_trim (d : Decimal) : d.trim.trim = d.trim := by
  induction d using trim_induction with
  | zero e => rw [trim_zero, trim_zero]
  | trimmed d h => rw [trim_of_not_dvd h, trim_of_not_dvd h]
  | step d hne h ih => rw [trim_of_dvd hne h, ih]

end Decimal

namespace Binary64

/-! ## magnitudes -/

/-- a magnitude by its significant bits and its shift; codes below `2 ^ 53` have no shift -/
theorem units_eq (c : Nat) :
    units c = (c - (c / 2 ^ 52 - 1) * 2 ^ 52) * 2 ^ (c / 2 ^ 52 - 1) := by
  show (if c < 2 ^ 52 then c else (2 ^ 52 + c % 2 ^ 52) * 2 ^ (c / 2 ^ 52 - 1)) = _
  split
  · next hlt =>
    rw [Nat.div_eq_of_lt hlt, Nat.zero_sub, Nat.zero_mul, Nat.sub_zero, Nat.pow_zero, Nat.mul_one]
  · congr 1
    omega

theorem units_zero : units 0 = 0 := rfl

theorem units_pos {c : Nat} (h : c ≠ 0) : 0 < units c := by
  rw [units_eq]
  exact Nat.mul_pos (by omega) (Nat.two_pow_pos _)

theorem log2_units (c : Nat) : (units c).log2 - 52 = c / 2 ^ 52 - 1 := by
  rw [units_eq]
  by_cases hc : c < 2 ^ 52
  · rw [Nat.div_eq_of_lt hc, Nat.zero_sub, Nat.zero_mul, Nat.sub_zero, Nat.pow_zero, Nat.mul_one]
    by_cases hzero : c = 0
    · rw [hzero, Nat.log2_zero]
    · have := (Nat.log2_lt hzero).mpr hc
      omega
  · have hpos := Nat.two_pow_pos (c / 2 ^ 52 - 1)
    have hle : 2 ^ 52 ≤ c - (c / 2 ^ 52 - 1) * 2 ^ 52 := by omega
    have hlt : c - (c / 2 ^ 52 - 1) * 2 ^ 52 < 2 ^ 53 := by omega
    have hlog : ((c - (c / 2 ^ 52 - 1) * 2 ^ 52) * 2 ^ (c / 2 ^ 52 - 1)).log2
        = 52 + (c / 2 ^ 52 - 1) := by
      rw [Nat.log2_eq_iff (Nat.ne_of_gt (Nat.mul_pos (by omega) hpos))]
      constructor
      · rw [Nat.pow_add]
        exact Nat.mul_le_mul_right _ hle
      · rw [Nat.add_right_comm, Nat.pow_add]
        exact Nat.mul_lt_mul_of_pos_right hlt hpos
    omega

/-- the exponent stands as a variable, so that the power is not computed -/
theorem unitsPerOne_eq {k : Nat} (hk : 1074 = k) : unitsPerOne = 2 ^ k := by
  unfold unitsPerOne
  rw [hk]
  exact Nat.pow_eq

theorem unitsPerOne_pos : 0 < unitsPerOne := by
  obtain ⟨k, hk⟩ : ∃ k, 1074 = k := ⟨_, rfl⟩
  rw [unitsPerOne_eq hk]
  exact Nat.two_pow_pos k

/-- a finite magnitude is below `2 ^ 1024`, which is `2 ^ 2098` units -/
theorem units_lt {c : Nat} (h : c < infinityCode) {j : Nat} (hj : 2098 ≤ j) : units c < 2 ^ j := by
  have hcode : c < 2047 * 2 ^ 52 := h
  have hlt : c - (c / 2 ^ 52 - 1) * 2 ^ 52 < 2 ^ 53 := by omega
  have hexp : 53 + (c / 2 ^ 52 - 1) ≤ j := by omega
  calc units c = (c - (c / 2 ^ 52 - 1) * 2 ^ 52) * 2 ^ (c / 2 ^ 52 - 1) := units_eq c
    _ < 2 ^ 53 * 2 ^ (c / 2 ^ 52 - 1) := Nat.mul_lt_mul_of_pos_right hlt (Nat.two_pow_pos _)
    _ = 2 ^ (53 + (c / 2 ^ 52 - 1)) := (Nat.pow_add ..).symm
    _ ≤ 2 ^ j := Nat.pow_le_pow_right Nat.two_pos hexp

/-- a magnitude is nearest to itself -/
theorem nearestCode_units (c : Nat) {den : Nat} (hden : 0 < den) :
    nearestCode (units c * den) den = c := by
  have hround : units c * den =
      (c - (c / 2 ^ 52 - 1) * 2 ^ 52) * (den * 2 ^ (c / 2 ^ 52 - 1)) := by
    rw [units_eq]
    ring
  have hpos : 0 < den * 2 ^ (c / 2 ^ 52 - 1) := Nat.mul_pos hden (Nat.two_pow_pos _)
  have hle : (c / 2 ^ 52 - 1) * 2 ^ 52 ≤ c := by omega
  show ((units c * den / den).log2 - 52) * 2 ^ 52 +
    roundHalfEven (units c * den) (den * 2 ^ ((units c * den / den).log2 - 52)) = c
  rw [Nat.mul_div_cancel _ hden, log2_units, hround, roundHalfEven_mul _ hpos]
  exact Nat.add_sub_cancel' hle

/-! ## exact decimals -/

/-- the decimal is exactly the magnitude of the code; the power of ten stands as a quotient -/
def Spells (c : Nat) (d : Decimal) : Prop := ∃ a b : Nat, d.exponent = (a : Int) - b ∧
  d.mantissa * 10 ^ a * unitsPerOne = units c * 10 ^ b

section
variable {c m e : Nat}

theorem Spells.of_nonneg (h : Spells c ⟨m, .ofNat e⟩) : m * 10 ^ e * unitsPerOne = units c := by
  obtain ⟨a, b, hexp, heq⟩ := h
  obtain rfl : a = e + b := by
    have : (e : Int) = a - b := hexp
    omega
  have hpos : 0 < 10 ^ b := Nat.pow_pos (by decide)
  refine Nat.eq_of_mul_eq_mul_right hpos (Eq.trans ?_ heq)
  ring

theorem Spells.of_neg (h : Spells c ⟨m, .negSucc e⟩) :
    m * unitsPerOne = units c * 10 ^ (e + 1) := by
  obtain ⟨a, b, hexp, heq⟩ := h
  obtain rfl : b = a + (e + 1) := by
    have : Int.negSucc e = a - b := hexp
    omega
  have hpos : 0 < 10 ^ a := Nat.pow_pos (by decide)
  refine Nat.eq_of_mul_eq_mul_right hpos (Eq.trans ?_ (heq.trans ?_)) <;> ring

theorem Spells.eq_zero {e : Int} (h : Spells c ⟨0, e⟩) : c = 0 := by
  obtain ⟨a, b, _, heq⟩ := h
  by_contra hc
  have hpos : 0 < units c * 10 ^ b := Nat.mul_pos (units_pos hc) (Nat.pow_pos (by decide))
  rw [← heq, Nat.zero_mul, Nat.zero_mul] at hpos
  exact Nat.lt_irrefl 0 hpos

theorem Spells.ne_zero {e : Int} (hm : m ≠ 0) (h : Spells c ⟨m, e⟩) : c ≠ 0 := by
  rintro rfl
  obtain ⟨a, b, _, heq⟩ := h
  rw [units_zero, Nat.zero_mul] at heq
  have hpos : 0 < m * 10 ^ a := Nat.mul_pos (Nat.pos_of_ne_zero hm) (Nat.pow_pos (by decide))
  exact Nat.ne_of_gt (Nat.mul_pos hpos unitsPerOne_pos) heq

theorem Spells.trim {d : Decimal} (h : Spells c d) : Spells c d.trim := by
  induction d using Decimal.trim_induction with
  | zero e =>
    obtain rfl := h.eq_zero
    rw [Decimal.trim_zero]
    exact ⟨0, 0, rfl, by rw [Nat.zero_mul, Nat.zero_mul, units_zero, Nat.zero_mul]⟩
  | trimmed d hd => rwa [Decimal.trim_of_not_dvd hd]
  | step d hne hd ih =>
    rw [Decimal.trim_of_dvd hne hd]
    obtain ⟨a, b, hexp, heq⟩ := h
    refine ih ⟨a + 1, b, ?_, ?_⟩
    · show d.exponent + 1 = ((a + 1 : Nat) : Int) - b
      omega
    · show d.mantissa / 10 * 10 ^ (a + 1) * unitsPerOne = units c * 10 ^ b
      rw [← heq, Nat.pow_succ', ← Nat.mul_assoc, Nat.div_mul_cancel (Nat.dvd_of_mod_eq_zero hd)]

/-- the power of ten of an exact decimal of a finite magnitude is not out of range above -/
theorem Spells.exponent_lt (hc : c < infinityCode) (hm : m ≠ 0) (h : Spells c ⟨m, .ofNat e⟩) :
    e < 310 := by
  obtain ⟨k, hk⟩ : ∃ k, 1074 = k := ⟨_, rfl⟩
  obtain ⟨n, hn⟩ : ∃ n, 11 = n := ⟨_, rfl⟩
  by_contra he
  -- `2 ^ 93` is just below `10 ^ 28`, so `2 ^ 1024` is below `10 ^ 310`
  have hten : 2 ^ (93 * n + 1) ≤ 10 ^ e := calc
    2 ^ (93 * n + 1) = (2 ^ 93) ^ n * 2 := by rw [Nat.pow_succ, Nat.pow_mul]
    _ ≤ (10 ^ 28) ^ n * 10 := Nat.mul_le_mul (Nat.pow_le_pow_left (by decide) n) (by decide)
    _ = 10 ^ (28 * n + 1) := by rw [Nat.pow_succ 10 (28 * n), Nat.pow_mul]
    _ ≤ 10 ^ e := Nat.pow_le_pow_right (by decide) (by omega)
  have hlt : units c < 2 ^ (93 * n + 1 + k) := units_lt hc (by omega)
  rw [← h.of_nonneg, unitsPerOne_eq hk, Nat.pow_add] at hlt
  have hle : 10 ^ e ≤ m * 10 ^ e := Nat.le_mul_of_pos_left _ (Nat.pos_of_ne_zero hm)
  exact absurd (Nat.lt_of_mul_lt_mul_right hlt) (Nat.not_lt.mpr (hten.trans hle))

/-- nor is it below, for a magnitude that is not zero -/
theorem Spells.le_log2 (hc : c ≠ 0) (h : Spells c ⟨m, .negSucc e⟩) :
    3 * (e + 1) ≤ m.log2 + 1081 := by
  obtain ⟨k, hk⟩ : ∃ k, 1074 = k := ⟨_, rfl⟩
  have heq := h.of_neg
  rw [unitsPerOne_eq hk] at heq
  have hle : 2 ^ (3 * (e + 1)) ≤ m * 2 ^ k := calc
    2 ^ (3 * (e + 1)) = 8 ^ (e + 1) := Nat.pow_mul 2 3 (e + 1)
    _ ≤ 10 ^ (e + 1) := Nat.pow_le_pow_left (by decide) _
    _ ≤ units c * 10 ^ (e + 1) := Nat.le_mul_of_pos_left _ (units_pos hc)
    _ = m * 2 ^ k := heq.symm
  have hlt : m * 2 ^ k < 2 ^ (m.log2 + 1 + k) := by
    rw [Nat.pow_add]
    exact Nat.mul_lt_mul_of_pos_right Nat.lt_log2_self (Nat.two_pow_pos k)
  have hexp := (Nat.pow_lt_pow_iff_right Nat.one_lt_two).mp (Nat.lt_of_le_of_lt hle hlt)
  omega

end

/-- an exact decimal is read as its code -/
theorem codeOfTrimmed_of_spells {c : Nat} {d : Decimal} (hc : c < infinityCode)
    (hd : Spells c d) : codeOfTrimmed d = some c := by
  obtain ⟨m, e⟩ := d
  unfold codeOfTrimmed
  by_cases hm : m = 0
  · subst hm
    rw [if_pos rfl, hd.eq_zero]
  · rw [if_neg hm]
    have hcne : c ≠ 0 := hd.ne_zero hm
    cases e with
    | ofNat e =>
      have hnear : nearestCode (m * Nat.pow 10 e * unitsPerOne) 1 = c := by
        have hcode := nearestCode_units c Nat.one_pos
        rwa [Nat.mul_one, ← hd.of_nonneg] at hcode
      simp only [if_neg (Nat.not_le.mpr (hd.exponent_lt hc hm)), hnear, if_pos hc]
    | negSucc e =>
      have hnear : nearestCode (m * unitsPerOne) (Nat.pow 10 (e + 1)) = c := by
        rw [hd.of_neg]
        exact nearestCode_units c (Nat.pow_pos (by decide))
      simp only [if_neg (Nat.not_lt.mpr (hd.le_log2 hcne)), hnear, if_pos hc]

/-- the exact value, which is taken when no short decimal reads back -/
theorem spells_exactDecimal (c : Nat) : Spells c (exactDecimal c) := by
  obtain ⟨k, hk⟩ : ∃ k, 1074 = k := ⟨_, rfl⟩
  refine ⟨0, k, ?_, ?_⟩
  · show (-1074 : Int) = 0 - k
    omega
  · show units c * Nat.pow 5 1074 * 10 ^ 0 * unitsPerOne = units c * 10 ^ k
    rw [unitsPerOne_eq hk, hk, Nat.pow_zero, Nat.mul_one, Nat.mul_assoc]
    congr 1
    exact (Nat.mul_pow 5 2 k).symm

/-! ## the shortest decimal -/

theorem readsBack_iff {c : Nat} {d : Decimal} :
    readsBack c d = true ↔ codeOfTrimmed d.trim = some c := by
  rw [readsBack, beq_iff_eq]

theorem codeOfTrimmed_shortest {c : Nat} (hc : c < infinityCode) :
    codeOfTrimmed (shortest c).trim = some c := by
  unfold shortest
  by_cases hzero : c = 0
  · subst hzero
    rw [if_pos rfl, Decimal.trim_zero]
    rfl
  · rw [if_neg hzero, Decimal.trim_trim, ← readsBack_iff]
    cases hfind : (List.range' 1 17).findSome? (ofDigits? c) with
    | some d =>
      obtain ⟨n, _, hn⟩ := List.exists_of_findSome?_eq_some hfind
      exact readsBack_of_ofDigits? hn
    | none => exact readsBack_iff.mpr (codeOfTrimmed_of_spells hc (spells_exactDecimal c).trim)

/-- **A finite double is read from its shortest decimal**, with its sign -/
theorem ofDecimal_shortest {x : Binary64} (hx : x.isFinite = true) :
    ofDecimal x.negative (shortest x.code) = some x := by
  rw [ofDecimal, codeOfTrimmed_shortest (of_decide_eq_true hx), Option.map_some, ofCode_code]

/-- a shortest decimal has no trailing zero -/
theorem trim_shortest (c : Nat) : (shortest c).trim = shortest c := by
  unfold shortest
  split
  · exact Decimal.trim_zero 0
  · exact Decimal.trim_trim _

end Binary64

end ScriptHeap
