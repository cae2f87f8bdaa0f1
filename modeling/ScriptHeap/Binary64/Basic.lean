/-!
# Double-precision numbers

* `Binary64`           a double by its 64 bits, so that NaN payloads and the sign of zero are kept;
* `Binary64.code`      the bits below the sign: codes of finite magnitudes are ordered as the
                       magnitudes are;
* `Binary64.units`     a finite magnitude as a multiple of the least positive double `2 ^ -1074`;
* `Binary64.alike`     comparison as numbers: the zeros are alike, a NaN is unlike itself.
-/

namespace ScriptHeap

/-- a double-precision number, by its bits -/
structure Binary64 where
  bits : UInt64
deriving DecidableEq, Inhabited

namespace Binary64

/-- the sign bit, as a number -/
def signBit : Nat := Nat.pow 2 63

/-- the code of infinity; the codes below it are the finite magnitudes -/
def infinityCode : Nat := 2047 * Nat.pow 2 52

def code (x : Binary64) : Nat := x.bits.toNat % signBit

def negative (x : Binary64) : Bool := decide (signBit ≤ x.bits.toNat)

def isFinite (x : Binary64) : Bool := decide (x.code < infinityCode)
def isNaN (x : Binary64) : Bool := decide (infinityCode < x.code)

/-- the double with a given sign and code -/
def ofCode (negative : Bool) (code : Nat) : Binary64 :=
  ⟨UInt64.ofNat (code + if negative then signBit else 0)⟩

def alike (x y : Binary64) : Bool :=
  !x.isNaN && !y.isNaN && (x == y || (x.code == 0 && y.code == 0))

/-! ## codes -/

theorem code_ofCode {negative : Bool} {c : Nat} (h : c < signBit) :
    (ofCode negative c).code = c := by
  cases negative <;> simp [ofCode, code, signBit] at h ⊢ <;> omega

theorem ofCode_code (x : Binary64) : ofCode x.negative x.code = x := by
  obtain ⟨b⟩ := x
  have hb := b.toNat_lt
  have h : b.toNat % signBit + (if decide (signBit ≤ b.toNat) then signBit else 0) = b.toNat := by
    rw [show signBit = 2 ^ 63 from rfl]
    simp only [decide_eq_true_eq]
    split <;> omega
  rw [ofCode, code, Binary64.negative, h]
  simp

theorem isFinite_ofCode {negative : Bool} {c : Nat} (h : c < infinityCode) :
    (ofCode negative c).isFinite = true := by
  have : c < signBit := Nat.lt_trans h (by decide)
  simp [isFinite, code_ofCode this, h]

/-! ## magnitudes -/

def units (code : Nat) : Nat :=
  let hidden := Nat.pow 2 52
  if code < hidden then code else (hidden + code % hidden) * Nat.pow 2 (code / hidden - 1)

end Binary64

end ScriptHeap
