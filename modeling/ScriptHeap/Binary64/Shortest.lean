import ScriptHeap.Binary64.Rounding
/-!
# The fewest digits that read back

* `Binary64.neighbours`    the two decimals of `n` digits around a finite magnitude;
* `Binary64.pick?`         of two decimals one that reads back;
* `Binary64.ofDigits?`     the nearer of those that read back, the even one when both are as near;
* `Binary64.shortest`      the first such decimal for 1, 2, … 17 digits, the exact value otherwise;
* `Binary64.readsBack_of_ofDigits?`   what is chosen reads back as the same code.
-/

namespace ScriptHeap

namespace Binary64

def readsBack (c : Nat) (d : Decimal) : Bool := codeOfTrimmed d.trim == some c

/-- the exponent of ten of the leading digit of a positive magnitude; the least is -324 -/
def leadingExponent (c : Nat) : Int :=
  ((Nat.toDigits 10 (units c * Nat.pow 10 324 / unitsPerOne)).length : Int) - 325

/-- a magnitude over `10 ^ exponent`, as a numerator and a denominator -/
def scaled (c : Nat) : Int → Nat × Nat
  | .ofNat e => (units c, unitsPerOne * Nat.pow 10 e)
  | .negSucc e => (units c * Nat.pow 10 (e + 1), unitsPerOne)

/-- two adjacent decimals, and whether the lower is to be taken when both read back -/
structure Neighbours where
  low : Decimal
  high : Decimal
  preferLow : Bool

def neighbours (c n : Nat) : Neighbours :=
  let e := leadingExponent c - n + 1
  let (num, den) := scaled c e
  let low := num / den
  let rest := 2 * (num % den)
  ⟨⟨low, e⟩, ⟨low + 1, e⟩, rest < den || (rest == den && low % 2 == 0)⟩

/-- of two decimals the one that reads back, the preferred one if both do -/
def pick? (c : Nat) (low high : Decimal) (preferLow : Bool) : Option Decimal :=
  match readsBack c low, readsBack c high with
  | true, true => some (if preferLow then low else high)
  | true, false => some low
  | false, true => some high
  | false, false => none

/-- a decimal of `n` digits that reads back, the nearer if there are two -/
def ofDigits? (c n : Nat) : Option Decimal :=
  pick? c (neighbours c n).low (neighbours c n).high (neighbours c n).preferLow

def exactDecimal (c : Nat) : Decimal := ⟨units c * Nat.pow 5 1074, -1074⟩

/-- the shortest decimal of a finite magnitude, with no trailing zero -/
def shortest (c : Nat) : Decimal :=
  if c = 0 then ⟨0, 0⟩
  else (((List.range' 1 17).findSome? (ofDigits? c)).getD (exactDecimal c)).trim

theorem readsBack_of_pick? {c : Nat} {low high d : Decimal} {preferLow : Bool}
    (h : pick? c low high preferLow = some d) : readsBack c d = true := by
  unfold pick? at h
  cases hl : readsBack c low <;> cases hh : readsBack c high <;> cases preferLow <;>
    simp_all

theorem readsBack_of_ofDigits? {c n : Nat} {d : Decimal} (h : ofDigits? c n = some d) :
    readsBack c d = true := by
  rw [ofDigits?] at h
  exact readsBack_of_pick? h

end Binary64

end ScriptHeap
