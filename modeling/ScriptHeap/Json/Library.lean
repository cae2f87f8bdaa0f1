import ScriptHeap.Json.Numeral
/-!
# The JSON library

* `JsonLibrary`        what reading leaves to a library: the double of a numeral, and how deep values
                       may nest;
* `JsonLibrary.number?`   the number that a numeral stands for;
* `JsonLibrary.ReadsBack`   the library reads every finite double from the text that it is written
                       with;
* `JsonLibrary.nearest`   a library that rounds to the nearest double.
-/

namespace ScriptHeap

/-- What reading leaves to a library. Nothing is said of how a numeral is rounded: a library that
reads some numerals as a neighbour of the nearest double is one too. Whatever rests on more than this
names it as a hypothesis. -/
structure JsonLibrary where
  /-- how many arrays and objects may be open at once -/
  nestingLimit : Nat
  /-- the double that a numeral is read as, none beyond the finite ones -/
  float? : Numeral → Option Binary64
  isFinite_of_float? : ∀ {n : Numeral} {x : Binary64}, float? n = some x → x.isFinite = true

namespace JsonLibrary

/-- without fraction and exponent an integer, if it fits a word and is no negative zero -/
def number? (lib : JsonLibrary) (n : Numeral) : Option Number :=
  match n.fraction, n.exponent with
  | none, none =>
    let m := Nat.ofDigitChars 10 n.whole 0
    if n.negative then
      if 0 < m ∧ m ≤ Nat.pow 2 63 then some (.integer (-m)) else (lib.float? n).map .float
    else if m < Nat.pow 2 64 then some (.integer m) else (lib.float? n).map .float
  | _, _ => (lib.float? n).map .float

/-- **What is assumed of a library** wherever text is read back: a finite double is read, bit for bit,
from the numeral that it is written with. It takes a library that rounds with enough digits. -/
def ReadsBack (lib : JsonLibrary) : Prop :=
  ∀ x : Binary64, x.isFinite = true → lib.float? (Number.numeral (.float x)) = some x

/-- the library that reads a numeral as the nearest double and lets 127 arrays and objects be open -/
def nearest : JsonLibrary where
  nestingLimit := 127
  float? n := Binary64.ofDecimal n.negative n.decimal
  isFinite_of_float? := Binary64.isFinite_ofDecimal

end JsonLibrary

end ScriptHeap
