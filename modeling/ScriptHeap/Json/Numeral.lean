import ScriptHeap.Json.Basic
import ScriptHeap.Binary64.Shortest
/-!
# The text of numbers

* `Numeral`            the parts of a JSON number: sign, whole digits, fraction digits, exponent;
* `Numeral.chars`, `Numeral.ofChars?`   its text, and the numeral that a text spells;
* `Numeral.decimal`    the magnitude of a numeral;
* `FloatLayout`        where the text of a double is positional and where it has an exponent;
* `Number.numeral`     the numeral that a number is written with.
-/

namespace ScriptHeap

/-- the parts of a JSON number -/
structure Numeral where
  negative : Bool
  whole : List Char
  fraction : Option (List Char)
  exponent : Option Int
deriving DecidableEq

namespace Numeral

/-! ## writing -/

/-- an exponent always has a sign -/
def exponentChars (e : Int) : List Char :=
  'e' :: (if e < 0 then '-' else '+') :: Nat.toDigits 10 e.natAbs

def chars (n : Numeral) : List Char :=
  (if n.negative then ['-'] else []) ++ n.whole ++
    (match n.fraction with | none => [] | some ds => '.' :: ds) ++
    (match n.exponent with | none => [] | some e => exponentChars e)

/-! ## reading -/

/-- a minus sign and what follows it -/
def splitSign : List Char → Bool × List Char
  | '-' :: rest => (true, rest)
  | cs => (false, cs)

/-- whole digits: at least one, and no leading zero but in zero itself -/
def wholeOk : List Char → Bool
  | [] => false
  | ['0'] => true
  | c :: _ => c != '0'

/-- a fraction, if there is a point, and what follows it -/
def splitFraction : List Char → Option (Option (List Char) × List Char)
  | '.' :: rest =>
    if (rest.takeWhile Char.isDigit).isEmpty then none
    else some (some (rest.takeWhile Char.isDigit), rest.dropWhile Char.isDigit)
  | cs => some (none, cs)

/-- the number that digits alone spell -/
def digits? (cs : List Char) : Option Nat :=
  if !cs.isEmpty && cs.all Char.isDigit then some (Nat.ofDigitChars 10 cs 0) else none

/-- an exponent after its letter -/
def signedDigits? : List Char → Option Int
  | '+' :: ds => (digits? ds).map Int.ofNat
  | '-' :: ds => (digits? ds).map fun n => -Int.ofNat n
  | ds => (digits? ds).map Int.ofNat

/-- an exponent, if anything is left -/
def exponentOf? : List Char → Option (Option Int)
  | [] => some none
  | c :: rest => if c = 'e' ∨ c = 'E' then (signedDigits? rest).map some else none

def ofChars? (cs : List Char) : Option Numeral :=
  let (negative, unsigned) := splitSign cs
  let whole := unsigned.takeWhile Char.isDigit
  if wholeOk whole then do
    let (fraction, rest) ← splitFraction (unsigned.dropWhile Char.isDigit)
    let exponent ← exponentOf? rest
    some ⟨negative, whole, fraction, exponent⟩
  else none

/-! ## values -/

/-- the magnitude as a decimal -/
def decimal (n : Numeral) : Decimal :=
  let fraction := n.fraction.getD []
  ⟨Nat.ofDigitChars 10 (n.whole ++ fraction) 0, n.exponent.getD 0 - fraction.length⟩

end Numeral

/-! ## layout of doubles -/

/-- the leading exponents that are written positionally: from `low` up to but not including `high` -/
structure FloatLayout where
  low : Int
  high : Int

def floatLayout : FloatLayout := ⟨-5, 16⟩

/-- a decimal written positionally, with at least one digit after the point -/
def Decimal.positional (d : Decimal) (negative : Bool) : Numeral :=
  let ds := Nat.toDigits 10 d.mantissa
  match d.exponent with
  | .ofNat e => ⟨negative, ds ++ List.replicate e '0', some ['0'], none⟩
  | .negSucc e =>
    if e + 1 < ds.length then
      ⟨negative, ds.take (ds.length - (e + 1)), some (ds.drop (ds.length - (e + 1))), none⟩
    else ⟨negative, ['0'], some (List.replicate (e + 1 - ds.length) '0' ++ ds), none⟩

/-- a decimal written with one digit before the point and an exponent -/
def Decimal.scientific (d : Decimal) (negative : Bool) : Numeral :=
  let ds := Nat.toDigits 10 d.mantissa
  ⟨negative, ds.take 1, if ds.length = 1 then none else some (ds.drop 1),
    some (d.exponent + ds.length - 1)⟩

def FloatLayout.numeral (layout : FloatLayout) (negative : Bool) (d : Decimal) : Numeral :=
  let leading := d.exponent + (Nat.toDigits 10 d.mantissa).length - 1
  if layout.low ≤ leading ∧ leading < layout.high then d.positional negative
  else d.scientific negative

def Number.numeral : Number → Numeral
  | .integer i => ⟨decide (i < 0), Nat.toDigits 10 i.natAbs, none, none⟩
  | .float x => floatLayout.numeral x.negative (Binary64.shortest x.code)

end ScriptHeap
