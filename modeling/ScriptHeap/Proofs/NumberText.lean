import ScriptHeap.Json.Library
import ScriptHeap.Proofs.JsonValue
import ScriptHeap.Proofs.ShortestDecimal
/-!
# The text of numbers is read back

* `Numeral.Regular`    digits before the point without a leading zero, and at least one after it;
* `Numeral.ofChars?_chars`   such a numeral is read from its own text;
* `Numeral.Writes`     such a numeral with a point or an exponent stands for a decimal;
* `FloatLayout.numeral_writes`   so does the one that a layout gives, wherever the point is;
* `Number.regular_numeral`   so is the numeral of every number;
* `JsonLibrary.ReadsBack.number?_numeral`   it is read as the number, if the number fits and the
                       library reads doubles back;
* `JsonLibrary.nearest_readsBack`   a library that rounds to the nearest double does.
-/

namespace ScriptHeap

namespace Numeral

/-! ## digits -/

section
variable {c : Char} {cs ds rest : List Char}

/-- a text that does not go on with a digit -/
def Stops (cs : List Char) : Prop := ∀ c ∈ cs.head?, c.isDigit = false

theorem takeWhile_digits (hds : ∀ c ∈ ds, c.isDigit = true) (hrest : Stops rest) :
    (ds ++ rest).takeWhile Char.isDigit = ds := by
  have hnone : rest.takeWhile Char.isDigit = [] := by
    cases rest with
    | nil => rfl
    | cons c cs => exact List.takeWhile_cons_of_neg (by rw [hrest c rfl]; exact nofun)
  rw [List.takeWhile_append_of_pos hds, hnone, List.append_nil]

theorem dropWhile_digits (hds : ∀ c ∈ ds, c.isDigit = true) (hrest : Stops rest) :
    (ds ++ rest).dropWhile Char.isDigit = rest := by
  have hall : rest.dropWhile Char.isDigit = rest := by
    cases rest with
    | nil => rfl
    | cons c cs => exact List.dropWhile_cons_of_neg (by rw [hrest c rfl]; exact nofun)
  rw [List.dropWhile_append_of_pos hds, hall]

theorem isDigit_toDigits {n : Nat} : ∀ c ∈ Nat.toDigits 10 n, c.isDigit = true :=
  fun _ hc => Nat.isDigit_of_mem_toDigits (by decide) (by decide) hc

theorem digits?_toDigits (n : Nat) : digits? (Nat.toDigits 10 n) = some n := by
  have hdigits : (!(Nat.toDigits 10 n).isEmpty && (Nat.toDigits 10 n).all Char.isDigit) = true := by
    rw [Bool.and_eq_true, List.all_eq_true, Bool.not_eq_true', List.isEmpty_eq_false_iff]
    exact ⟨Nat.toDigits_ne_nil, isDigit_toDigits⟩
  rw [digits?, if_pos hdigits, Nat.ofDigitChars_ten_toDigits]

/-- the digits of a number that is not zero begin with another digit -/
theorem exists_toDigits_eq_cons {n : Nat} (hn : n ≠ 0) :
    ∃ c cs, Nat.toDigits 10 n = c :: cs ∧ c ≠ '0' := by
  induction n using Nat.strongRecOn with
  | ind n ih =>
    by_cases hlt : n < 10
    · exact ⟨_, [], Nat.toDigits_of_lt_base hlt, fun h => hn (Nat.digitChar_eq_zero.mp h)⟩
    · have hle : 10 ≤ n := Nat.le_of_not_lt hlt
      obtain ⟨c, cs, heq, hc⟩ := ih (n / 10) (by omega) (by omega)
      refine ⟨c, cs ++ [(n % 10).digitChar], ?_, hc⟩
      rw [Nat.toDigits_of_base_le (by decide) hle, heq, List.cons_append]

theorem wholeOk_cons (hc : c ≠ '0') : wholeOk (c :: cs) = true := by
  unfold wholeOk
  split
  · next heq => cases heq
  · rfl
  · next c' _ _ heq =>
    obtain ⟨rfl, rfl⟩ := List.cons.inj heq
    exact bne_iff_ne.mpr hc

theorem wholeOk_toDigits (n : Nat) : wholeOk (Nat.toDigits 10 n) = true := by
  by_cases hn : n = 0
  · rw [hn, Nat.toDigits_zero]
    rfl
  · obtain ⟨c, cs, heq, hc⟩ := exists_toDigits_eq_cons hn
    rw [heq]
    exact wholeOk_cons hc

end

/-! ## reading what is written -/

/-- digits before the point without a leading zero, and at least one digit after it -/
structure Regular (n : Numeral) : Prop where
  whole : wholeOk n.whole = true
  digits : ∀ c ∈ n.whole, c.isDigit = true
  fraction : ∀ ds, n.fraction = some ds → ds ≠ [] ∧ ∀ c ∈ ds, c.isDigit = true

/-- the text of a fraction -/
def fractionChars : Option (List Char) → List Char
  | none => []
  | some ds => '.' :: ds

/-- the text of an exponent that may be missing -/
def exponentPart : Option Int → List Char
  | none => []
  | some e => exponentChars e

theorem chars_eq (n : Numeral) : n.chars = (if n.negative then ['-'] else []) ++
    (n.whole ++ (fractionChars n.fraction ++ exponentPart n.exponent)) := by
  obtain ⟨negative, whole, fraction, exponent⟩ := n
  cases fraction <;> cases exponent <;> simp [chars, fractionChars, exponentPart]

section
variable {n : Numeral} {cs ds rest : List Char}

theorem signedDigits?_exponent (e : Int) :
    signedDigits? ((if e < 0 then '-' else '+') :: Nat.toDigits 10 e.natAbs) = some e := by
  split
  · next he =>
    show (digits? _).map _ = some e
    rw [digits?_toDigits, Option.map_some]
    show some (-(e.natAbs : Int)) = some e
    congr 1
    omega
  · next he =>
    show (digits? _).map _ = some e
    rw [digits?_toDigits, Option.map_some]
    show some (e.natAbs : Int) = some e
    congr 1
    omega

theorem exponentOf?_exponentPart (e : Option Int) : exponentOf? (exponentPart e) = some e := by
  cases e with
  | none => rfl
  | some e =>
    show (if 'e' = 'e' ∨ 'e' = 'E' then (signedDigits? _).map some else none) = _
    rw [if_pos (.inl rfl), signedDigits?_exponent, Option.map_some]

theorem head_exponentPart (e : Option Int) : ∀ c ∈ (exponentPart e).head?, c = 'e' := by
  cases e with
  | none => exact nofun
  | some e =>
    intro c hc
    exact (Option.some.inj hc).symm

theorem stops_exponentPart (e : Option Int) : Stops (exponentPart e) := by
  intro c hc
  rw [head_exponentPart e c hc]
  rfl

theorem splitFraction_of_none (h : ∀ c ∈ cs.head?, c ≠ '.') :
    splitFraction cs = some (none, cs) := by
  unfold splitFraction
  split
  · exact absurd rfl (h '.' rfl)
  · rfl

theorem splitFraction_of_some (hne : ds ≠ []) (hds : ∀ c ∈ ds, c.isDigit = true)
    (hrest : Stops rest) : splitFraction ('.' :: (ds ++ rest)) = some (some ds, rest) := by
  show (if ((ds ++ rest).takeWhile Char.isDigit).isEmpty then none
    else some (some ((ds ++ rest).takeWhile Char.isDigit), (ds ++ rest).dropWhile Char.isDigit)) = _
  rw [takeWhile_digits hds hrest, dropWhile_digits hds hrest, if_neg]
  rw [List.isEmpty_iff]
  exact hne

theorem splitFraction_fractionChars (hn : n.Regular) :
    splitFraction (fractionChars n.fraction ++ exponentPart n.exponent) =
      some (n.fraction, exponentPart n.exponent) := by
  cases hfraction : n.fraction with
  | none =>
    refine splitFraction_of_none fun c hc => ?_
    rw [head_exponentPart _ c hc]
    decide
  | some ds =>
    obtain ⟨hne, hds⟩ := hn.fraction ds hfraction
    exact splitFraction_of_some hne hds (stops_exponentPart _)

/-- what follows the whole digits does not go on with a digit -/
theorem stops_tail (n : Numeral) : Stops (fractionChars n.fraction ++ exponentPart n.exponent) := by
  cases n.fraction with
  | none => exact stops_exponentPart _
  | some ds =>
    intro c hc
    rw [← Option.some.inj hc]
    rfl

/-- a digit is no minus sign -/
theorem splitSign_append {negative : Bool} (h : ∀ c ∈ cs.head?, c.isDigit = true) :
    splitSign ((if negative then ['-'] else []) ++ cs) = (negative, cs) := by
  cases negative with
  | true => rfl
  | false =>
    rw [if_neg nofun, List.nil_append]
    unfold splitSign
    split
    · cases h '-' rfl
    · rfl

theorem Regular.head_whole (hn : n.Regular) (rest : List Char) :
    ∀ c ∈ (n.whole ++ rest).head?, c.isDigit = true := by
  intro c hc
  cases hwhole : n.whole with
  | nil =>
    have hok := hn.whole
    rw [hwhole] at hok
    cases hok
  | cons d ds =>
    rw [hwhole] at hc
    obtain rfl := Option.some.inj hc
    exact hn.digits d (hwhole ▸ List.mem_cons_self)

/-- a numeral is read from its own text -/
theorem ofChars?_chars (hn : n.Regular) : ofChars? n.chars = some n := by
  rw [chars_eq, ofChars?, splitSign_append (hn.head_whole _)]
  simp only [takeWhile_digits hn.digits n.stops_tail, dropWhile_digits hn.digits n.stops_tail,
    if_pos hn.whole, splitFraction_fractionChars hn, Option.bind_eq_bind, Option.bind_some,
    exponentOf?_exponentPart]

end

end Numeral

/-! ## layouts -/

/-- a numeral with a point or an exponent that stands for a decimal -/
structure Numeral.Writes (n : Numeral) (negative : Bool) (d : Decimal) : Prop where
  sign : n.negative = negative
  regular : n.Regular
  point : n.fraction.isSome ∨ n.exponent.isSome
  value : n.decimal.trim = d.trim

/-- digits that are those of a mantissa and so many zeros -/
theorem Numeral.trim_decimal {n : Numeral} {m k : Nat} {e : Int}
    (hdigits : Nat.ofDigitChars 10 (n.whole ++ n.fraction.getD []) 0 = m * Nat.pow 10 k)
    (hexponent : n.exponent.getD 0 - (n.fraction.getD []).length + k = e) :
    n.decimal.trim = Decimal.trim ⟨m, e⟩ := by
  show Decimal.trim ⟨Nat.ofDigitChars 10 (n.whole ++ n.fraction.getD []) 0, _⟩ = _
  rw [hdigits, Decimal.trim_mul_pow, hexponent]

namespace Decimal

section
variable {m : Nat} (negative : Bool)

open Numeral

/-- zeros after the digits -/
theorem positional_nonneg {e : Nat} (hzero : m = 0 → e = 0) :
    (positional ⟨m, .ofNat e⟩ negative).Writes negative ⟨m, .ofNat e⟩ where
  sign := rfl
  point := .inl rfl
  regular := by
    refine ⟨?_, ?_, ?_⟩
    · show wholeOk (Nat.toDigits 10 m ++ List.replicate e '0') = true
      by_cases hm : m = 0
      · rw [hzero hm, List.replicate_zero, List.append_nil]
        exact wholeOk_toDigits m
      · obtain ⟨c, cs, heq, hc⟩ := exists_toDigits_eq_cons hm
        rw [heq]
        exact wholeOk_cons hc
    · intro c hc
      rcases List.mem_append.mp hc with hc | hc
      · exact isDigit_toDigits c hc
      · rw [List.eq_of_mem_replicate hc]
        rfl
    · rintro ds hds
      obtain rfl := Option.some.inj hds
      exact ⟨nofun, List.forall_mem_singleton.mpr rfl⟩
  value := by
    refine trim_decimal (k := e + 1) ?_ ?_
    · show Nat.ofDigitChars 10 (Nat.toDigits 10 m ++ List.replicate e '0' ++ ['0']) 0 = _
      have hzeros : List.replicate e '0' ++ ['0'] = List.replicate (e + 1) '0' :=
        List.replicate_succ'.symm
      rw [List.append_assoc, hzeros, Nat.ofDigitChars_append, Nat.ofDigitChars_ten_toDigits,
        Nat.ofDigitChars_replicate_zero, Nat.mul_comm]
      rfl
    · show (0 : Int) - (1 : Nat) + (e + 1 : Nat) = e
      omega

/-- the point among the digits -/
theorem positional_neg_of_lt {e : Nat} (hlt : e + 1 < (Nat.toDigits 10 m).length) :
    (positional ⟨m, .negSucc e⟩ negative).Writes negative ⟨m, .negSucc e⟩ := by
  have hm : m ≠ 0 := by
    rintro rfl
    rw [Nat.toDigits_zero, List.length_singleton] at hlt
    omega
  obtain ⟨c, cs, heq, hc⟩ := exists_toDigits_eq_cons hm
  obtain ⟨k, hk⟩ := Nat.exists_eq_add_of_lt hlt
  have htake : (Nat.toDigits 10 m).length - (e + 1) = k + 1 := by omega
  show Numeral.Writes (if e + 1 < (Nat.toDigits 10 m).length then _ else _) _ _
  rw [if_pos hlt]
  dsimp only
  rw [htake]
  refine ⟨rfl, ⟨?_, ?_, ?_⟩, .inl rfl, trim_decimal (k := 0) ?_ ?_⟩
  · show wholeOk ((Nat.toDigits 10 m).take (k + 1)) = true
    rw [heq, List.take_succ_cons]
    exact wholeOk_cons hc
  · exact fun c hc => isDigit_toDigits c (List.mem_of_mem_take hc)
  · intro ds hds
    obtain rfl := Option.some.inj hds
    refine ⟨fun hnil => ?_, fun c hc => isDigit_toDigits c (List.mem_of_mem_drop hc)⟩
    have := List.drop_eq_nil_iff.mp hnil
    omega
  · show Nat.ofDigitChars 10 ((Nat.toDigits 10 m).take (k + 1) ++
      (Nat.toDigits 10 m).drop (k + 1)) 0 = m * 1
    rw [List.take_append_drop, Nat.ofDigitChars_ten_toDigits, Nat.mul_one]
  · show (0 : Int) - ((Nat.toDigits 10 m).drop (k + 1)).length + (0 : Nat) = .negSucc e
    rw [List.length_drop]
    omega

/-- zeros before the digits -/
theorem positional_neg_of_le {e : Nat} (hle : (Nat.toDigits 10 m).length ≤ e + 1) :
    (positional ⟨m, .negSucc e⟩ negative).Writes negative ⟨m, .negSucc e⟩ := by
  show Numeral.Writes (if e + 1 < (Nat.toDigits 10 m).length then _ else _) _ _
  rw [if_neg (Nat.not_lt.mpr hle)]
  refine ⟨rfl, ⟨rfl, List.forall_mem_singleton.mpr rfl, ?_⟩, .inl rfl, trim_decimal (k := 0) ?_ ?_⟩
  · intro ds hds
    obtain rfl := Option.some.inj hds
    refine ⟨List.append_ne_nil_of_right_ne_nil _ Nat.toDigits_ne_nil, fun c hc => ?_⟩
    rcases List.mem_append.mp hc with hc | hc
    · rw [List.eq_of_mem_replicate hc]
      rfl
    · exact isDigit_toDigits c hc
  · show Nat.ofDigitChars 10 (List.replicate 1 '0' ++
      (List.replicate (e + 1 - (Nat.toDigits 10 m).length) '0' ++ Nat.toDigits 10 m)) 0 = m * 1
    rw [Nat.ofDigitChars_append, Nat.ofDigitChars_replicate_zero, Nat.mul_zero,
      Nat.ofDigitChars_append, Nat.ofDigitChars_replicate_zero, Nat.mul_zero,
      Nat.ofDigitChars_ten_toDigits, Nat.mul_one]
  · show (0 : Int) - (List.replicate (e + 1 - (Nat.toDigits 10 m).length) '0' ++
      Nat.toDigits 10 m).length + (0 : Nat) = .negSucc e
    rw [List.length_append, List.length_replicate]
    omega

theorem positional_writes {d : Decimal} (hd : d.mantissa = 0 → d.exponent = 0) :
    (d.positional negative).Writes negative d := by
  obtain ⟨m, e⟩ := d
  cases e with
  | ofNat e => exact positional_nonneg negative fun hm => Int.ofNat.inj (hd hm)
  | negSucc e =>
    by_cases hlt : e + 1 < (Nat.toDigits 10 m).length
    · exact positional_neg_of_lt negative hlt
    · exact positional_neg_of_le negative (Nat.le_of_not_lt hlt)

/-- one digit before the point -/
theorem scientific_writes (d : Decimal) : (d.scientific negative).Writes negative d := by
  obtain ⟨m, e⟩ := d
  have hlen : 0 < (Nat.toDigits 10 m).length := Nat.length_toDigits_pos
  have hwhole : wholeOk ((Nat.toDigits 10 m).take 1) = true := by
    by_cases hm : m = 0
    · rw [hm, Nat.toDigits_zero]
      rfl
    · obtain ⟨c, cs, heq, hc⟩ := exists_toDigits_eq_cons hm
      rw [heq, List.take_succ_cons]
      exact wholeOk_cons hc
  have hfraction : (if (Nat.toDigits 10 m).length = 1 then none
      else some ((Nat.toDigits 10 m).drop 1)).getD [] = (Nat.toDigits 10 m).drop 1 := by
    split
    · next hone => exact (List.drop_eq_nil_iff.mpr (Nat.le_of_eq hone)).symm
    · rfl
  refine ⟨rfl, ⟨hwhole, fun c hc => isDigit_toDigits c (List.mem_of_mem_take hc), ?_⟩, .inr rfl,
    trim_decimal (k := 0) ?_ ?_⟩
  · intro ds hds
    obtain ⟨hne, heq⟩ := Option.ite_none_left_eq_some.mp hds
    obtain rfl := Option.some.inj heq
    refine ⟨fun hnil => ?_, fun c hc => isDigit_toDigits c (List.mem_of_mem_drop hc)⟩
    have hle : (Nat.toDigits 10 m).length ≤ 1 := List.drop_eq_nil_iff.mp hnil
    exact hne (Nat.le_antisymm hle hlen)
  · show Nat.ofDigitChars 10 ((Nat.toDigits 10 m).take 1 ++ Option.getD (if _ then _ else _) []) 0
      = m * 1
    rw [hfraction, List.take_append_drop, Nat.ofDigitChars_ten_toDigits, Nat.mul_one]
  · show (e + (Nat.toDigits 10 m).length - 1 : Int) - (Option.getD (if _ then _ else _) []).length +
      (0 : Nat) = e
    rw [hfraction, List.length_drop]
    omega

end

end Decimal

theorem FloatLayout.numeral_writes (layout : FloatLayout) (negative : Bool) {d : Decimal}
    (hd : d.mantissa = 0 → d.exponent = 0) : (layout.numeral negative d).Writes negative d := by
  show Numeral.Writes (if _ then d.positional negative else d.scientific negative) _ _
  split
  · exact Decimal.positional_writes negative hd
  · exact Decimal.scientific_writes negative d

/-! ## numbers -/

namespace Number

theorem writes_float (x : Binary64) :
    (Number.numeral (.float x)).Writes x.negative (Binary64.shortest x.code) := by
  refine floatLayout.numeral_writes x.negative fun hzero => ?_
  have htrim := Binary64.trim_shortest x.code
  generalize Binary64.shortest x.code = d at htrim hzero
  obtain ⟨m, e⟩ := d
  obtain rfl : m = 0 := hzero
  rw [Decimal.trim_zero] at htrim
  exact (congrArg Decimal.exponent htrim).symm

theorem regular_numeral (n : Number) : n.numeral.Regular := by
  cases n with
  | integer i => exact ⟨Numeral.wholeOk_toDigits _, Numeral.isDigit_toDigits, nofun⟩
  | float x => exact (writes_float x).regular

end Number

namespace JsonLibrary

section
variable {lib : JsonLibrary}

/-- with a point or an exponent a numeral is read as a double -/
theorem number?_of_point {n : Numeral} (hn : n.fraction.isSome ∨ n.exponent.isSome) :
    lib.number? n = (lib.float? n).map .float := by
  unfold number?
  split
  · next hfraction hexponent =>
    rw [hfraction, hexponent] at hn
    rcases hn with hn | hn <;> cases hn
  · rfl

theorem number?_integer {i : Int} (hl : Int64.minValue.toInt ≤ i) (hu : i < UInt64.size) :
    lib.number? (Number.numeral (.integer i)) = some (.integer i) := by
  have hmin : Int64.minValue.toInt = -2 ^ 63 := by decide
  have hsize : (UInt64.size : Int) = 2 ^ 64 := by decide
  show (if decide (i < 0) = true then
      if 0 < Nat.ofDigitChars 10 (Nat.toDigits 10 i.natAbs) 0 ∧
        Nat.ofDigitChars 10 (Nat.toDigits 10 i.natAbs) 0 ≤ Nat.pow 2 63 then
        some (Number.integer (-(Nat.ofDigitChars 10 (Nat.toDigits 10 i.natAbs) 0 : Int))) else _
    else if Nat.ofDigitChars 10 (Nat.toDigits 10 i.natAbs) 0 < Nat.pow 2 64 then
      some (Number.integer (Nat.ofDigitChars 10 (Nat.toDigits 10 i.natAbs) 0)) else _) = _
  rw [Nat.ofDigitChars_ten_toDigits]
  by_cases hi : i < 0
  · have hrange : 0 < i.natAbs ∧ i.natAbs ≤ Nat.pow 2 63 := by
      show 0 < i.natAbs ∧ i.natAbs ≤ 2 ^ 63
      omega
    rw [if_pos (decide_eq_true hi), if_pos hrange]
    congr 2
    omega
  · have hrange : i.natAbs < Nat.pow 2 64 := by
      show i.natAbs < 2 ^ 64
      omega
    rw [if_neg (by simpa using hi), if_pos hrange]
    congr 2
    omega

/-- **A number that fits is read from what it is written with** -/
theorem ReadsBack.number?_numeral (hlib : lib.ReadsBack) {n : Number} (hn : n.Fits) :
    lib.number? n.numeral = some n := by
  cases n with
  | integer i => exact number?_integer hn.1 hn.2
  | float x => rw [number?_of_point (Number.writes_float x).point, hlib x hn, Option.map_some]

end

/-- the shortest decimal of a double is nearer to it than to any other -/
theorem nearest_readsBack : nearest.ReadsBack := by
  intro x hx
  have hw := Number.writes_float x
  show Binary64.ofDecimal (Number.numeral (.float x)).negative (Number.numeral (.float x)).decimal = _
  rw [hw.sign, Binary64.ofDecimal_trim_congr hw.value, Binary64.ofDecimal_shortest hx]

end JsonLibrary

end ScriptHeap
