import Mathlib.Data.String.Basic
import ScriptHeap.Digest.StoredHash
/-!
# The order of texts is that of their bytes

* `compare_bytes_cons`   how two lists of bytes are compared;
* `compare_encodeChar`   the bytes of a smaller character come first, whatever follows them;
* `compare_flatMap_encodeChar`   so do the bytes of a smaller list of characters;
* `compare_utf8_eq_eq_iff`, `compare_utf8_eq_lt_iff`   texts are ordered, by code points, as their
                       bytes are: this is the order of names in a map.
-/

namespace ScriptHeap

/-! ## bytes -/

section
variable {u v : List UInt8}

/-- the first bytes that differ decide -/
theorem compare_bytes_cons {m n : Nat} (hm : m < 256) (hn : n < 256) :
    compare (UInt8.ofNat m :: u) (UInt8.ofNat n :: v) = .lt ↔
      m < n ∨ m = n ∧ compare u v = .lt := by
  rw [List.compare_cons_cons, Ordering.then_eq_lt, Std.compare_eq_lt, Std.compare_eq_iff_eq,
    UInt8.lt_iff_toNat_lt, ← UInt8.toNat_inj, UInt8.toNat_ofNat_of_lt' hm,
    UInt8.toNat_ofNat_of_lt' hn]

/-- bytes in common at the front are passed over -/
theorem compare_bytes_append (front : List UInt8) :
    compare (front ++ u) (front ++ v) = compare u v := by
  induction front with
  | nil => rfl
  | cons x front ih =>
    rw [List.cons_append, List.cons_append, List.compare_cons_cons, Std.ReflOrd.compare_self, ih]
    rfl

/-! ## characters -/

/-- the bytes of a smaller character come first, whatever follows them -/
theorem compare_encodeChar {c d : Char} (h : c < d) :
    compare (String.utf8EncodeChar c ++ u) (String.utf8EncodeChar d ++ v) = .lt := by
  have hlt : c.val.toNat < d.val.toNat := h
  have hd : d.val.toNat < 0x110000 := d.valid.elim (by omega) And.right
  -- the digits to the base 64 of which the bytes are made
  have hdiv (n : Nat) : n / 4096 = n / 64 / 64 := (Nat.div_div_eq_div_mul n 64 64).symm
  have hdiv' (n : Nat) : n / 262144 = n / 64 / 64 / 64 := by
    rw [Nat.div_div_eq_div_mul, Nat.div_div_eq_div_mul]
  unfold String.utf8EncodeChar
  simp only [hdiv, hdiv']
  generalize c.val.toNat = m at *
  generalize d.val.toNat = n at *
  -- one more byte means a greater first byte; as many bytes have their digits in order
  split_ifs <;> simp (disch := omega) only [List.cons_append, compare_bytes_cons] <;> omega

theorem compare_flatMap_encodeChar {l m : List Char} (h : l < m) :
    compare (l.flatMap String.utf8EncodeChar) (m.flatMap String.utf8EncodeChar) = .lt := by
  induction l generalizing m with
  | nil =>
    cases m with
    | nil => exact absurd h (List.lt_irrefl [])
    | cons d m =>
      rw [List.flatMap_nil, List.flatMap_cons]
      cases hd : String.utf8EncodeChar d with
      | nil => exact absurd hd String.utf8EncodeChar_ne_nil
      | cons x rest => rfl
  | cons c l ih =>
    cases m with
    | nil => exact absurd h (List.not_lt_nil _)
    | cons d m =>
      rw [List.flatMap_cons, List.flatMap_cons]
      rcases List.cons_lt_cons_iff.mp h with hcd | ⟨rfl, hlm⟩
      · exact compare_encodeChar hcd
      · rw [compare_bytes_append, ih hlm]

end

/-! ## texts -/

section
variable {s t : String}

theorem utf8_eq_flatMap (s : String) : utf8 s = s.toList.flatMap String.utf8EncodeChar := by
  conv_lhs => rw [← String.ofList_toList (s := s)]
  rw [utf8, String.toByteArray_ofList, List.utf8Encode, List.toList_data_toByteArray]

theorem utf8_injective (h : utf8 s = utf8 t) : s = t :=
  String.toByteArray_inj.mp (ByteArray.ext (Array.toList_inj.mp h))

theorem compare_utf8_of_lt (h : s < t) : compare (utf8 s) (utf8 t) = .lt := by
  rw [utf8_eq_flatMap, utf8_eq_flatMap]
  exact compare_flatMap_encodeChar h

theorem compare_utf8_eq_eq_iff : compare (utf8 s) (utf8 t) = .eq ↔ s = t := by
  rw [Std.compare_eq_iff_eq]
  exact ⟨utf8_injective, congrArg utf8⟩

/-- **Texts are in the order of their bytes** -/
theorem compare_utf8_eq_lt_iff : compare (utf8 s) (utf8 t) = .lt ↔ s < t := by
  refine ⟨fun h => ?_, compare_utf8_of_lt⟩
  by_contra hle
  rcases (String.not_lt.mp hle).lt_or_eq with hts | rfl
  · rw [Std.OrientedOrd.eq_swap, compare_utf8_of_lt hts] at h
    cases h
  · rw [Std.ReflOrd.compare_self] at h
    cases h

end

end ScriptHeap
