import ScriptHeap.Digest.ContentHash
/-!
# Hashes stored by byte positions

* `utf8`, `cut`        the bytes of a text, and the part of it between two of them;
* `StoredHash`         the text of a hash and the number of bytes before its colon;
* `StoredHash.parse`   the stored hash that a text spells, found by byte positions;
* `StoredHash.algorithm`, `StoredHash.hex`   the two parts, cut out of the text;
* `StoredHash.ofData`  the SHA-256 hash of data in a domain, its position written down beforehand;
* `ContentHash.stored` how a hash is stored.

Stored hashes are compared by their bytes first, and by the position of the colon where these agree.
-/

namespace ScriptHeap

/-! ## texts by their bytes -/

def utf8 (s : String) : List UInt8 := s.toByteArray.data.toList

/-- two byte positions between which a text cannot be cut -/
structure CutFault where
  start : Nat
  stop : Nat
deriving DecidableEq

/-- the part of a text from one byte up to another; no cut may go through a character -/
def cut (s : String) (start stop : Nat) : Except CutFault String :=
  if h : String.Pos.Raw.IsValid s ⟨start⟩ ∧ String.Pos.Raw.IsValid s ⟨stop⟩ ∧ start ≤ stop then
    .ok (String.extract ⟨⟨start⟩, h.1⟩ ⟨⟨stop⟩, h.2.1⟩)
  else .error ⟨start, stop⟩

theorem toByteArray_extract_append (a b c : String) :
    (a ++ b ++ c).toByteArray.extract a.utf8ByteSize (a ++ b).utf8ByteSize = b.toByteArray := by
  have hsize : (a ++ b).utf8ByteSize = a.toByteArray.size + b.toByteArray.size :=
    String.utf8ByteSize_append
  have hstart : a.utf8ByteSize = a.toByteArray.size + 0 := rfl
  rw [hsize, hstart, String.append_assoc, String.toByteArray_append,
    ByteArray.extract_append_size_add, String.toByteArray_append,
    ByteArray.extract_append_eq_left rfl]

/-- a part of a text is cut out from the end of what is before it up to its own end -/
theorem cut_append (a b c : String) :
    cut (a ++ b ++ c) a.utf8ByteSize (a ++ b).utf8ByteSize = .ok b := by
  have hstart : String.Pos.Raw.IsValid (a ++ b ++ c) ⟨a.utf8ByteSize⟩ :=
    String.Pos.Raw.isValid_iff_exists_append.mpr ⟨a, b ++ c, String.append_assoc, rfl⟩
  have hstop : String.Pos.Raw.IsValid (a ++ b ++ c) ⟨(a ++ b).utf8ByteSize⟩ :=
    String.Pos.Raw.isValid_iff_exists_append.mpr ⟨a ++ b, c, rfl, rfl⟩
  have hle : a.utf8ByteSize ≤ (a ++ b).utf8ByteSize := by
    rw [String.utf8ByteSize_append]
    exact Nat.le_add_right _ _
  have hpart : String.extract ⟨⟨a.utf8ByteSize⟩, hstart⟩ ⟨⟨(a ++ b).utf8ByteSize⟩, hstop⟩ = b := by
    rw [← String.toByteArray_inj, String.toByteArray_extract]
    exact toByteArray_extract_append a b c
  rw [cut, dif_pos ⟨hstart, hstop, hle⟩, hpart]

/-- the first character of this text has two bytes -/
example : cut "é:日" 0 1 = .error ⟨0, 1⟩ := rfl

/-! ## stored hashes -/

/-- a text, and the number of bytes before a colon in it -/
structure StoredHash where
  full : String
  colon : Nat
deriving DecidableEq

namespace StoredHash

def parse (s : String) : Except CutFault (Option StoredHash) :=
  match s.find? ':' with
  | none => .ok none
  | some pos =>
    let colon := pos.offset.byteIdx
    if colon = 0 ∨ colon = s.utf8ByteSize - 1 then .ok none
    else (cut s (colon + 1) s.utf8ByteSize).map fun rest =>
      if rest.contains ':' then none else some ⟨s, colon⟩

def algorithm (h : StoredHash) : Except CutFault String := cut h.full 0 h.colon

def hex (h : StoredHash) : Except CutFault String := cut h.full (h.colon + 1) h.full.utf8ByteSize

instance : Ord StoredHash where
  compare h k := (compare (utf8 h.full) (utf8 k.full)).then (compare h.colon k.colon)

def ofData (domain : HashDomain) (data : List UInt8) : StoredHash where
  full := "sha256:" ++ String.ofList (hexChars (Sha256.digest (domain.bytes ++ data)))
  colon := "sha256".utf8ByteSize

end StoredHash

def ContentHash.stored (h : ContentHash) : StoredHash := ⟨h.text, h.algorithm.utf8ByteSize⟩

end ScriptHeap
