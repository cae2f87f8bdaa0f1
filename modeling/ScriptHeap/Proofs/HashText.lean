import Mathlib.Data.List.TakeWhile
import ScriptHeap.Proofs.ByteOrder
/-!
# A hash is its text

* `exists_first_colon`   a text with a colon, split at its first one;
* `ContentHash.parse?_append`, `StoredHash.parse_append`   what is read of a text so split, by
                       characters and by bytes;
* `ContentHash.parse?_eq_some_iff`   a hash is read from its own text and from no other;
* `StoredHash.parse_eq`   the two ways of reading agree, and no cut goes through a character;
* `ContentHash.isSome_parse?_iff`   one colon and something on each side of it is all that is asked;
* `ContentHash.compare_stored`   stored hashes are ordered as the bytes of their texts are;
* `ContentHash.sorted_pairwise`   so are hashes that are sorted;
* `length_hexChars`, `mem_hexDigits`   a byte is written with two lower-case digits;
* `ContentHash.identified_by_text`   how texts, hashes, their order and the digests go together.
-/

namespace ScriptHeap

/-! ## the first colon -/

theorem exists_first_colon {s : String} (h : ':' ∈ s.toList) :
    ∃ a b : String, s = a ++ ":" ++ b ∧ ':' ∉ a.toList := by
  obtain ⟨front, back, hs, hfront⟩ := List.eq_append_cons_of_mem h
  refine ⟨String.ofList front, String.ofList back, String.ext ?_, by simpa using hfront⟩
  simpa using hs

theorem utf8ByteSize_append_colon (a : String) : (a ++ ":").utf8ByteSize = a.utf8ByteSize + 1 :=
  String.utf8ByteSize_append

theorem find?_colon {a b : String} (ha : ':' ∉ a.toList) :
    ∃ pos, (a ++ ":" ++ b).find? ':' = some pos ∧ pos.offset.byteIdx = a.utf8ByteSize := by
  have hvalid : String.Pos.Raw.IsValid (a ++ ":" ++ b) a.rawEndPos :=
    String.Pos.Raw.isValid_iff_exists_append.mpr ⟨a, ":" ++ b, String.append_assoc, rfl⟩
  refine ⟨⟨a.rawEndPos, hvalid⟩, ?_, rfl⟩
  exact String.find?_char_eq_some_iff_splits.mpr ⟨a, b, ⟨String.append_assoc, rfl⟩, ha⟩

theorem find?_colon_eq_none {s : String} (h : ':' ∉ s.toList) : s.find? ':' = none := by
  refine Option.eq_none_iff_forall_ne_some.mpr fun pos hpos => h ?_
  obtain ⟨a, b, hsplits, -⟩ := String.find?_char_eq_some_iff_splits.mp hpos
  rw [hsplits.eq_append]
  simp

/-! ## what is read -/

namespace ContentHash

section
variable {s a b : String} {h k : ContentHash}

theorem parse?_of_not_mem (hs : ':' ∉ s.toList) : parse? s = none := by
  have hdrop : s.toList.dropWhile (· != ':') = [] :=
    List.dropWhile_eq_nil_iff.mpr fun c hc => by
      simp only [bne_iff_ne]
      rintro rfl
      exact hs hc
  rw [parse?, hdrop]

theorem parse?_append (ha : ':' ∉ a.toList) :
    parse? (a ++ ":" ++ b) = ofParts? a.toList b.toList := by
  have hchars : (a ++ ":" ++ b).toList = a.toList ++ ':' :: b.toList := by simp
  have hall : ∀ c ∈ a.toList, (c != ':') = true := by
    simp only [bne_iff_ne]
    rintro c hc rfl
    exact ha hc
  rw [parse?, hchars, List.dropWhile_append_of_pos hall, List.takeWhile_append_of_pos hall]
  simp

theorem colon_not_mem_algorithm (h : ContentHash) : ':' ∉ h.algorithm.toList := h.algorithm_part.2

theorem ofParts?_self (h : ContentHash) : ofParts? h.algorithm.toList h.hex.toList = some h := by
  rw [ofParts?, dif_pos ⟨h.algorithm_part, h.hex_part⟩]
  simp

/-- **A hash is read from its own text and from no other** -/
theorem parse?_eq_some_iff : parse? s = some h ↔ h.text = s := by
  constructor
  · intro hs
    by_cases hcolon : ':' ∈ s.toList
    · obtain ⟨a, b, rfl, ha⟩ := exists_first_colon hcolon
      rw [parse?_append ha, ofParts?] at hs
      split at hs
      · cases hs
        simp [text]
      · cases hs
    · rw [parse?_of_not_mem hcolon] at hs
      cases hs
  · rintro rfl
    rw [text, parse?_append h.colon_not_mem_algorithm, ofParts?_self]

theorem text_injective (heq : h.text = k.text) : h = k := by
  have hk := parse?_eq_some_iff.mpr heq
  rw [parse?_eq_some_iff.mpr rfl] at hk
  exact (Option.some.inj hk).symm

theorem isSome_parse?_iff : (parse? s).isSome ↔
    s.toList.count ':' = 1 ∧ ∃ a b, a ≠ "" ∧ b ≠ "" ∧ s = a ++ ":" ++ b := by
  constructor
  · intro hs
    obtain ⟨h, hs⟩ := Option.isSome_iff_exists.mp hs
    obtain rfl := parse?_eq_some_iff.mp hs
    obtain ⟨ha, ha'⟩ := h.algorithm_part
    obtain ⟨hb, hb'⟩ := h.hex_part
    refine ⟨?_, h.algorithm, h.hex, by simpa using ha, by simpa using hb, rfl⟩
    simp [text, List.count_eq_zero.mpr ha', List.count_eq_zero.mpr hb']
  · rintro ⟨hcount, a, b, ha, hb, rfl⟩
    simp only [String.toList_append, List.count_append] at hcount
    have hone : ":".toList.count ':' = 1 := by decide
    have ha' : ':' ∉ a.toList := List.count_eq_zero.mp (by omega)
    have hb' : ':' ∉ b.toList := List.count_eq_zero.mp (by omega)
    let h : ContentHash := ⟨a, b, ⟨by simpa using ha, ha'⟩, ⟨by simpa using hb, hb'⟩⟩
    exact Option.isSome_iff_exists.mpr ⟨h, parse?_eq_some_iff.mpr rfl⟩

end

end ContentHash

namespace StoredHash

section
variable {s a b : String} {h k : ContentHash}

/-- by bytes the same parts are found: the offset is that of the first colon, and what is behind it
is cut out whole -/
theorem parse_append (ha : ':' ∉ a.toList) : parse (a ++ ":" ++ b) =
    .ok ((ContentHash.ofParts? a.toList b.toList).map ContentHash.stored) := by
  obtain ⟨pos, hfind, hpos⟩ := find?_colon (b := b) ha
  have hrest : cut (a ++ ":" ++ b) (a.utf8ByteSize + 1) (a ++ ":" ++ b).utf8ByteSize = .ok b := by
    have hcut := cut_append (a ++ ":") b ""
    rwa [String.append_empty, utf8ByteSize_append_colon] at hcut
  -- nothing is before an offset of zero, and nothing is behind one that is the size less one
  have hedge : a.utf8ByteSize = 0 ∨ a.utf8ByteSize = (a ++ ":" ++ b).utf8ByteSize - 1 ↔
      a.toList = [] ∨ b.toList = [] := by
    rw [String.toList_eq_nil_iff, String.toList_eq_nil_iff, ← String.utf8ByteSize_eq_zero_iff,
      ← String.utf8ByteSize_eq_zero_iff, String.utf8ByteSize_append, utf8ByteSize_append_colon]
    omega
  rw [parse, hfind, ContentHash.ofParts?]
  simp only [hpos, hedge, hrest]
  by_cases hparts : HashPart a.toList ∧ HashPart b.toList
  · rw [dif_pos hparts]
    obtain ⟨⟨hane, -⟩, hbne, hb⟩ := hparts
    rw [if_neg (not_or.mpr ⟨hane, hbne⟩)]
    simp [hb, ContentHash.stored, ContentHash.text, Except.map]
  · rw [dif_neg hparts]
    by_cases hends : a.toList = [] ∨ b.toList = []
    · rw [if_pos hends]
      rfl
    · obtain ⟨hane, hbne⟩ := not_or.mp hends
      have hb : ':' ∈ b.toList := by
        by_contra hb
        exact hparts ⟨⟨hane, ha⟩, hbne, hb⟩
      rw [if_neg hends]
      simp [hb, Except.map]

/-- **Reading by bytes is reading by characters**: no cut goes through a character -/
theorem parse_eq (s : String) : parse s = .ok ((ContentHash.parse? s).map ContentHash.stored) := by
  by_cases hcolon : ':' ∈ s.toList
  · obtain ⟨a, b, rfl, ha⟩ := exists_first_colon hcolon
    rw [parse_append ha, ContentHash.parse?_append ha]
  · rw [parse, find?_colon_eq_none hcolon, ContentHash.parse?_of_not_mem hcolon]
    rfl

end

end StoredHash

namespace ContentHash

section
variable {h k : ContentHash}

/-! ## the parts and the order -/

theorem algorithm_stored (h : ContentHash) : h.stored.algorithm = .ok h.algorithm := by
  have hcut := cut_append "" h.algorithm (":" ++ h.hex)
  rwa [String.empty_append, ← String.append_assoc] at hcut

theorem hex_stored (h : ContentHash) : h.stored.hex = .ok h.hex := by
  have hcut := cut_append (h.algorithm ++ ":") h.hex ""
  rwa [String.append_empty, utf8ByteSize_append_colon] at hcut

/-- the position of the colon never decides -/
theorem compare_stored (h k : ContentHash) :
    compare h.stored k.stored = compare (utf8 h.text) (utf8 k.text) := by
  show (compare (utf8 h.text) (utf8 k.text)).then _ = _
  cases horder : compare (utf8 h.text) (utf8 k.text) with
  | lt => rfl
  | gt => rfl
  | eq =>
    obtain rfl := text_injective (compare_utf8_eq_eq_iff.mp horder)
    exact Std.ReflOrd.compare_self

theorem stored_inj : h.stored = k.stored ↔ h = k :=
  ⟨fun heq => text_injective (congrArg StoredHash.full heq), congrArg stored⟩

/-! ## sorting -/

/-- hashes entered under their texts: a hash that is there already is not entered anew -/
theorem mem_insert_text {l : Entries ContentHash} (hl : l.Sorted) (htext : ∀ e ∈ l, e.1 = e.2.text)
    {e : String × ContentHash} : e ∈ l.insert h.text h ↔ e = (h.text, h) ∨ e ∈ l := by
  refine ⟨Entries.mem_insert, ?_⟩
  rintro (rfl | he)
  · exact Entries.mem_of_find? (Entries.find?_insert_self _ _ _)
  · by_cases hname : e.1 = h.text
    · obtain rfl := text_injective ((htext e he).symm.trans hname)
      have hentry : e = (e.2.text, e.2) := Prod.ext hname rfl
      rw [hentry]
      exact Entries.mem_of_find? (Entries.find?_insert_self _ _ _)
    · exact Entries.mem_of_find? ((Entries.find?_insert_of_ne hname _ _).trans
        (Entries.find?_of_mem hl he))

theorem mem_foldl_insert_text (l : List ContentHash) {acc : Entries ContentHash} (hacc : acc.Sorted)
    (htext : ∀ e ∈ acc, e.1 = e.2.text) {e : String × ContentHash} :
    e ∈ (l.map fun h => (h.text, h)).foldl (fun acc e => acc.insert e.1 e.2) acc ↔
      e ∈ acc ∨ ∃ h ∈ l, e = (h.text, h) := by
  induction l generalizing acc with
  | nil => simp
  | cons h l ih =>
    have hmem {e} : e ∈ acc.insert h.text h ↔ e = (h.text, h) ∨ e ∈ acc :=
      mem_insert_text hacc htext
    have htext' : ∀ e ∈ acc.insert h.text h, e.1 = e.2.text := by
      intro e he
      rcases hmem.mp he with rfl | he
      · rfl
      · exact htext e he
    rw [List.map_cons, List.foldl_cons, ih (Entries.sorted_insert _ _ hacc) htext', hmem, or_assoc,
      or_left_comm]
    simp only [List.mem_cons, exists_eq_or_imp]

theorem mem_entries_iff {l : List ContentHash} {e : String × ContentHash} :
    e ∈ Entries.ofList (l.map fun h => (h.text, h)) ↔ ∃ h ∈ l, e = (h.text, h) :=
  (mem_foldl_insert_text l Entries.sorted_nil nofun).trans (by simp)

theorem mem_sorted_iff {l : List ContentHash} : h ∈ sorted l ↔ h ∈ l := by
  simp only [sorted, List.mem_map, mem_entries_iff]
  constructor
  · rintro ⟨e, ⟨k, hk, rfl⟩, rfl⟩
    exact hk
  · intro hh
    exact ⟨_, ⟨h, hh, rfl⟩, rfl⟩

/-- hashes are sorted as their stored forms are ordered, each standing once -/
theorem sorted_pairwise (l : List ContentHash) :
    (sorted l).Pairwise fun h k => compare h.stored k.stored = .lt := by
  refine List.pairwise_map.mpr ((Entries.sorted_ofList _).imp_of_mem fun hd he hlt => ?_)
  obtain ⟨h, -, rfl⟩ := mem_entries_iff.mp hd
  obtain ⟨k, -, rfl⟩ := mem_entries_iff.mp he
  rw [compare_stored]
  exact compare_utf8_eq_lt_iff.mpr hlt

end

end ContentHash

/-! ## digests -/

/-- a byte is written with two digits -/
theorem length_hexChars (bytes : List UInt8) : (hexChars bytes).length = 2 * bytes.length := by
  induction bytes with
  | nil => rfl
  | cons b bytes ih =>
    have hcons : (hexChars (b :: bytes)).length = 2 + (hexChars bytes).length :=
      List.length_append.trans (by rfl)
    rw [hcons, ih, List.length_cons, Nat.mul_succ, Nat.add_comm]

/-- the digits of a digest, lower-case -/
def hexDigits : List Char := "0123456789abcdef".toList

theorem digitChar_mem_hexDigits {n : Nat} (h : n < 16) : Nat.digitChar n ∈ hexDigits := by
  have hall : ∀ m : Fin 16, Nat.digitChar m ∈ hexDigits := by decide
  exact hall ⟨n, h⟩

theorem mem_hexDigits {bytes : List UInt8} : ∀ c ∈ hexChars bytes, c ∈ hexDigits := by
  intro c hc
  obtain ⟨b, -, hb⟩ := List.mem_flatMap.mp hc
  have hlt := b.toNat_lt
  rcases List.mem_cons.mp hb with rfl | hb
  · exact digitChar_mem_hexDigits (by omega)
  · obtain rfl := List.mem_singleton.mp hb
    exact digitChar_mem_hexDigits (by omega)

namespace ContentHash

section
variable (domain : HashDomain) (data : List UInt8)

/-- hashes of data are stored with the position of the colon that is found by reading them -/
theorem stored_contentHash : (contentHash domain data).stored = .ofData domain data := rfl

theorem hex_contentHash : (contentHash domain data).hex.length = 64 ∧
    ∀ c ∈ (contentHash domain data).hex.toList, c ∈ hexDigits := by
  have hchars : (contentHash domain data).hex.toList =
      hexChars (Sha256.digest (domain.bytes ++ data)) := String.toList_ofList
  rw [← String.length_toList, hchars, length_hexChars, Sha256.length_digest]
  exact ⟨rfl, mem_hexDigits⟩

/-- **A hash is its text.** Read by byte positions, without a cut through a character, a text gives
the hash that its characters give; it gives one exactly if it has one colon and something on each
side. The hash has this text, and the parts that are cut out of it make it up again. Hashes compare
as the bytes of their texts do, and they are sorted in this order. The hash of data in a domain is
the one that is read from its text, the position of the colon included, and its digest is 64
lower-case hexadecimal digits. -/
theorem identified_by_text (s t : String) (l : List ContentHash) :
    StoredHash.parse s = .ok ((parse? s).map stored) ∧
    ((parse? s).isSome ↔ s.toList.count ':' = 1 ∧ ∃ a b, a ≠ "" ∧ b ≠ "" ∧ s = a ++ ":" ++ b) ∧
    (∀ h, parse? s = some h → h.text = s ∧ h.stored.full = s ∧
      h.stored.algorithm = .ok h.algorithm ∧ h.stored.hex = .ok h.hex ∧
      h.algorithm ++ ":" ++ h.hex = s) ∧
    (∀ h k, parse? s = some h → parse? t = some k →
      compare h.stored k.stored = compare (utf8 s) (utf8 t) ∧ (h.stored = k.stored ↔ s = t)) ∧
    ((sorted l).Pairwise (fun h k => compare h.stored k.stored = .lt) ∧
      ∀ h, h ∈ sorted l ↔ h ∈ l) ∧
    (parse? (contentHash domain data).text = some (contentHash domain data) ∧
      (contentHash domain data).stored = .ofData domain data ∧
      StoredHash.parse (StoredHash.ofData domain data).full = .ok (some (.ofData domain data)) ∧
      (StoredHash.ofData domain data).algorithm = .ok "sha256" ∧
      ∃ digest, (StoredHash.ofData domain data).hex = .ok digest ∧ digest.length = 64 ∧
        ∀ c ∈ digest.toList, c ∈ hexDigits) := by
  refine ⟨StoredHash.parse_eq s, isSome_parse?_iff, fun h hs => ?_, fun h k hs ht => ?_,
    ⟨sorted_pairwise l, fun h => mem_sorted_iff⟩, ?_⟩
  · obtain rfl := parse?_eq_some_iff.mp hs
    exact ⟨rfl, rfl, h.algorithm_stored, h.hex_stored, rfl⟩
  · obtain rfl := parse?_eq_some_iff.mp hs
    obtain rfl := parse?_eq_some_iff.mp ht
    exact ⟨compare_stored h k, stored_inj.trans ⟨congrArg text, text_injective⟩⟩
  · have hself : parse? (contentHash domain data).text = some (contentHash domain data) :=
      parse?_eq_some_iff.mpr rfl
    have hread := StoredHash.parse_eq (contentHash domain data).text
    rw [hself] at hread
    obtain ⟨hlength, hdigits⟩ := hex_contentHash domain data
    exact ⟨hself, stored_contentHash domain data, hread, (contentHash domain data).algorithm_stored,
      _, (contentHash domain data).hex_stored, hlength, hdigits⟩

end

end ContentHash

namespace Sample

/-- a hash with characters of two and three bytes -/
def accented : ContentHash := ⟨"é", "日", by decide, by decide⟩

def plain : ContentHash := ⟨"md5", "00ff", by decide, by decide⟩

theorem accented_cut_and_compared :
    ContentHash.parse? "é:日" = some accented ∧ ContentHash.parse? "md5:00ff" = some plain ∧
    StoredHash.parse "é:日" = .ok (some ⟨"é:日", 2⟩) ∧
    accented.stored.algorithm = .ok "é" ∧ accented.stored.hex = .ok "日" ∧
    compare accented.stored plain.stored = .gt := by
  have hread : ContentHash.parse? "é:日" = some accented := by decide
  have hread' : ContentHash.parse? "md5:00ff" = some plain := by decide
  obtain ⟨hparse, -, hparts, hpair, -⟩ :=
    ContentHash.identified_by_text .heap [] "é:日" "md5:00ff" []
  rw [hread] at hparse
  obtain ⟨-, -, halgorithm, hhex, -⟩ := hparts accented hread
  refine ⟨hread, hread', hparse, halgorithm, hhex, ?_⟩
  rw [(hpair accented plain hread hread').1]
  decide

end Sample

end ScriptHeap
