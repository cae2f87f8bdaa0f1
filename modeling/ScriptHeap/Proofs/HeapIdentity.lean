import ScriptHeap.Proofs.CanonicalText
import ScriptHeap.Proofs.PersistedHeap
/-!
# When heaps are the same

* `Heap.eq_of_canonicalBytes`   checked heaps with the same canonical bytes have the same cells;
* `contentHash_eq_iff`   bytes with the same hash are the same, unless SHA-256 collides on them;
* `Heap.SameZeros`     where one heap has a zero with a sign, the other has no zero without it;
* `Heap.eq_of_alike`   heaps that compare as equal have the same cells, up to the signs of zeros;
* `Heap.canonicalBytes_eq_iff`   how bytes, digests, cells and the comparison go together;
* `Sample.origin_has_two_texts`   the comparison and the bytes do not say the same.
-/

namespace ScriptHeap

/-! ## bytes and digests -/

theorem toList_loop (bytes : ByteArray) (i : Nat) (acc : List UInt8) :
    ByteArray.toList.loop bytes i acc = acc.reverse ++ bytes.data.toList.drop i := by
  induction i, acc using ByteArray.toList.loop.induct bytes with
  | case1 i acc hi ih =>
    have hbyte : bytes.get! i = bytes.data.toList[i] := getElem!_pos bytes.data i hi
    rw [ByteArray.toList.loop, if_pos hi, ih, hbyte, List.reverse_cons, List.append_assoc,
      List.singleton_append, ← List.drop_eq_getElem_cons]
  | case2 i acc hi =>
    have hdrop : bytes.data.toList.drop i = [] :=
      List.drop_eq_nil_of_le (by simpa using Nat.le_of_not_lt hi)
    rw [ByteArray.toList.loop, if_neg hi, hdrop, List.append_nil]

theorem toList_injective {bytes bytes' : ByteArray} (h : bytes.toList = bytes'.toList) :
    bytes = bytes' := by
  have hdata : ∀ b : ByteArray, b.toList = b.data.toList := fun b => toList_loop b 0 []
  rw [hdata, hdata] at h
  exact ByteArray.ext (Array.toList_inj.mp h)

theorem hexByte_injective {b b' : UInt8} (h : hexByte b = hexByte b') : b = b' := by
  have hdigit : ∀ m n : Fin 16, Nat.digitChar m = Nat.digitChar n → m = n := by decide
  have hb := b.toNat_lt
  have hb' := b'.toNat_lt
  obtain ⟨hhigh, hlow⟩ := List.cons_eq_cons.mp h
  have hhigh := hdigit ⟨b.toNat / 16, by omega⟩ ⟨b'.toNat / 16, by omega⟩ hhigh
  have hlow := hdigit ⟨b.toNat % 16, by omega⟩ ⟨b'.toNat % 16, by omega⟩ (List.cons_eq_cons.mp hlow).1
  simp only [Fin.mk.injEq] at hhigh hlow
  exact UInt8.toNat_inj.mp (by omega)

theorem hexChars_injective {l l' : List UInt8} (h : hexChars l = hexChars l') : l = l' := by
  induction l generalizing l' with
  | nil =>
    cases l' with
    | nil => rfl
    | cons b' l' => cases h
  | cons b l ih =>
    cases l' with
    | nil => cases h
    | cons b' l' =>
      obtain ⟨hb, hl⟩ := List.append_inj (show hexByte b ++ hexChars l = hexByte b' ++ hexChars l'
        from h) rfl
      rw [hexByte_injective hb, ih hl]

/-- a content hash has nothing but the SHA-256 digest -/
theorem contentHash_inj {domain : HashDomain} {data data' : List UInt8} :
    contentHash domain data = contentHash domain data' ↔
      Sha256.digest (domain.bytes ++ data) = Sha256.digest (domain.bytes ++ data') := by
  constructor
  · intro h
    have hhex := congrArg ContentHash.hex h
    exact hexChars_injective (String.ofList_injective hhex)
  · intro h
    unfold contentHash
    simp only [h]

/-- SHA-256 does not tell two messages apart -/
def Sha256.Collide (m m' : List UInt8) : Prop := m ≠ m' ∧ Sha256.digest m = Sha256.digest m'

/-- the hashes of bytes agree exactly if the bytes do, unless SHA-256 collides on the two -/
theorem contentHash_eq_iff {domain : HashDomain} {bytes bytes' : ByteArray} :
    contentHash domain bytes.toList = contentHash domain bytes'.toList ↔ bytes = bytes' ∨
      Sha256.Collide (domain.bytes ++ bytes.toList) (domain.bytes ++ bytes'.toList) := by
  have hmessage : domain.bytes ++ bytes.toList = domain.bytes ++ bytes'.toList ↔ bytes = bytes' :=
    ⟨fun heq => toList_injective (List.append_cancel_left heq), fun heq => by rw [heq]⟩
  rw [contentHash_inj, ← hmessage]
  unfold Sha256.Collide
  constructor
  · intro heq
    exact or_iff_not_imp_left.mpr fun hne => ⟨hne, heq⟩
  · rintro (heq | ⟨_, heq⟩)
    · rw [heq]
    · exact heq

namespace Heap

section
variable {h k : Heap} {corpus : Corpus}

/-- what is put into the hash of a heap -/
def message (h : Heap) : List UInt8 := HashDomain.heap.bytes ++ h.canonicalBytes.toList

/-- SHA-256 does not tell two heaps apart although they are stored differently -/
def Collides (h k : Heap) : Prop :=
  h.message ≠ k.message ∧ Sha256.digest h.message = Sha256.digest k.message

theorem digest_eq_iff :
    h.digest = k.digest ↔ h.canonicalBytes = k.canonicalBytes ∨ h.Collides k :=
  contentHash_eq_iff

/-- **Checked heaps with the same bytes are the same** -/
theorem eq_of_canonicalBytes (hok : h.check corpus = .ok ()) (hok' : k.check corpus = .ok ())
    (hf : h.Fits) (hf' : k.Fits) (heq : h.canonicalBytes = k.canonicalBytes) : h = k := by
  have hform : h.toJson = k.toJson :=
    Json.canonicalBytes_inj (readable_toJson (n := 0) hf) (readable_toJson (n := 0) hf') heq
  have hread := ofJson_toJson (wellFormed_of_check hok).typed hf
  rw [hform, ofJson_toJson (wellFormed_of_check hok').typed hf', hok, hok'] at hread
  exact (Except.ok.inj hread).symm

end

end Heap

/-! ## comparison -/

section
variable {x y : Binary64}

theorem Binary64.eq_of_zero (hx : x.code = 0) (hy : y.code = 0) (hs : x.negative = y.negative) :
    x = y := by
  rw [← x.ofCode_code, ← y.ofCode_code, hx, hy, hs]

/-- floats that are equal as numbers are the same, or zeros -/
theorem Binary64.eq_or_zero_of_alike (h : x.alike y = true) : x = y ∨ (x.code = 0 ∧ y.code = 0) := by
  unfold alike at h
  simp only [Bool.and_eq_true, Bool.or_eq_true, beq_iff_eq] at h
  exact h.2

theorem Binary64.alike_self (hx : x.isFinite = true) : x.alike x = true := by
  have hnan : x.isNaN = false := by
    unfold isFinite at hx
    unfold isNaN
    simp only [decide_eq_true_eq, decide_eq_false_iff_not] at hx ⊢
    omega
  unfold alike
  simp [hnan]

end

namespace Cell

/-- zeros in the same argument of two cells have the same sign -/
def SameZeros (c d : Cell) : Prop := ∀ name x y, c.arg? name = some (.scalar (.float x)) →
  d.arg? name = some (.scalar (.float y)) → x.code = 0 → y.code = 0 → x.negative = y.negative

section
variable {c d : Cell} {v w : Arg Address}

/-- arguments that compare as equal are the same, unless they are zeros -/
theorem eq_of_alikeArg (h : alikeArg v w = true)
    (hz : ∀ x y, v = .scalar (.float x) → w = .scalar (.float y) → x.code = 0 → y.code = 0 →
      x.negative = y.negative) : v = w := by
  cases v with
  | nested a =>
    cases w with
    | nested b => exact congrArg Arg.nested (beq_iff_eq.mp h)
    | scalar t => cases h
  | scalar s =>
    cases w with
    | nested b => cases h
    | scalar t =>
      change s.alike t = true at h
      unfold Scalar.alike at h
      split at h
      · next x y =>
        rcases Binary64.eq_or_zero_of_alike h with rfl | ⟨hx, hy⟩
        · rfl
        · rw [Binary64.eq_of_zero hx hy (hz x y rfl rfl hx hy)]
      · rw [beq_iff_eq.mp h]

theorem alikeArg_self (hv : v.Finite) : alikeArg v v = true := by
  cases v with
  | nested a => exact beq_self_eq_true a
  | scalar s =>
    show s.alike s = true
    cases s with
    | float x => exact Binary64.alike_self (hv _ rfl x rfl)
    | _ => exact beq_self_eq_true _

theorem alike_iff : c.alike d = true ↔ c.kind = d.kind ∧ c.parent = d.parent ∧ c.next = d.next ∧
    c.body = d.body ∧ List.Forall₂ (fun e f => e.1 = f.1 ∧ alikeArg e.2 f.2 = true)
      c.args.entries d.args.entries := by
  unfold alike
  simp only [Bool.and_eq_true, beq_iff_eq, List.all_eq_true, List.forall₂_iff_zip, and_assoc,
    Prod.forall]

theorem eq_of_alike (h : c.alike d = true) (hz : c.SameZeros d) : c = d := by
  obtain ⟨hkind, hparent, hnext, hbody, hargs⟩ := alike_iff.mp h
  have hentries : c.args.entries = d.args.entries := by
    obtain ⟨hlen, hall⟩ := List.forall₂_iff_get.mp hargs
    refine List.ext_get hlen fun i hi hi' => ?_
    obtain ⟨hname, hval⟩ := hall i hi hi'
    have hc : c.arg? _ = some _ := Entries.find?_of_mem c.args.sorted (List.get_mem _ ⟨i, hi⟩)
    have hd : d.arg? _ = some _ := Entries.find?_of_mem d.args.sorted (List.get_mem _ ⟨i, hi'⟩)
    refine Prod.ext hname (eq_of_alikeArg hval fun x y hx hy => ?_)
    rw [hx] at hc
    rw [← hname, hy] at hd
    exact hz _ x y hc hd
  have hmaps : c.args = d.args :=
    NameMap.ext_find? fun name => congrArg (Entries.find? name) hentries
  cases c
  cases d
  simp_all

theorem alike_self (hc : ∀ e ∈ c.args.entries, e.2.Finite) : c.alike c = true :=
  alike_iff.mpr ⟨rfl, rfl, rfl, rfl,
    List.forall₂_same.mpr fun e he => ⟨rfl, alikeArg_self (hc e he)⟩⟩

theorem sameZeros_self (c : Cell) : c.SameZeros c := by
  intro name x y hx hy _ _
  cases hx.symm.trans hy
  rfl

end

end Cell

namespace Heap

/-- zeros in the same argument of two cells at the same address have the same sign -/
def SameZeros (h k : Heap) : Prop := ∀ (a : Address) (c d : Cell), h.cells[a]? = some c →
  k.cells[a]? = some d → c.SameZeros d

section
variable {h k : Heap} {corpus : Corpus}

theorem alike_iff : h.alike k = true ↔
    List.Forall₂ (fun c d => c.alike d = true) h.cells.toList k.cells.toList := by
  unfold alike size
  simp only [Bool.and_eq_true, beq_iff_eq, List.all_eq_true, List.forall₂_iff_zip,
    Array.length_toList, Prod.forall]

/-- **Heaps that compare as equal are the same**, up to the signs of zeros -/
theorem eq_of_alike (halike : h.alike k = true) (hz : h.SameZeros k) : h = k := by
  obtain ⟨hlen, hall⟩ := List.forall₂_iff_get.mp (alike_iff.mp halike)
  have hcells : h.cells.toList = k.cells.toList := by
    refine List.ext_get hlen fun a ha ha' => Cell.eq_of_alike (hall a ha ha') ?_
    refine hz a _ _ ?_ ?_
    · rw [← Array.getElem?_toList]
      exact List.getElem?_eq_getElem ha
    · rw [← Array.getElem?_toList]
      exact List.getElem?_eq_getElem ha'
  cases h
  cases k
  exact congrArg Heap.mk (Array.toList_inj.mp hcells)

theorem sameZeros_self (h : Heap) : h.SameZeros h := by
  intro a c d hc hd
  cases hc.symm.trans hd
  exact c.sameZeros_self

/-- no NaN is left in a heap that passes the check -/
theorem alike_self (hok : h.check corpus = .ok ()) : h.alike h = true := by
  refine alike_iff.mpr (List.forall₂_same.mpr fun c hc => Cell.alike_self fun e he => ?_)
  obtain ⟨_, _, hall⟩ := (wellFormed_of_check hok).typed c hc
  exact (hall e he).1

/-- **When two checked heaps are the same.** Their bytes agree exactly if their cells do, and so do
their digests, unless SHA-256 collides on the two. They compare as equal if their cells agree, and
conversely if no zero of the one has another sign than that of the other. -/
theorem canonicalBytes_eq_iff (hok : h.check corpus = .ok ()) (hok' : k.check corpus = .ok ())
    (hsize : h.size ≤ UInt64.size) (hsize' : k.size ≤ UInt64.size) :
    (h.canonicalBytes = k.canonicalBytes ↔ h = k) ∧
    (h.digest = k.digest ↔ h = k ∨ h.Collides k) ∧
    (h = k ↔ h.alike k = true ∧ h.SameZeros k) := by
  have hbytes : h.canonicalBytes = k.canonicalBytes ↔ h = k :=
    ⟨eq_of_canonicalBytes hok hok' (fits_of_check hok hsize) (fits_of_check hok' hsize'),
      fun heq => by rw [heq]⟩
  refine ⟨hbytes, digest_eq_iff.trans (or_congr_left hbytes), ?_, fun ⟨ha, hz⟩ => eq_of_alike ha hz⟩
  rintro rfl
  exact ⟨alike_self hok, sameZeros_self h⟩

end

end Heap

namespace Sample

/-- a place on the first axis, its second coordinate a zero with or without a sign -/
def origin (y : Binary64) : Heap where
  cells := #[.sentinel, ⟨.coordinate, .nothing, .nothing, .nothing,
    ⟨[("x", .scalar (.integer 0)), ("y", .scalar (.float y)), ("z", .scalar (.integer 0))],
      (Entries.sorted_congr (by rfl)).mpr
        (show Entries.Sorted [("x", ()), ("y", ()), ("z", ())] by decide)⟩⟩]

def zero : Binary64 := ⟨0⟩

def negativeZero : Binary64 := ⟨0x8000000000000000⟩

theorem origin_canonicalBytes_ne : (Sample.origin zero).check Corpus.builtIn = .ok () ∧
    (Sample.origin half).check Corpus.builtIn = .ok () ∧
    (Sample.origin zero).canonicalBytes ≠ (Sample.origin half).canonicalBytes ∧
    (Sample.origin zero).alike (Sample.origin half) = false := by
  have hok : (Sample.origin zero).check Corpus.builtIn = .ok () := by decide +kernel
  have hok' : (Sample.origin half).check Corpus.builtIn = .ok () := by decide +kernel
  obtain ⟨hbytes, _⟩ := Heap.canonicalBytes_eq_iff hok hok' (by decide) (by decide)
  exact ⟨hok, hok', mt hbytes.mp (by decide +kernel), by decide +kernel⟩

/-- the comparison does not see the sign of a zero, the bytes show it -/
theorem origin_has_two_texts : (Sample.origin zero).check Corpus.builtIn = .ok () ∧
    (Sample.origin negativeZero).check Corpus.builtIn = .ok () ∧
    (Sample.origin zero).alike (Sample.origin negativeZero) = true ∧
    (Sample.origin zero).canonicalBytes ≠ (Sample.origin negativeZero).canonicalBytes := by
  have hok : (Sample.origin zero).check Corpus.builtIn = .ok () := by decide +kernel
  have hok' : (Sample.origin negativeZero).check Corpus.builtIn = .ok () := by decide +kernel
  refine ⟨hok, hok', by decide +kernel, fun heq => ?_⟩
  have hcells := Heap.eq_of_canonicalBytes hok hok' (Heap.fits_of_check hok (by decide))
    (Heap.fits_of_check hok' (by decide)) heq
  exact absurd hcells (by decide +kernel)

end Sample

end ScriptHeap
