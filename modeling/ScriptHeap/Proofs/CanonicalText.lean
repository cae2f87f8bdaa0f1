import Mathlib.Data.Set.Operations
import ScriptHeap.Proofs.MemberOrder
import ScriptHeap.Proofs.ReadValues
import ScriptHeap.Sample
/-!
# Canonical text is a normal form

* `Json.Told`          the tokens of a value tell it apart from any other, whatever follows them;
* `Json.told`          so do those of every value with its members in order;
* `Json.canonicalBytes_inj`   so do its bytes, however deep it nests;
* `Json.ofBytes?_canonicalBytes_of_proper`   a library that reads doubles back reads a value back up to
                       the order of members, unless it nests too deep;
* `Json.canonical_text`   all of this together, and that what is read is read back as it is.
-/

namespace ScriptHeap

namespace Json

/-! ## tokens tell values apart -/

/-- where the tokens of a value stand before others, no other value can be found there -/
def Told (v : Json) : Prop :=
  ∀ w rest rest', v.spell rest = w.spell rest' → v = w ∧ rest = rest'

/-- the first token of a value -/
def opener : Json → Token
  | null => .null
  | bool b => .bool b
  | number n => .number n
  | string s => .string s
  | array _ => .openArray
  | object _ => .openObject

section
variable {v w : Json} {items items' : List Json} {members members' : List (String × Json)}
  {rest rest' : List Token}

theorem head?_spell (v : Json) (rest : List Token) : (v.spell rest).head? = some v.opener := by
  cases v with
  | array items => cases items <;> rw [spell] <;> rfl
  | object members => cases members <;> rw [spell] <;> rfl
  | _ => rw [spell]; rfl

theorem opener_eq (h : v.spell rest = w.spell rest') : v.opener = w.opener := by
  have hhead := congrArg List.head? h
  rw [head?_spell, head?_spell] at hhead
  exact Option.some.inj hhead

/-- where an array ends, no value stands -/
theorem spell_ne_closeArray (v : Json) (rest rest' : List Token) :
    v.spell rest ≠ .closeArray :: rest' := by
  intro h
  obtain ⟨t, ts, hspell, ht⟩ := Reading.exists_spell v rest
  rw [hspell] at h
  exact ht (List.head_eq_of_cons_eq h)

/-- a value of one token is told by it -/
theorem told_of_single (hspell : ∀ rest, v.spell rest = v.opener :: rest)
    (hopener : ∀ w, v.opener = w.opener → v = w) : v.Told := by
  intro w rest rest' h
  obtain rfl := hopener w (opener_eq h)
  rw [hspell, hspell] at h
  exact ⟨rfl, List.tail_eq_of_cons_eq h⟩

/-- further items are told apart, and where they end -/
theorem told_items (hitems : ∀ v ∈ items, v.Told)
    (h : spellItems items rest = spellItems items' rest') : items = items' ∧ rest = rest' := by
  induction items generalizing items' with
  | nil =>
    cases items' with
    | nil =>
      rw [spellItems, spellItems] at h
      exact ⟨rfl, List.tail_eq_of_cons_eq h⟩
    | cons w items' =>
      rw [spellItems, spellItems] at h
      cases List.head_eq_of_cons_eq h
  | cons v items ih =>
    obtain ⟨hv, hitems⟩ := List.forall_mem_cons.mp hitems
    cases items' with
    | nil =>
      rw [spellItems, spellItems] at h
      cases List.head_eq_of_cons_eq h
    | cons w items' =>
      rw [spellItems, spellItems] at h
      obtain ⟨rfl, hrest⟩ := hv w _ _ (List.tail_eq_of_cons_eq h)
      obtain ⟨rfl, rfl⟩ := ih hitems hrest
      exact ⟨rfl, rfl⟩

/-- so are further members -/
theorem told_members (hmembers : ∀ e ∈ members, e.2.Told)
    (h : spellMembers members rest = spellMembers members' rest') :
    members = members' ∧ rest = rest' := by
  induction members generalizing members' with
  | nil =>
    cases members' with
    | nil =>
      rw [spellMembers, spellMembers] at h
      exact ⟨rfl, List.tail_eq_of_cons_eq h⟩
    | cons e members' =>
      rw [spellMembers, spellMembers] at h
      cases List.head_eq_of_cons_eq h
  | cons e members ih =>
    obtain ⟨key, v⟩ := e
    obtain ⟨hv, hmembers⟩ := List.forall_mem_cons.mp hmembers
    cases members' with
    | nil =>
      rw [spellMembers, spellMembers] at h
      cases List.head_eq_of_cons_eq h
    | cons e members' =>
      obtain ⟨key', w⟩ := e
      rw [spellMembers, spellMembers] at h
      have hentry := List.tail_eq_of_cons_eq h
      cases List.head_eq_of_cons_eq hentry
      have hvalue := List.tail_eq_of_cons_eq (List.tail_eq_of_cons_eq hentry)
      obtain ⟨rfl, hrest⟩ := hv w _ _ hvalue
      obtain ⟨rfl, rfl⟩ := ih hmembers hrest
      exact ⟨rfl, rfl⟩

/-- an array is told by its items -/
theorem told_array (hitems : ∀ v ∈ items, v.Told)
    (h : (array items).spell rest = (array items').spell rest') :
    items = items' ∧ rest = rest' := by
  cases items with
  | nil =>
    cases items' with
    | nil =>
      rw [spell, spell] at h
      exact ⟨rfl, List.tail_eq_of_cons_eq (List.tail_eq_of_cons_eq h)⟩
    | cons w items' =>
      rw [spell, spell] at h
      exact absurd (List.tail_eq_of_cons_eq h).symm (spell_ne_closeArray w _ _)
  | cons v items =>
    cases items' with
    | nil =>
      rw [spell, spell] at h
      exact absurd (List.tail_eq_of_cons_eq h) (spell_ne_closeArray v _ _)
    | cons w items' =>
      rw [spell, spell] at h
      refine told_items hitems ?_
      rw [spellItems, spellItems, List.tail_eq_of_cons_eq h]

/-- and an object by its members -/
theorem told_object (hmembers : ∀ e ∈ members, e.2.Told)
    (h : (object members).spell rest = (object members').spell rest') :
    members = members' ∧ rest = rest' := by
  cases members with
  | nil =>
    cases members' with
    | nil =>
      rw [spell, spell] at h
      exact ⟨rfl, List.tail_eq_of_cons_eq (List.tail_eq_of_cons_eq h)⟩
    | cons e members' =>
      rw [spell, spell] at h
      cases List.head_eq_of_cons_eq (List.tail_eq_of_cons_eq h)
  | cons e members =>
    cases members' with
    | nil =>
      rw [spell, spell] at h
      cases List.head_eq_of_cons_eq (List.tail_eq_of_cons_eq h)
    | cons e' members' =>
      rw [spell, spell] at h
      refine told_members hmembers ?_
      rw [spellMembers, spellMembers, List.tail_eq_of_cons_eq h]

/-- **Values are told apart by their tokens** -/
theorem told (hv : v.Ordered) : v.Told := by
  induction hv with
  | null =>
    refine told_of_single (fun rest => by rw [spell, opener]) fun w h => ?_
    cases w <;> cases h
    rfl
  | bool b =>
    refine told_of_single (fun rest => by rw [spell, opener]) fun w h => ?_
    cases w <;> cases h
    rfl
  | number n =>
    refine told_of_single (fun rest => by rw [spell, opener]) fun w h => ?_
    cases w <;> cases h
    rfl
  | string s =>
    refine told_of_single (fun rest => by rw [spell, opener]) fun w h => ?_
    cases w <;> cases h
    rfl
  | array _ ih =>
    intro w rest rest' h
    cases w with
    | array items' =>
      obtain ⟨rfl, rfl⟩ := told_array ih h
      exact ⟨rfl, rfl⟩
    | _ => cases opener_eq h
  | object _ _ ih =>
    intro w rest rest' h
    cases w with
    | object members' =>
      obtain ⟨rfl, rfl⟩ := told_object ih h
      exact ⟨rfl, rfl⟩
    | _ => cases opener_eq h

end

/-! ## bytes tell values apart -/

section
variable {m n : Nat} {v w : Json}

/-- **Values are told apart by their canonical bytes**, however deep they nest -/
theorem canonicalBytes_inj (hv : v.Readable m) (hw : w.Readable n)
    (h : v.canonicalBytes = w.canonicalBytes) : v = w := by
  have hchars : ∀ {n : Nat} {v : Json}, v.Readable n →
      v.canonical = String.ofList (v.tokens.flatMap Token.chars) := fun hv => by
    rw [canonical, canonicalChars, normalize_of_ordered hv.ordered]
  have htext : v.canonical = w.canonical := String.toByteArray_inj.mp h
  rw [hchars hv, hchars hw] at htext
  have htokens : v.tokens = w.tokens := by
    -- the tokens can be told from the text, so any library that reads doubles back will do
    have hlib := JsonLibrary.nearest_readsBack
    have hscan := congrArg (Token.scan? .nearest) (String.ofList_injective htext)
    rw [Token.scan?_chars_of_readsBack hlib (scannable_tokens hv),
      Token.scan?_chars_of_readsBack hlib (scannable_tokens hw)] at hscan
    exact Option.some.inj hscan
  exact (told hv.ordered w [] [] htokens).1

/-- a value is stored as its normal form -/
theorem canonicalBytes_normalize (hv : v.Proper) :
    v.normalize.canonicalBytes = v.canonicalBytes := by
  have hidem : v.normalize.normalize = v.normalize := normalize_of_ordered (ordered_normalize hv)
  rw [canonicalBytes, canonical, canonicalChars, hidem]
  rfl

/-- values have the same bytes exactly if they differ only in the order of members -/
theorem canonicalBytes_eq_iff_reordered (hv : v.Proper) (hw : w.Proper) :
    v.canonicalBytes = w.canonicalBytes ↔ v.Reordered w := by
  rw [reordered_iff hv hw, ← canonicalBytes_normalize hv, ← canonicalBytes_normalize hw]
  refine ⟨fun h => ?_, fun h => by rw [h]⟩
  exact canonicalBytes_inj (readable_normalize hv le_rfl) (readable_normalize hw le_rfl) h

/-- a value is read from its canonical bytes with its members in order -/
theorem ofBytes?_canonicalBytes_of_proper {lib : JsonLibrary} (hlib : lib.ReadsBack) (hv : v.Proper)
    (hn : v.nesting ≤ lib.nestingLimit) : ofBytes? lib v.canonicalBytes = some v.normalize := by
  rw [← canonicalBytes_normalize hv, ofBytes?_canonicalBytes hlib (readable_normalize hv hn)]

end

/-- **Canonical text is a normal form that is read back**, by a library that reads doubles back and
lets 127 arrays and objects be open. A value that nests no deeper is read from its canonical bytes,
up to the order of members; two values have the same bytes exactly if they differ only in that order,
so with members in order, as maps, they have the same bytes only if they are the same; and what is
read from any bytes is such a map, and is read again, the same, from its own canonical bytes. -/
theorem canonical_text {lib : JsonLibrary} (hlib : lib.ReadsBack) (hlimit : 127 ≤ lib.nestingLimit) :
    (∀ v : Json, v.Proper → v.nesting ≤ 127 →
      ∃ w, ofBytes? lib v.canonicalBytes = some w ∧ v.Reordered w ∧ (v.Ordered → w = v)) ∧
    (∀ v w : Json, v.Proper → w.Proper →
      (v.canonicalBytes = w.canonicalBytes ↔ v.Reordered w)) ∧
    Set.InjOn canonicalBytes {v | v.Proper ∧ v.Ordered} ∧
    ∀ bytes v, ofBytes? lib bytes = some v →
      v.Proper ∧ v.Ordered ∧ v.nesting ≤ lib.nestingLimit ∧
        ofBytes? lib v.canonicalBytes = some v := by
  refine ⟨fun v hv hn => ?_, fun v w hv hw => canonicalBytes_eq_iff_reordered hv hw, ?_, ?_⟩
  · have hread := ofBytes?_canonicalBytes_of_proper hlib hv (hn.trans hlimit)
    exact ⟨v.normalize, hread, reordered_normalize hv, normalize_of_ordered⟩
  · rintro v ⟨hv, hov⟩ w ⟨hw, how⟩ h
    exact canonicalBytes_inj (readable_iff.mpr ⟨hv, hov, le_rfl⟩)
      (readable_iff.mpr ⟨hw, how, le_rfl⟩) h
  · intro bytes v h
    have hread := readable_of_ofBytes? h
    obtain ⟨hv, hov, hn⟩ := readable_iff.mp hread
    exact ⟨hv, hov, hn, ofBytes?_canonicalBytes hlib hread⟩

end Json

namespace Sample

/-- both zeros, the numbers around them, and the ends of the integers -/
def numbers : Json := .array [.number (.float ⟨0x8000000000000000⟩), .number (.float ⟨0⟩),
  .number (.integer 0), .number (.integer (-9223372036854775808)),
  .number (.integer 18446744073709551615), .number (.float half)]

/-- text that has to be escaped, and text that has not -/
def escapes : Json := .string "\x22\\\x01\né"

/-- members out of order at two depths -/
def mixed : Json := .object [("b", .object [("d", numbers), ("c", escapes)]), ("a", .bool true)]

/-- the same members in order -/
def mixedInOrder : Json :=
  .object [("a", .bool true), ("b", .object [("c", escapes), ("d", numbers)])]

theorem mixed_reordered : mixed.Reordered mixedInOrder :=
  .trans (.member [] _ "b" (.members (.swap _ _ _))) (.members (.swap _ _ _))

theorem mixedInOrder_readable : mixedInOrder.Readable 3 := by
  have hnumbers : numbers.Readable 1 := by
    refine .array ?_
    simp only [List.forall_mem_cons]
    exact ⟨.number rfl, .number rfl, .number ⟨by decide, by decide⟩,
      .number ⟨by decide, by decide⟩, .number ⟨by decide, by decide⟩, .number rfl, nofun⟩
  have hinner : (Json.object [("c", escapes), ("d", numbers)]).Readable 2 := by
    refine .object (by decide) ?_
    simp only [List.forall_mem_cons]
    exact ⟨.string _, hnumbers, nofun⟩
  refine .object (by decide) ?_
  simp only [List.forall_mem_cons]
  exact ⟨.bool true, hinner, nofun⟩

theorem mixed_text : mixed.Proper ∧ mixed.nesting ≤ 127 ∧
    mixed.canonicalBytes = mixedInOrder.canonicalBytes ∧
    Json.ofBytes? .nearest mixed.canonicalBytes = some mixedInOrder ∧
    Json.ofBytes? .nearest mixedInOrder.canonicalBytes = some mixedInOrder := by
  obtain ⟨hp, ho, hn⟩ := Json.readable_iff.mp mixedInOrder_readable
  have hmixed : mixed.Proper := mixed_reordered.symm.proper hp
  have hlimit : mixed.nesting ≤ 127 := mixed_reordered.nesting_eq ▸ hn.trans (by decide)
  obtain ⟨hback, hsame, _, hagain⟩ :=
    Json.canonical_text JsonLibrary.nearest_readsBack (Nat.le_refl 127)
  have hbytes := (hsame mixed mixedInOrder hmixed hp).mpr mixed_reordered
  obtain ⟨w, hw, _, hmap⟩ := hback mixedInOrder hp (hn.trans (by decide))
  rw [hmap ho, ← hbytes] at hw
  exact ⟨hmixed, hlimit, hbytes, hw, (hagain _ _ hw).2.2.2⟩

end Sample

end ScriptHeap
