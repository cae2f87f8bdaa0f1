import Mathlib.Order.Nat
import ScriptHeap.Proofs.JsonValue
/-!
# The order of members

* `Json.Proper`        the values that there are: numbers that fit, and no key twice in an object;
* `Json.nesting`       how many arrays and objects are open at once in the text of a value;
* `Json.readable_iff`  what text is read as: proper, in order and nested no deeper than allowed;
* `Json.Reordered`     two values differ only in the order of the members of objects, at any depth;
* `Json.reordered_normalize`   a value differs from its normal form in nothing else;
* `Json.reordered_iff`   two values differ in nothing else exactly if they have one normal form.
-/

namespace ScriptHeap

/-! ## entries put in order -/

namespace Entries

section
variable {α β : Type} {l m : List (String × α)}

/-- names stay with changed values -/
theorem nodup_map (f : α → β) (hl : (l.map Prod.fst).Nodup) :
    ((l.map fun e => (e.1, f e.2)).map Prod.fst).Nodup := by
  rwa [List.map_map]

/-- entries of different names are put in order and no more -/
theorem perm_ofList (hl : (l.map Prod.fst).Nodup) : (ofList l).Perm l := by
  have hsorted : ((ofList l).map Prod.fst).Nodup := nodup_names (sorted_ofList l)
  refine (List.perm_ext_iff_of_nodup hsorted.of_map hl.of_map).mpr fun ⟨name, v⟩ => ?_
  rw [← find?_eq_some_iff hsorted, find?_ofList hl, find?_eq_some_iff hl]

/-- there is one order that they are put in -/
theorem ofList_eq_of_perm (h : l.Perm m) (hl : (l.map Prod.fst).Nodup) : ofList l = ofList m := by
  have hm : (m.map Prod.fst).Nodup := (h.map Prod.fst).nodup_iff.mp hl
  refine ext_find? (sorted_ofList l) (sorted_ofList m) fun name => Option.ext fun v => ?_
  rw [find?_ofList hl, find?_ofList hm, find?_eq_some_iff hl, find?_eq_some_iff hm, h.mem_iff]

end

end Entries

namespace Json

/-! ## proper values -/

/-- numbers that fit, and no key twice in an object: an object is a map -/
inductive Proper : Json → Prop
  | null : Proper null
  | bool (b : Bool) : Proper (bool b)
  | number {x : Number} (h : x.Fits) : Proper (number x)
  | string (s : String) : Proper (string s)
  | array {items : List Json} (h : ∀ v ∈ items, Proper v) : Proper (array items)
  | object {members : List (String × Json)} (hkeys : (members.map Prod.fst).Nodup)
    (h : ∀ e ∈ members, Proper e.2) : Proper (object members)

section
variable {items : List Json} {members : List (String × Json)}

theorem proper_array_iff : (array items).Proper ↔ ∀ v ∈ items, v.Proper :=
  ⟨fun h => by cases h; assumption, .array⟩

theorem proper_object_iff : (object members).Proper ↔
    (members.map Prod.fst).Nodup ∧ ∀ e ∈ members, e.2.Proper :=
  ⟨fun h => by cases h; exact ⟨‹_›, ‹_›⟩, fun ⟨hkeys, h⟩ => .object hkeys h⟩

theorem ordered_array_iff : (array items).Ordered ↔ ∀ v ∈ items, v.Ordered :=
  ⟨fun h => by cases h; assumption, .array⟩

theorem ordered_object_iff : (object members).Ordered ↔
    Entries.Sorted members ∧ ∀ e ∈ members, e.2.Ordered :=
  ⟨fun h => by cases h; exact ⟨‹_›, ‹_›⟩, fun ⟨hs, h⟩ => .object hs h⟩

end

/-! ## nesting -/

mutual

/-- how many arrays and objects are open at once -/
def nesting : Json → Nat
  | array items => nestingItems items + 1
  | object members => nestingMembers members + 1
  | _ => 0

/-- the greatest `nesting` of an item -/
def nestingItems : List Json → Nat
  | [] => 0
  | v :: rest => max (nesting v) (nestingItems rest)

/-- the greatest `nesting` of the value of a member -/
def nestingMembers : List (String × Json) → Nat
  | [] => 0
  | (_, v) :: rest => max (nesting v) (nestingMembers rest)

end

section
variable {n : Nat} {items : List Json} {members : List (String × Json)}

theorem nestingItems_le_iff : nestingItems items ≤ n ↔ ∀ v ∈ items, v.nesting ≤ n := by
  induction items with
  | nil => simp [nestingItems]
  | cons v items ih => rw [nestingItems, Nat.max_le, ih, List.forall_mem_cons]

theorem nestingMembers_le_iff : nestingMembers members ≤ n ↔ ∀ e ∈ members, e.2.nesting ≤ n := by
  induction members with
  | nil => simp [nestingMembers]
  | cons e members ih => rw [nestingMembers, Nat.max_le, ih, List.forall_mem_cons]

theorem nesting_array_le_iff : (array items).nesting ≤ n + 1 ↔ ∀ v ∈ items, v.nesting ≤ n := by
  rw [nesting, Nat.add_le_add_iff_right, nestingItems_le_iff]

theorem nesting_object_le_iff :
    (object members).nesting ≤ n + 1 ↔ ∀ e ∈ members, e.2.nesting ≤ n := by
  rw [nesting, Nat.add_le_add_iff_right, nestingMembers_le_iff]

end

/-- **The values that text is read as**: proper, in order and nested no deeper than allowed -/
theorem readable_iff {n : Nat} {v : Json} :
    v.Readable n ↔ v.Proper ∧ v.Ordered ∧ v.nesting ≤ n := by
  constructor
  · intro hv
    refine ⟨?_, hv.ordered, ?_⟩
    · induction hv with
      | null => exact .null
      | bool b => exact .bool b
      | number hx => exact .number hx
      | string s => exact .string s
      | array _ ih => exact .array ih
      | object hs _ ih => exact .object (Entries.nodup_names hs) ih
    · induction hv with
      | array _ ih => exact nesting_array_le_iff.mpr ih
      | object _ _ ih => exact nesting_object_le_iff.mpr ih
      | _ => exact Nat.zero_le _
  · rintro ⟨hp, ho, hn⟩
    induction hp generalizing n with
    | null => exact .null
    | bool b => exact .bool b
    | number hx => exact .number hx
    | string s => exact .string s
    | array _ ih =>
      cases n with
      | zero => cases hn
      | succ n =>
        have hitems := ordered_array_iff.mp ho
        have hnesting := nesting_array_le_iff.mp hn
        exact .array fun v hv => ih v hv (hitems v hv) (hnesting v hv)
    | object _ _ ih =>
      cases n with
      | zero => cases hn
      | succ n =>
        obtain ⟨hs, hmembers⟩ := ordered_object_iff.mp ho
        have hnesting := nesting_object_le_iff.mp hn
        exact .object hs fun e he => ih e he (hmembers e he) (hnesting e he)

/-! ## values that differ in the order of members -/

/-- the same value but for the order of the members of objects, at whatever depth they stand -/
inductive Reordered : Json → Json → Prop
  | refl (v : Json) : Reordered v v
  | trans {u v w : Json} (huv : Reordered u v) (hvw : Reordered v w) : Reordered u w
  | members {l m : List (String × Json)} (h : l.Perm m) : Reordered (object l) (object m)
  | item (before after : List Json) {v w : Json} (h : Reordered v w) :
    Reordered (array (before ++ v :: after)) (array (before ++ w :: after))
  | member (before after : List (String × Json)) (key : String) {v w : Json} (h : Reordered v w) :
    Reordered (object (before ++ (key, v) :: after)) (object (before ++ (key, w) :: after))

namespace Reordered

section
variable {v w : Json}

theorem symm (h : v.Reordered w) : w.Reordered v := by
  induction h with
  | refl v => exact .refl v
  | trans _ _ huv hvw => exact .trans hvw huv
  | members h => exact .members h.symm
  | item before after _ ih => exact .item before after ih
  | member before after key _ ih => exact .member before after key ih

theorem proper (h : v.Reordered w) (hv : v.Proper) : w.Proper := by
  induction h with
  | refl v => exact hv
  | trans _ _ huv hvw => exact hvw (huv hv)
  | members h =>
    obtain ⟨hkeys, hmembers⟩ := proper_object_iff.mp hv
    exact .object ((h.map Prod.fst).nodup_iff.mp hkeys) fun e he => hmembers e (h.mem_iff.mpr he)
  | item before after _ ih =>
    rw [proper_array_iff, List.forall_mem_append, List.forall_mem_cons] at hv ⊢
    exact ⟨hv.1, ih hv.2.1, hv.2.2⟩
  | member before after key _ ih =>
    rw [proper_object_iff, List.forall_mem_append, List.forall_mem_cons, List.map_append,
      List.map_cons] at hv ⊢
    exact ⟨hv.1, hv.2.1, ih hv.2.2.1, hv.2.2.2⟩

theorem nesting_eq (h : v.Reordered w) : v.nesting = w.nesting := by
  induction h with
  | refl v => rfl
  | trans _ _ huv hvw => exact huv.trans hvw
  | @members l m h =>
    have hnesting : nestingMembers l = nestingMembers m := eq_of_forall_ge_iff fun n => by
      simp only [nestingMembers_le_iff, h.mem_iff]
    rw [nesting, nesting, hnesting]
  | @item before after v w _ ih =>
    have hnesting : nestingItems (before ++ v :: after) = nestingItems (before ++ w :: after) :=
      eq_of_forall_ge_iff fun n => by
        simp only [nestingItems_le_iff, List.forall_mem_append, List.forall_mem_cons, ih]
    rw [nesting, nesting, hnesting]
  | @member before after key v w _ ih =>
    have hnesting : nestingMembers (before ++ (key, v) :: after) =
        nestingMembers (before ++ (key, w) :: after) := eq_of_forall_ge_iff fun n => by
      simp only [nestingMembers_le_iff, List.forall_mem_append, List.forall_mem_cons, ih]
    rw [nesting, nesting, hnesting]

/-- values that differ only in the order of members have one normal form -/
theorem normalize_eq (h : v.Reordered w) (hv : v.Proper) : v.normalize = w.normalize := by
  induction h with
  | refl v => rfl
  | trans huv _ ihuv ihvw => exact (ihuv hv).trans (ihvw (huv.proper hv))
  | @members l m h =>
    have hnames := Entries.nodup_map normalize (proper_object_iff.mp hv).1
    simp only [normalize, normalizeMembers_eq_map]
    rw [Entries.ofList_eq_of_perm (h.map _) hnames]
  | item before after _ ih =>
    rw [proper_array_iff, List.forall_mem_append, List.forall_mem_cons] at hv
    simp only [normalize, normalizeItems_eq_map, List.map_append, List.map_cons, ih hv.2.1]
  | member before after key _ ih =>
    have hmembers := (proper_object_iff.mp hv).2
    rw [List.forall_mem_append, List.forall_mem_cons] at hmembers
    simp only [normalize, normalizeMembers_eq_map, List.map_append, List.map_cons,
      ih hmembers.2.1]

end

section
variable {f : Json → Json} {items : List Json} {members : List (String × Json)}

/-- every item may be reordered, from the first to the last -/
theorem map_items (h : ∀ v ∈ items, v.Reordered (f v)) (before : List Json) :
    (array (before ++ items)).Reordered (array (before ++ items.map f)) := by
  induction items generalizing before with
  | nil => exact .refl _
  | cons v items ih =>
    obtain ⟨hv, hitems⟩ := List.forall_mem_cons.mp h
    have hrest := ih hitems (before ++ [f v])
    rw [List.append_assoc, List.append_assoc] at hrest
    exact .trans (.item before items hv) hrest

/-- so may the value of every member -/
theorem map_values (h : ∀ e ∈ members, e.2.Reordered (f e.2)) (before : List (String × Json)) :
    (object (before ++ members)).Reordered
      (object (before ++ members.map fun e => (e.1, f e.2))) := by
  induction members generalizing before with
  | nil => exact .refl _
  | cons e members ih =>
    obtain ⟨key, v⟩ := e
    obtain ⟨hv, hmembers⟩ := List.forall_mem_cons.mp h
    have hrest := ih hmembers (before ++ [(key, f v)])
    rw [List.append_assoc, List.append_assoc] at hrest
    exact .trans (.member before members key hv) hrest

end

end Reordered

/-! ## normal forms -/

section
variable {v w : Json}

theorem ordered_normalize (hv : v.Proper) : v.normalize.Ordered := by
  induction hv with
  | null => exact .null
  | bool b => exact .bool b
  | number _ => exact .number _
  | string s => exact .string s
  | array _ ih =>
    rw [normalize, normalizeItems_eq_map, ordered_array_iff, List.forall_mem_map]
    exact ih
  | @object members hkeys _ ih =>
    have hnames := Entries.nodup_map normalize hkeys
    rw [normalize, normalizeMembers_eq_map, ordered_object_iff]
    refine ⟨Entries.sorted_ofList _, fun e he => ?_⟩
    obtain ⟨e', he', rfl⟩ := List.mem_map.mp ((Entries.perm_ofList hnames).mem_iff.mp he)
    exact ih e' he'

/-- **A value differs from its normal form only in the order of members** -/
theorem reordered_normalize (hv : v.Proper) : v.Reordered v.normalize := by
  induction hv with
  | null => exact .refl _
  | bool b => exact .refl _
  | number _ => exact .refl _
  | string s => exact .refl _
  | array _ ih =>
    rw [normalize, normalizeItems_eq_map]
    exact .map_items ih []
  | @object members hkeys _ ih =>
    have hnames := Entries.nodup_map normalize hkeys
    rw [normalize, normalizeMembers_eq_map]
    exact .trans (.map_values ih []) (.members (Entries.perm_ofList hnames).symm)

/-- **Values differ only in the order of members exactly if they have one normal form** -/
theorem reordered_iff (hv : v.Proper) (hw : w.Proper) :
    v.Reordered w ↔ v.normalize = w.normalize := by
  refine ⟨fun h => h.normalize_eq hv, fun h => ?_⟩
  have hvw := reordered_normalize hv
  rw [h] at hvw
  exact .trans hvw (reordered_normalize hw).symm

/-- the normal form of a value is read if the value nests no deeper than allowed -/
theorem readable_normalize {n : Nat} (hv : v.Proper) (hn : v.nesting ≤ n) :
    v.normalize.Readable n := by
  have hreordered := reordered_normalize hv
  exact readable_iff.mpr ⟨hreordered.proper hv, ordered_normalize hv, hreordered.nesting_eq ▸ hn⟩

end

end Json

end ScriptHeap
