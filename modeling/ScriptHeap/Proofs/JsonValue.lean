import ScriptHeap.Json.Basic
import ScriptHeap.Proofs.LookUp
/-!
# JSON values as maps

* `Json.Ordered`       the members of every object are in the order of their keys, no key is there twice:
                       an object is a map;
* `Json.normalize_of_ordered`   such a value is left alone when its members are put in order;
* `Number.Fits`        the numbers that text is read as: integers of a word, with or without a sign,
                       and doubles that are finite;
* `Json.Readable`      the values that text is read as, by how many arrays and objects may be open.
-/

namespace ScriptHeap

namespace Json

/-! ## members in order -/

/-- the members of every object are in the order of their keys -/
inductive Ordered : Json → Prop
  | null : Ordered null
  | bool (b : Bool) : Ordered (bool b)
  | number (n : Number) : Ordered (number n)
  | string (s : String) : Ordered (string s)
  | array {items : List Json} (h : ∀ v ∈ items, Ordered v) : Ordered (array items)
  | object {members : Entries Json} (hs : members.Sorted) (h : ∀ e ∈ members, Ordered e.2) :
    Ordered (object members)

theorem normalize_of_ordered {v : Json} (hv : v.Ordered) : v.normalize = v := by
  induction hv with
  | null => simp [normalize]
  | bool b => simp [normalize]
  | number n => simp [normalize]
  | string s => simp [normalize]
  | @array items _ ih =>
    have hitems : items.map normalize = items := (List.map_congr_left ih).trans (List.map_id' items)
    rw [normalize, normalizeItems_eq_map, hitems]
  | @object members hs _ ih =>
    have hmember : ∀ e ∈ members, (e.1, normalize e.2) = e := fun e he => Prod.ext rfl (ih e he)
    have hmembers : members.map (fun e => (e.1, normalize e.2)) = members :=
      (List.map_congr_left hmember).trans (List.map_id' members)
    rw [normalize, normalizeMembers_eq_map, hmembers, Entries.ofList_of_sorted hs]

end Json

/-! ## values that text is read as -/

/-- an integer of a word with or without a sign, or a finite double -/
def Number.Fits : Number → Prop
  | integer i => Int64.minValue.toInt ≤ i ∧ i < UInt64.size
  | float x => x.isFinite = true

namespace Json

/-- a map with numbers that fit, with at most so many arrays and objects open at once -/
inductive Readable : Nat → Json → Prop
  | null {n : Nat} : Readable n null
  | bool {n : Nat} (b : Bool) : Readable n (bool b)
  | number {n : Nat} {x : Number} (h : x.Fits) : Readable n (number x)
  | string {n : Nat} (s : String) : Readable n (string s)
  | array {n : Nat} {items : List Json} (h : ∀ v ∈ items, Readable n v) :
    Readable (n + 1) (array items)
  | object {n : Nat} {members : Entries Json} (hs : members.Sorted)
    (h : ∀ e ∈ members, Readable n e.2) : Readable (n + 1) (object members)

theorem Readable.ordered {n : Nat} {v : Json} (hv : v.Readable n) : v.Ordered := by
  induction hv with
  | null => exact .null
  | bool b => exact .bool b
  | number _ => exact .number _
  | string s => exact .string s
  | array _ ih => exact .array ih
  | object hs _ ih => exact .object hs ih

theorem not_readable_zero_object {members : Entries Json} : ¬ (object members).Readable 0 := nofun

theorem readable_array_iff {n : Nat} {items : List Json} :
    (array items).Readable (n + 1) ↔ ∀ v ∈ items, v.Readable n :=
  ⟨fun h => by cases h; assumption, .array⟩

theorem readable_object_iff {n : Nat} {members : Entries Json} :
    (object members).Readable (n + 1) ↔ members.Sorted ∧ ∀ e ∈ members, e.2.Readable n :=
  ⟨fun h => by cases h; exact ⟨‹_›, ‹_›⟩, fun ⟨hs, h⟩ => .object hs h⟩

end Json

end ScriptHeap
