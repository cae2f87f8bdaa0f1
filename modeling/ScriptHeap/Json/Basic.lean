import ScriptHeap.NameMap
import ScriptHeap.Binary64.Basic
/-!
# JSON values

* `Number`             an integer or a double; the two are never the same number;
* `Json`               a JSON value; an object is its list of members;
* `Json.member?`       the member of an object under a key;
* `Json.int64?`, `Json.index?`   the integers that fit a signed word, and those that fit an index;
* `Json.normalize`     the same value with the members of every object in the order of their keys.
-/

namespace ScriptHeap

/-- a number as JSON text tells it apart: with a fraction or an exponent, or without -/
inductive Number where
  | integer (i : Int)
  | float (x : Binary64)
deriving DecidableEq

inductive Json where
  | null
  | bool (b : Bool)
  | number (n : Number)
  | string (s : String)
  | array (items : List Json)
  | object (members : List (String × Json))

namespace Json

instance : Inhabited Json := ⟨null⟩

/-! ## views -/

def ofNat (n : Nat) : Json := .number (.integer n)

def ofStrings (l : List String) : Json := .array (l.map .string)

def isObject : Json → Bool
  | object _ => true
  | _ => false

def string? : Json → Option String
  | string s => some s
  | _ => none

def members? : Json → Option (Entries Json)
  | object members => some members
  | _ => none

def items? : Json → Option (List Json)
  | array items => some items
  | _ => none

def member? (key : String) : Json → Option Json
  | object members => Entries.find? key members
  | _ => none

def int64? : Json → Option Int64
  | number (.integer i) => if Int64.minValue.toInt ≤ i ∧ i ≤ Int64.maxValue.toInt then some (Int64.ofInt i) else none
  | _ => none

def index? : Json → Option Nat
  | number (.integer i) => if 0 ≤ i ∧ i.toNat < UInt64.size then some i.toNat else none
  | _ => none

/-! ## members in order -/

mutual

def normalize : Json → Json
  | array items => array (normalizeItems items)
  | object members => object (Entries.ofList (normalizeMembers members))
  | v => v

/-- `normalize` on every item -/
def normalizeItems : List Json → List Json
  | [] => []
  | v :: rest => normalize v :: normalizeItems rest

/-- `normalize` on the value of every member -/
def normalizeMembers : List (String × Json) → List (String × Json)
  | [] => []
  | (key, v) :: rest => (key, normalize v) :: normalizeMembers rest

end

theorem normalizeItems_eq_map (items : List Json) : normalizeItems items = items.map normalize := by
  induction items with
  | nil => rw [normalizeItems, List.map_nil]
  | cons v rest ih => rw [normalizeItems, ih, List.map_cons]

theorem normalizeMembers_eq_map (members : List (String × Json)) :
    normalizeMembers members = members.map fun e => (e.1, normalize e.2) := by
  induction members with
  | nil => rw [normalizeMembers, List.map_nil]
  | cons e rest ih => rw [normalizeMembers, ih, List.map_cons]

end Json

end ScriptHeap
