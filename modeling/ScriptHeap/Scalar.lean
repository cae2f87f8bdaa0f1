import ScriptHeap.Json.Basic
/-!
# Scalars and arguments

* `Scalar`             an integer, a float, a string or a boolean;
* `Scalar.alike`       equality with floats compared as numbers;
* `Scalar.toJson`, `Scalar.ofJson?`   the JSON form; a float that is not finite has none;
* `Arg`                a scalar or a nested thing: a node in a tree, an address in a heap.
-/

namespace ScriptHeap

/-- a value without parts -/
inductive Scalar where
  | integer (i : Int64)
  | float (x : Binary64)
  | string (s : String)
  | boolean (b : Bool)
deriving DecidableEq

namespace Scalar

/-- the category for messages -/
def category : Scalar → String
  | integer _ => "integer"
  | float _ => "float"
  | string _ => "string"
  | boolean _ => "boolean"

def alike : Scalar → Scalar → Bool
  | float x, float y => x.alike y
  | s, t => s == t

/-- the JSON form; null for a float that is not finite -/
def toJson : Scalar → Json
  | integer i => .number (.integer i.toInt)
  | float x => if x.isFinite then .number (.float x) else .null
  | string s => .string s
  | boolean b => .bool b

/-- the scalar of a JSON value: no array, object or null, and no integer beyond 64 bits -/
def ofJson? : Json → Option Scalar
  | .bool b => some (.boolean b)
  | .string s => some (.string s)
  | .number (.float x) => some (.float x)
  | .number (.integer i) => (Json.int64? (.number (.integer i))).map .integer
  | _ => none

end Scalar

/-- an argument: a scalar, or something nested -/
inductive Arg (α : Type) where
  | scalar (s : Scalar)
  | nested (c : α)
deriving DecidableEq

namespace Arg

section
variable {α β : Type}

def nested? : Arg α → Option α
  | nested c => some c
  | scalar _ => none

def map (f : α → β) : Arg α → Arg β
  | scalar s => scalar s
  | nested c => nested (f c)

end

end Arg

end ScriptHeap
