import ScriptHeap.Node.Basic
import ScriptHeap.Json.Reader
import ScriptHeap.Json.Canonical
import ScriptHeap.Digest.ContentHash
/-!
# Trees as JSON

* `Node.toJson`        an object with `args`, `kind` and, unless it is empty, `body`;
* `Node.digest`        the hash of the canonical text;
* `ShapeFault`         where and why a JSON value is no tree;
* `Node.ofJson`        the tree of a JSON value; objects among the arguments are nodes;
* `Node.ofBytes`       the tree of JSON text.
-/

namespace ScriptHeap

/-! ## writing -/

namespace Node

mutual

def toJson : Node → Json
  | ⟨kind, args, []⟩ => .object [("args", .object (argsToJson args)), ("kind", .string kind)]
  | ⟨kind, args, first :: rest⟩ =>
    .object [("args", .object (argsToJson args)),
      ("body", .array (first.toJson :: bodyToJson rest)), ("kind", .string kind)]

/-- the arguments under their names -/
def argsToJson : List (String × Arg Node) → List (String × Json)
  | [] => []
  | (name, .scalar s) :: rest => (name, s.toJson) :: argsToJson rest
  | (name, .nested c) :: rest => (name, c.toJson) :: argsToJson rest

/-- the statements in order -/
def bodyToJson : List Node → List Json
  | [] => []
  | c :: rest => c.toJson :: bodyToJson rest

end

def digest (n : Node) : ContentHash := contentHash .tree n.toJson.canonicalBytes.toList

end Node

/-! ## faults -/

/-- a step into a JSON value -/
inductive JsonStep where
  /-- to an argument -/
  | arg (name : String)
  /-- to a statement -/
  | item (index : Nat)
deriving DecidableEq

def JsonStep.text : JsonStep → String
  | arg name => "/args/" ++ name
  | item index => "/body/" ++ toString index

/-- why a JSON value is no tree -/
inductive ShapeReason where
  | notObject
  | kindMissing
  | unexpectedKey (key : String)
  | argsNotObject
  | notArgument
  | bodyNotArray
deriving DecidableEq

def ShapeReason.message : ShapeReason → String
  | notObject => "expected node object"
  | kindMissing => "missing or non-string `kind`"
  | unexpectedKey key => "unexpected key `" ++ key ++ "`"
  | argsNotObject => "`args` must be an object"
  | notArgument => "expected scalar or node"
  | bodyNotArray => "`body` must be an array"

/-- where and why a JSON value is no tree; the steps lead from the whole value to the fault -/
structure ShapeFault where
  steps : List JsonStep
  reason : ShapeReason
deriving DecidableEq

def ShapeFault.path (f : ShapeFault) : String :=
  if f.steps.isEmpty then "/" else String.join (f.steps.map JsonStep.text)

def ShapeFault.message (f : ShapeFault) : String :=
  "AST shape at `" ++ f.path ++ "`: " ++ f.reason.message

/-- why bytes are no tree -/
inductive TreeFault where
  /-- they are not JSON text -/
  | syntaxError
  | shape (f : ShapeFault)
deriving DecidableEq

/-! ## reading -/

theorem Json.sizeOf_lt_of_member? {key : String} {v w : Json} (h : v.member? key = some w) :
    sizeOf w < sizeOf v := by
  cases v with
  | object members =>
    have := List.sizeOf_lt_of_mem (Entries.mem_of_find? h)
    simp only [Prod.mk.sizeOf_spec, Json.object.sizeOf_spec] at this ⊢
    omega
  | _ => cases h

namespace Node

def keys : List String := ["args", "body", "kind"]

/-- the kind of a node object that has no other keys than those of a node -/
def readHead (steps : List JsonStep) (v : Json) : Except ShapeFault String :=
  match v.members? with
  | none => .error ⟨steps, .notObject⟩
  | some members =>
    match (v.member? "kind").bind Json.string? with
    | none => .error ⟨steps, .kindMissing⟩
    | some kind =>
      match (members.map Prod.fst).find? fun key => !keys.contains key with
      | some key => .error ⟨steps, .unexpectedKey key⟩
      | none => .ok kind

mutual

/-- the tree of a JSON value; the steps lead to the value -/
def readNode (steps : List JsonStep) (v : Json) : Except ShapeFault Node := do
  let kind ← readHead steps v
  let args ← (match _h : v.member? "args" with
    | none => .ok []
    | some (.object args) => readArgs steps args
    | some _ => .error ⟨steps, .argsNotObject⟩ : Except ShapeFault (List (String × Arg Node)))
  let body ← (match _h : v.member? "body" with
    | none | some .null => .ok []
    | some (.array items) => readBody steps 0 items
    | some _ => .error ⟨steps, .bodyNotArray⟩ : Except ShapeFault (List Node))
  return ⟨kind, Entries.ofList args, body⟩
termination_by sizeOf v
decreasing_by
  · have := Json.sizeOf_lt_of_member? _h
    simp only [Json.object.sizeOf_spec] at this
    omega
  · have := Json.sizeOf_lt_of_member? _h
    simp only [Json.array.sizeOf_spec] at this
    omega

/-- the arguments, in the order of the members -/
def readArgs (steps : List JsonStep) :
    List (String × Json) → Except ShapeFault (List (String × Arg Node))
  | [] => .ok []
  | (name, v) :: rest => do
    let value ← (if v.isObject then (readNode (steps ++ [.arg name]) v).map .nested
      else match Scalar.ofJson? v with
        | some s => .ok (.scalar s)
        | none => .error ⟨steps ++ [.arg name], .notArgument⟩ : Except ShapeFault (Arg Node))
    let values ← readArgs steps rest
    return (name, value) :: values
termination_by members => sizeOf members

/-- the statements, counted from an index -/
def readBody (steps : List JsonStep) (index : Nat) : List Json → Except ShapeFault (List Node)
  | [] => .ok []
  | v :: rest => do
    let n ← readNode (steps ++ [.item index]) v
    let ns ← readBody steps (index + 1) rest
    return n :: ns
termination_by items => sizeOf items

end

def ofJson (v : Json) : Except ShapeFault Node := readNode [] v

def ofBytes (lib : JsonLibrary) (bytes : ByteArray) : Except TreeFault Node :=
  match Json.ofBytes? lib bytes with
  | none => .error .syntaxError
  | some v => (ofJson v).mapError .shape

end Node

end ScriptHeap
