import ScriptHeap.Heap.Check
import ScriptHeap.Json.Reader
import ScriptHeap.Json.Canonical
import ScriptHeap.Digest.ContentHash
/-!
# Heaps as JSON

* `Cell.toJson`, `Heap.toJson`   an array of records; addresses are bare integers;
* `Heap.digest`        the hash of the canonical text;
* `Cell.ofJson`        the cell of a record; the corpus says which arguments are addresses;
* `DecodeFault`        why a JSON value or bytes are no heap;
* `Heap.ofJson`, `Heap.ofBytes`   the heap of a JSON value and of JSON text, if it passes the check.
-/

namespace ScriptHeap

/-! ## writing -/

def Arg.toJson : Arg Address → Json
  | scalar s => s.toJson
  | nested a => Json.ofNat a

def Cell.toJson (c : Cell) : Json :=
  .object [
    ("args", .object (c.args.entries.map fun e => (e.1, e.2.toJson))),
    ("body", Json.ofNat c.body),
    ("kind", .string c.kind.name),
    ("next", Json.ofNat c.next),
    ("parent", Json.ofNat c.parent)]

namespace Heap

def toJson (h : Heap) : Json := .array (h.cells.toList.map Cell.toJson)

/-- the canonical text in UTF-8: what is stored and hashed -/
def canonicalBytes (h : Heap) : ByteArray := h.toJson.canonicalBytes

def digest (h : Heap) : ContentHash := contentHash .heap h.canonicalBytes.toList

end Heap

/-! ## reading -/

/-- why a JSON value or bytes are no heap -/
inductive DecodeFault where
  /-- they are not JSON text -/
  | syntaxError
  | notArray
  | corrupt (c : Corruption)
deriving DecidableEq

def DecodeFault.message? : DecodeFault → Option String
  | syntaxError => none
  | notArray => some "persisted heap parse error: persisted heap must be a JSON array"
  | corrupt c => some c.message

namespace Cell

def keys : List String := ["args", "body", "kind", "next", "parent"]

/-- the kind of a record that has no other keys than those of a record -/
def readKind (v : Json) : Except CorruptReason String :=
  match v.members? with
  | none => .error (.malformedRecord .notObject)
  | some members =>
    match (members.map Prod.fst).find? fun key => !keys.contains key with
    | some key => .error (.malformedRecord (.unexpectedKey key))
    | none =>
      match (v.member? "kind").bind Json.string? with
      | none => .error (.malformedRecord .kindNotString)
      | some name => .ok name

/-- an argument that a shape declares -/
def readArg (shape : KindShape) (name : String) (v : Json) : Except CorruptReason (Arg Address) :=
  match shape.arg? name with
  | none => .error (.unknownArg name)
  | some spec =>
    let value := if spec.type.isNode then v.index?.map .nested else (Scalar.ofJson? v).map .scalar
    match value with
    | some value => .ok value
    | none => .error (.argTypeMismatch name spec.type)

/-- the arguments, in the order of the members -/
def readArgs (shape : KindShape) : List (String × Json) → Except CorruptReason (Entries (Arg Address))
  | [] => .ok []
  | (name, v) :: rest => do
    let value ← readArg shape name v
    let values ← readArgs shape rest
    return (name, value) :: values

/-- a link -/
def readLink (v : Json) (field : LinkField) : Except CorruptReason Address :=
  match (v.member? field.name).bind Json.index? with
  | some a => .ok a
  | none => .error (.malformedRecord (.notAddress field))

def ofJson (corpus : Corpus) (v : Json) : Except CorruptReason Cell := do
  let name ← readKind v
  let shape ← (match corpus.shapeOf? name with
    | some shape => .ok shape
    | none => .error (.unregisteredKind name) : Except CorruptReason KindShape)
  let members ← (match (v.member? "args").bind Json.members? with
    | some members => .ok members
    | none => .error (.malformedRecord .argsNotObject) : Except CorruptReason (Entries Json))
  let args ← readArgs shape members
  let parent ← readLink v .parent
  let next ← readLink v .next
  let body ← readLink v .body
  return ⟨shape.kind, parent, next, body, ⟨Entries.ofList args, Entries.sorted_ofList args⟩⟩

end Cell

namespace Heap

/-- the cells of records, counted from an address -/
def readCells (corpus : Corpus) (a : Address) : List Json → Except Corruption (List Cell)
  | [] => .ok []
  | v :: rest => do
    let c ← (Cell.ofJson corpus v).mapError (⟨a, ·⟩)
    let cs ← readCells corpus (a + 1) rest
    return c :: cs

def ofJson (corpus : Corpus) (v : Json) : Except DecodeFault Heap :=
  match v.items? with
  | none => .error .notArray
  | some records => do
    let cells ← (readCells corpus .nothing records).mapError .corrupt
    let h : Heap := ⟨cells.toArray⟩
    (h.check corpus).mapError .corrupt
    return h

def ofBytes (lib : JsonLibrary) (corpus : Corpus) (bytes : ByteArray) : Except DecodeFault Heap :=
  match Json.ofBytes? lib bytes with
  | none => .error .syntaxError
  | some v => ofJson corpus v

end Heap

end ScriptHeap
