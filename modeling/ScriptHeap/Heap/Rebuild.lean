import ScriptHeap.Node.Check
import ScriptHeap.Heap.Basic
/-!
# From a heap to a tree

* `Heap.openCell`      the reading of one cell: its kind, its arguments and its statements;
* `Heap.rebuildBelow`  the tree below an address, with so many levels left;
* `Heap.rebuild`       the tree below an address.

Parent links are not read. Everything else is checked on the way, so a heap that has not been checked
gives a tree of the corpus or a fault.
-/

namespace ScriptHeap

/-! ## faults -/

/-- why there is no tree -/
inductive RebuildFault where
  | corrupt (c : Corruption)
  | depthExceeded (limit : Nat)
deriving DecidableEq

def RebuildFault.message : RebuildFault → String
  | corrupt c => c.message
  | depthExceeded limit => depthMessage limit

/-! ## one cell -/

/-- a cell to read, and the kinds that its place admits -/
structure Target where
  address : Address
  allowed : List Kind
deriving DecidableEq

/-- what a cell says of its node -/
structure OpenedCell where
  kind : Kind
  args : List (String × Arg Target)
  statements : List Target

namespace Heap

/-- the declared arguments, if every one is there and of its type -/
def openArgs (c : Cell) : List ArgSpec → Except CorruptReason (List (String × Arg Target))
  | [] => .ok []
  | spec :: rest =>
    match c.arg? spec.name with
    | none => .error (.missingArg spec.name)
    | some value =>
      match spec.type, value with
      | .node kinds, .nested target =>
        if target = .nothing then .error (.sentinelArg spec.name)
        else (openArgs c rest).map ((spec.name, .nested ⟨target, kinds⟩) :: ·)
      | type, .scalar s =>
        if type.accepts s then (openArgs c rest).map ((spec.name, .scalar s) :: ·)
        else .error (.argTypeMismatch spec.name type)
      | type, .nested _ => .error (.argTypeMismatch spec.name type)

/-- the statements of a block; the body of any other kind must be what its rule says -/
def openBody (h : Heap) (a : Address) (c : Cell) : BodyRule → Except Corruption (List Target)
  | .block kinds => (h.chain c.body).complete.map fun cells => cells.map fun (s, _) => ⟨s, kinds⟩
  | .primary name =>
    if (c.arg? name).bind Arg.nested? = some c.body then .ok []
    else .error ⟨a, .primaryMismatch name c.body⟩
  | .none => if c.body = .nothing then .ok [] else .error ⟨a, .unexpectedBody c.body⟩

/-- a kind that its place admits; at the root every kind is -/
def openKind (kind : Kind) : Option (List Kind) → Except CorruptReason Unit
  | none => .ok ()
  | some allowed => if allowed.contains kind then .ok () else .error (.disallowedKind kind allowed)

/-- no argument that the shape does not declare -/
def openNames (c : Cell) (shape : KindShape) : Except CorruptReason Unit :=
  match shape.undeclared? c.args.names with
  | none => .ok ()
  | some name => .error (.unknownArg name)

/-- the shape of a cell, if its kind is registered -/
def openShape (corpus : Corpus) (c : Cell) : Except CorruptReason KindShape :=
  match corpus.shape? c.kind with
  | none => .error (.unregisteredKind c.kind.name)
  | some shape => .ok shape

def openCell (h : Heap) (corpus : Corpus) (allowed : Option (List Kind)) (a : Address) :
    Except Corruption OpenedCell := do
  let c ← h.get a
  let shape ← (openShape corpus c).mapError (⟨a, ·⟩)
  (openKind c.kind allowed).mapError (⟨a, ·⟩)
  (openNames c shape).mapError (⟨a, ·⟩)
  let args ← (openArgs c shape.args).mapError (⟨a, ·⟩)
  let statements ← h.openBody a c shape.body
  return ⟨c.kind, args, statements⟩

/-! ## trees -/

def rebuildBelow (h : Heap) (corpus : Corpus) (limit : Nat) :
    (levels : Nat) → Option (List Kind) → Address → Except RebuildFault Node
  | 0, _, _ => .error (.depthExceeded limit)
  | levels + 1, allowed, a => do
    let opened ← (h.openCell corpus allowed a).mapError .corrupt
    let args ← opened.args.mapM fun (name, value) =>
      match value with
      | .scalar s => .ok (name, .scalar s)
      | .nested t =>
        (h.rebuildBelow corpus limit levels (some t.allowed) t.address).map fun c => (name, .nested c)
    let body ← opened.statements.mapM fun t =>
      h.rebuildBelow corpus limit levels (some t.allowed) t.address
    return ⟨opened.kind.name, Entries.ofList args, body⟩

def rebuild (h : Heap) (corpus : Corpus) (policy : Policy) (root : Address) :
    Except RebuildFault Node :=
  h.rebuildBelow corpus policy.maxDepth policy.maxDepth none root

end Heap

end ScriptHeap
