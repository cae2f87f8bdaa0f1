import ScriptHeap.Node.Check
import ScriptHeap.Heap.WriteOnce
/-!
# From a tree to a heap

* `Node.parts`         the nodes below a node as they get cells: statements, the primary argument,
                       the other declared node arguments;
* `Node.flattenBelow`  the cells of a node and of all nodes below, in pre-order;
* `Node.flatten`       the heap of a tree and the address of its root.

Arguments that are missing, undeclared or not of their type are left out, so every tree of known
kinds within the depth limit has a heap.
-/

namespace ScriptHeap

/-! ## faults -/

/-- why a tree has no heap -/
inductive FlattenFault where
  | unknownKind (u : UnknownKind)
  | depthExceeded (limit : Nat)
  /-- the builder refused a write -/
  | build (fault : BuildFault)
deriving DecidableEq

def FlattenFault.message : FlattenFault → String
  | unknownKind u => u.message
  | depthExceeded limit => depthMessage limit
  | build fault => fault.message

/-! ## nodes below -/

/-- where the address of a nested cell is written -/
inductive Place where
  | statement
  /-- in an argument; that of a primary argument also in the body -/
  | arg (name : String) (primary : Bool)
deriving DecidableEq

/-- the last statement of a cell after a part was added -/
def Place.last (place : Place) (child : Address) (last : Option Address) : Option Address :=
  match place with
  | .statement => some child
  | .arg _ _ => last

namespace Node

def nestedArg? (n : Node) (name : String) : Option Node := (n.arg? name).bind Arg.nested?

/-- the parts that the body rule puts first -/
def bodyParts (n : Node) : BodyRule → List (Place × Node)
  | .block _ => n.body.map fun c => (.statement, c)
  | .primary name => ((n.nestedArg? name).map fun c => (Place.arg name true, c)).toList
  | .none => []

/-- the part in a declared node argument -/
def argPart? (n : Node) (spec : ArgSpec) : Option (Place × Node) :=
  if spec.type.isNode then (n.nestedArg? spec.name).map fun c => (.arg spec.name false, c) else none

/-- the scalar in a declared argument, if it is of its type -/
def argScalar? (n : Node) (spec : ArgSpec) : Option (String × Scalar) :=
  match n.arg? spec.name with
  | some (.scalar s) => if spec.type.accepts s then some (spec.name, s) else none
  | _ => none

def parts (n : Node) (shape : KindShape) : List (Place × Node) :=
  n.bodyParts shape.body ++ shape.ordinaryArgs.filterMap n.argPart?

/-- the scalars that the cell holds -/
def scalars (n : Node) (shape : KindShape) : List (String × Scalar) :=
  shape.ordinaryArgs.filterMap n.argScalar?

end Node

/-! ## links -/

/-- a cell whose parts are being added, and the last of its statements so far -/
structure OpenCell where
  address : Address
  last : Option Address

namespace OpenCell

/-- the parent link of the next part -/
def parentOf (o : OpenCell) (linkage : ParentLinkage) (place : Place) : Address :=
  match linkage, place, o.last with
  | .previousSibling, .statement, some last => last
  | _, _, _ => o.address

/-- write the address of a part into the cell, or chain a statement to the one before it -/
def link (o : OpenCell) (place : Place) (child : Address) (b : Builder) :
    Except BuildFault Builder :=
  match place with
  | .statement =>
    match o.last with
    | some last => b.setLink .next last child
    | none => b.setLink .body o.address child
  | .arg name primary => do
    let b ← b.setArg o.address name (.nested child)
    if primary then b.setLink .body o.address child else return b

/-- the open cell after a part was added -/
def after (o : OpenCell) (place : Place) (child : Address) : OpenCell :=
  { o with last := place.last child o.last }

/-- end the chain of a block -/
def close (o : OpenCell) (b : Builder) (isBlock : Bool) : Except BuildFault Builder :=
  if isBlock then
    match o.last with
    | some last => b.setLink .next last .nothing
    | none => b.setLink .body o.address .nothing
  else .ok b

end OpenCell

/-! ## flattening -/

namespace Node

/-- a cell with its parent and its scalars -/
def allocate (n : Node) (shape : KindShape) (parent : Address) (b : Builder) :
    Except BuildFault (Address × Builder) := do
  let (a, b) := b.allocate shape.kind
  let b ← b.setLink .parent a parent
  let b ← (n.scalars shape).foldlM (fun b (name, s) => b.setArg a name (.scalar s)) b
  return (a, b)

/-- the cells of a node and of all nodes below it, with so many levels left; `link` writes the address
of the node where it belongs, as soon as its cell is there and before any cell below it -/
def flattenBelow (corpus : Corpus) (policy : Policy) : (levels : Nat) → (parent : Address) →
    (link : Address → Builder → Except BuildFault Builder) → Node → Builder →
    Except FlattenFault (Address × Builder)
  | 0, _, _, _, _ => .error (.depthExceeded policy.maxDepth)
  | levels + 1, parent, link, n, b => do
    let shape ← (corpus.shapeOf n.kind).mapError .unknownKind
    let (a, b) ← (n.allocate shape parent b).mapError .build
    let b ← (link a b).mapError .build
    let (o, b) ← (n.parts shape).foldlM (fun (o, b) (place, c) => do
      let (child, b) ←
        flattenBelow corpus policy levels (o.parentOf policy.linkage place) (o.link place) c b
      return (o.after place child, b)) (OpenCell.mk a none, b)
    let b ← (o.close b shape.isBlock).mapError .build
    return (a, b)

/-- the root belongs nowhere -/
def flatten (corpus : Corpus) (policy : Policy) (n : Node) : Except FlattenFault (Heap × Address) := do
  let (root, b) ← n.flattenBelow corpus policy policy.maxDepth .nothing (fun _ b => .ok b) .initial
  return (b.finish, root)

end Node

end ScriptHeap
