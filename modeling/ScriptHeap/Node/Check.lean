import ScriptHeap.Node.Basic
import ScriptHeap.Node.Path
import ScriptHeap.Corpus.Basic
import ScriptHeap.Policy
/-!
# Checking trees

* `NodeReason`, `NodeFault`, `CheckFault`   why a node by itself, and where a tree, is refused;
* `Node.checkAlone`    the check of one node, which gives the nodes below in the order of visits;
* `Node.check`         the check of a tree: every node in pre-order, arguments before statements.
-/

namespace ScriptHeap

/-! ## faults -/

/-- why a node of a known kind is refused -/
inductive NodeReason where
  | missingArg (name : String)
  | unknownArg (name : String)
  | typeMismatch (name : String) (expected : ArgType) (found : String)
  | disallowedKind (kind : String) (allowed : List Kind)
  | unexpectedBody (length : Nat)
deriving DecidableEq

def NodeReason.message : NodeReason → String
  | missingArg name => "missing argument `" ++ name ++ "`"
  | unknownArg name => "unknown argument `" ++ name ++ "`"
  | typeMismatch name expected found =>
    "argument `" ++ name ++ "` expects " ++ expected.describe ++ ", found " ++ found
  | disallowedKind kind allowed => disallowedMessage kind allowed
  | unexpectedBody length =>
    "kind takes no statement list, found " ++ toString length ++ " statement(s)"

/-- why a node is refused -/
inductive NodeFault where
  | unknownKind (u : UnknownKind)
  | invalid (reason : NodeReason)
deriving DecidableEq

def NodeFault.message : NodeFault → String
  | unknownKind u => u.message
  | invalid reason => reason.message

/-- why a tree is refused -/
inductive CheckFault where
  | node (path : NodePath) (fault : NodeFault)
  | depthExceeded (limit : Nat)
deriving DecidableEq

def CheckFault.message : CheckFault → String
  | node path fault => path.text ++ ": " ++ fault.message
  | depthExceeded limit => depthMessage limit

/-! ## one node -/

def Arg.describe : Arg Node → String
  | scalar s => s.category
  | nested n => "node(" ++ n.kind ++ ")"

/-- a node to visit, how it is reached, and the kinds that its place admits -/
structure Visit where
  via : Via
  node : Node
  allowed : List Kind

def Visit.step (v : Visit) : PathStep := ⟨v.via, v.node.kind⟩

namespace Node

/-- the nodes among declared arguments, if every one is there and of its type -/
def checkArgs (n : Node) : List ArgSpec → Except NodeReason (List Visit)
  | [] => .ok []
  | spec :: rest =>
    match n.arg? spec.name with
    | none => .error (.missingArg spec.name)
    | some value =>
      match spec.type, value with
      | .node kinds, .nested c => (checkArgs n rest).map (⟨.arg spec.name, c, kinds⟩ :: ·)
      | type, .scalar s =>
        if type.accepts s then checkArgs n rest
        else .error (.typeMismatch spec.name type (Arg.scalar s).describe)
      | type, value => .error (.typeMismatch spec.name type value.describe)

/-- the statements, counted from an index -/
def statementVisits (kinds : List Kind) (index : Nat) : List Node → List Visit
  | [] => []
  | c :: rest => ⟨.body index, c, kinds⟩ :: statementVisits kinds (index + 1) rest

/-- the statements, if the kind has any -/
def checkBody (n : Node) : BodyRule → Except NodeReason (List Visit)
  | .block kinds => .ok (statementVisits kinds 0 n.body)
  | _ => if n.body.isEmpty then .ok [] else .error (.unexpectedBody n.body.length)

/-- a kind that its place admits; at the root every kind is -/
def checkKind (n : Node) (kind : Kind) : Option (List Kind) → Except NodeReason Unit
  | none => .ok ()
  | some allowed => if allowed.contains kind then .ok () else .error (.disallowedKind n.kind allowed)

/-- no argument that the shape does not declare -/
def checkNames (n : Node) (shape : KindShape) : Except NodeReason Unit :=
  match shape.undeclared? (n.args.map Prod.fst) with
  | none => .ok ()
  | some name => .error (.unknownArg name)

/-- the check of a node against its shape, and the nodes below -/
def checkShape (n : Node) (shape : KindShape) (allowed : Option (List Kind)) :
    Except NodeReason (List Visit) := do
  n.checkKind shape.kind allowed
  n.checkNames shape
  let args ← n.checkArgs shape.args
  let statements ← n.checkBody shape.body
  return args ++ statements

/-- the check of one node, and the nodes below in the order of visits -/
def checkAlone (corpus : Corpus) (allowed : Option (List Kind)) (n : Node) :
    Except NodeFault (List Visit) :=
  match corpus.shapeOf n.kind with
  | .error u => .error (.unknownKind u)
  | .ok shape => (n.checkShape shape allowed).mapError .invalid

/-! ## trees -/

/-- the check of a tree with so many levels left; the trail is the path to its root, backwards -/
def checkBelow (corpus : Corpus) (limit : Nat) :
    (levels : Nat) → (trail : NodePath) → Option (List Kind) → Node → Except CheckFault Unit
  | 0, _, _, _ => .error (.depthExceeded limit)
  | levels + 1, trail, allowed, n => do
    let visits ← (n.checkAlone corpus allowed).mapError (.node trail.reverse)
    visits.forM fun v => checkBelow corpus limit levels (v.step :: trail) (some v.allowed) v.node

def check (corpus : Corpus) (policy : Policy) (n : Node) : Except CheckFault Unit :=
  checkBelow corpus policy.maxDepth policy.maxDepth [⟨.root, n.kind⟩] none n

end Node

end ScriptHeap
