/-!
# Paths to nodes

* `Via`                how a node is reached from the node above;
* `PathStep`, `NodePath`   a step with the kind it leads to, and the steps from the root;
* `NodePath.text`      a path in words, as in `sequence/body[2]:_if/_then:execute`;
* `NodePath.leafKind?` the kind at the end of a path.
-/

namespace ScriptHeap

/-- how a node is reached from the node above -/
inductive Via where
  | root
  | arg (name : String)
  | body (index : Nat)
deriving DecidableEq

/-- a step and the kind of the node it leads to -/
structure PathStep where
  via : Via
  kind : String
deriving DecidableEq

def PathStep.text (s : PathStep) : String :=
  match s.via with
  | .root => s.kind
  | .arg name => name ++ ":" ++ s.kind
  | .body index => "body[" ++ toString index ++ "]:" ++ s.kind

abbrev NodePath := List PathStep

namespace NodePath

def text (p : NodePath) : String := "/".intercalate (p.map PathStep.text)

def leafKind? (p : NodePath) : Option String := p.getLast?.map (·.kind)

end NodePath

end ScriptHeap
