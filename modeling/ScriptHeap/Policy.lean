/-!
# Policy

* `ParentLinkage`      where the parent link of a statement points;
* `Policy`             the depth limit and the linkage of a compilation;
* `Policy.withMaxDepth`   a policy with another limit, zero being raised to one;
* `depthMessage`       the message for nesting beyond a limit.
-/

namespace ScriptHeap

/-- where the parent link of a statement points -/
inductive ParentLinkage where
  /-- to the block that holds it -/
  | structural
  /-- to the statement before it; the first statement points to the block -/
  | previousSibling
deriving DecidableEq, Inhabited

/-- the depth limit, the root being at depth one, and the linkage -/
structure Policy where
  maxDepth : Nat
  linkage : ParentLinkage
  maxDepth_pos : 0 < maxDepth
deriving DecidableEq

namespace Policy

/-- depth 128 and structural links -/
def default : Policy := ⟨128, .structural, by decide⟩

instance : Inhabited Policy := ⟨default⟩

/-- the policy with another limit, at least one -/
def withMaxDepth (p : Policy) (n : Nat) : Policy := ⟨max n 1, p.linkage, by omega⟩

def withLinkage (p : Policy) (linkage : ParentLinkage) : Policy := ⟨p.maxDepth, linkage, p.maxDepth_pos⟩

end Policy

/-- nesting beyond a limit, in words -/
def depthMessage (limit : Nat) : String := "nesting exceeds maximum depth " ++ toString limit

end ScriptHeap
