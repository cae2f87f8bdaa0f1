import ScriptHeap.Scalar
/-!
# Trees

* `Node`               a node of a tree: the name of its kind, its arguments, its statements;
* `Node.children`      the nodes below, arguments first;
* `Node.induction`     induction over trees;
* `Node.Ordered`       the arguments of every node are in the order of their names;
* `Node.count`, `Node.depth`   how many nodes a tree has, and how deep they lie;
* `Node.alike`         equality with floats compared as numbers.

Nothing is assumed of a tree: the name may be no kind, arguments may be missing or undeclared.
-/

namespace ScriptHeap

/-- a node; the arguments are listed by name -/
structure Node where
  kind : String
  args : List (String × Arg Node)
  body : List Node

namespace Node

instance : Inhabited Node := ⟨⟨"", [], []⟩⟩

/-! ## building -/

/-- a node with neither arguments nor statements -/
def ofKind (kind : String) : Node := ⟨kind, [], []⟩

/-- the node with an argument set -/
def withArg (n : Node) (name : String) (value : Arg Node) : Node :=
  ⟨n.kind, Entries.insert name value n.args, n.body⟩

def withStatement (n : Node) (statement : Node) : Node := ⟨n.kind, n.args, n.body ++ [statement]⟩

def arg? (n : Node) (name : String) : Option (Arg Node) := Entries.find? name n.args

/-! ## nodes below -/

def argNodes (n : Node) : List Node := n.args.filterMap fun e => e.2.nested?

/-- the nodes below, arguments first -/
def children (n : Node) : List Node := n.argNodes ++ n.body

theorem mem_argNodes {n c : Node} : c ∈ n.argNodes ↔ ∃ name, (name, Arg.nested c) ∈ n.args := by
  unfold argNodes
  rw [List.mem_filterMap]
  constructor
  · rintro ⟨⟨name, v⟩, hm, hv⟩
    cases v with
    | scalar s => cases hv
    | nested d => cases hv; exact ⟨name, hm⟩
  · rintro ⟨name, hm⟩
    exact ⟨_, hm, rfl⟩

theorem mem_children_of_arg? {n c : Node} {name : String} (h : n.arg? name = some (.nested c)) :
    c ∈ n.children :=
  List.mem_append_left _ (mem_argNodes.mpr ⟨name, Entries.mem_of_find? h⟩)

theorem sizeOf_lt_of_mem_args {n c : Node} {e : String × Arg Node} (h : e ∈ n.args)
    (hc : e.2 = .nested c) : sizeOf c < sizeOf n := by
  obtain ⟨name, v⟩ := e
  cases n
  have := List.sizeOf_lt_of_mem h
  simp only at hc
  subst hc
  simp only [Prod.mk.sizeOf_spec, Arg.nested.sizeOf_spec, Node.mk.sizeOf_spec] at this ⊢
  omega

theorem sizeOf_lt_of_mem_body {n c : Node} (h : c ∈ n.body) : sizeOf c < sizeOf n := by
  cases n
  have := List.sizeOf_lt_of_mem h
  simp only [Node.mk.sizeOf_spec] at this ⊢
  omega

theorem sizeOf_lt_of_mem_children {n c : Node} (h : c ∈ n.children) : sizeOf c < sizeOf n := by
  rcases List.mem_append.mp h with h | h
  · obtain ⟨name, hm⟩ := mem_argNodes.mp h
    exact sizeOf_lt_of_mem_args hm rfl
  · exact sizeOf_lt_of_mem_body h

/-- what holds of a node when it holds of all nodes below it holds of every node -/
theorem induction {P : Node → Prop} (h : ∀ n : Node, (∀ c ∈ n.children, P c) → P n) (n : Node) : P n :=
  h n fun c _ => induction h c
termination_by sizeOf n
decreasing_by exact sizeOf_lt_of_mem_children ‹_›

/-- the arguments are in the order of their names, here and in all nodes below -/
inductive Ordered : Node → Prop
  | mk {n : Node} (args : Entries.Sorted n.args) (children : ∀ c ∈ n.children, Ordered c) : Ordered n

/-! ## measures -/

def count (n : Node) : Nat := 1 + (n.children.attach.map fun c => count c.1).foldr (· + ·) 0
termination_by sizeOf n
decreasing_by exact sizeOf_lt_of_mem_children c.2

theorem count_eq (n : Node) : n.count = 1 + (n.children.map count).foldr (· + ·) 0 := by
  rw [count, List.attach_map_val]

def depth (n : Node) : Nat := 1 + ((n.children.attach.map fun c => depth c.1).max?.getD 0)
termination_by sizeOf n
decreasing_by exact sizeOf_lt_of_mem_children c.2

theorem depth_eq (n : Node) : n.depth = 1 + ((n.children.map depth).max?.getD 0) := by
  rw [depth, List.attach_map_val]

/-! ## comparison -/

mutual

def alike : Node → Node → Bool
  | ⟨kind, args, body⟩, ⟨kind', args', body'⟩ =>
    kind == kind' && alikeArgs args args' && alikeBody body body'

/-- `alike` on arguments -/
def alikeArgs : List (String × Arg Node) → List (String × Arg Node) → Bool
  | [], [] => true
  | (name, v) :: rest, (name', v') :: rest' => name == name' && alikeArg v v' && alikeArgs rest rest'
  | _, _ => false

/-- `alike` on one argument -/
def alikeArg : Arg Node → Arg Node → Bool
  | .scalar s, .scalar s' => s.alike s'
  | .nested c, .nested c' => alike c c'
  | _, _ => false

/-- `alike` on statements -/
def alikeBody : List Node → List Node → Bool
  | [], [] => true
  | n :: rest, n' :: rest' => alike n n' && alikeBody rest rest'
  | _, _ => false

end

end Node

end ScriptHeap
