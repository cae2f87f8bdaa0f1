import ScriptHeap.NameMap
import ScriptHeap.Heap.Corruption
/-!
# Heaps

* `Cell`               a kind, three links, and arguments that are scalars or addresses;
* `Heap`               cells by address; cell 0 is the sentinel, cell 1 the root of a tree;
* `Heap.get`           the cell at an address;
* `Chain`, `Heap.chain`   the cells that next links lead to, and how the chain fails, if it does;
* `Cell.alike`, `Heap.alike`   equality with floats compared as numbers.
-/

namespace ScriptHeap

/-! ## cells -/

/-- a record of the heap -/
structure Cell where
  kind : Kind
  parent : Address
  next : Address
  body : Address
  args : NameMap (Arg Address)
deriving DecidableEq

namespace Cell

def ofKind (kind : Kind) : Cell := ⟨kind, .nothing, .nothing, .nothing, .empty⟩

/-- the cell at address 0 -/
def sentinel : Cell := ofKind .nothing

instance : Inhabited Cell := ⟨sentinel⟩

def arg? (c : Cell) (name : String) : Option (Arg Address) := c.args.find? name

/-- a link -/
def link (c : Cell) : LinkField → Address
  | .parent => c.parent
  | .next => c.next
  | .body => c.body

/-- the addresses among the arguments, in the order of their names -/
def addressArgs (c : Cell) : List (String × Address) :=
  c.args.entries.filterMap fun e => e.2.nested?.map fun a => (e.1, a)

def isSentinel (c : Cell) : Bool := c == sentinel

/-- equality of arguments with floats compared as numbers -/
def alikeArg : Arg Address → Arg Address → Bool
  | .scalar s, .scalar s' => s.alike s'
  | .nested a, .nested a' => a == a'
  | _, _ => false

def alike (c d : Cell) : Bool :=
  c.kind == d.kind && c.parent == d.parent && c.next == d.next && c.body == d.body &&
    c.args.entries.length == d.args.entries.length &&
    (c.args.entries.zip d.args.entries).all fun p => p.1.1 == p.2.1 && alikeArg p.1.2 p.2.2

end Cell

/-! ## heaps -/

/-- cells by address -/
structure Heap where
  cells : Array Cell
deriving DecidableEq

namespace Heap

/-- the number of cells, the sentinel included -/
def size (h : Heap) : Nat := h.cells.size

def get (h : Heap) (a : Address) : Except Corruption Cell :=
  match h.cells[a]? with
  | some c => .ok c
  | none => .error ⟨a, .outOfRange h.size⟩

def toList (h : Heap) : List (Address × Cell) := h.cells.toList.zipIdx.map fun p => (p.2, p.1)

def alike (h k : Heap) : Bool :=
  h.size == k.size && (h.cells.toList.zip k.cells.toList).all fun p => p.1.alike p.2

end Heap

/-! ## chains -/

/-- the cells of a chain of statements, and what ends it before it reaches 0 -/
structure Chain where
  cells : List (Address × Cell)
  fault? : Option Corruption
deriving DecidableEq

namespace Chain

def nil : Chain := ⟨[], none⟩

def fail (c : Corruption) : Chain := ⟨[], some c⟩

def cons (a : Address) (c : Cell) (rest : Chain) : Chain := ⟨(a, c) :: rest.cells, rest.fault?⟩

/-- the cells of a chain that ends at 0 -/
def complete (chain : Chain) : Except Corruption (List (Address × Cell)) :=
  match chain.fault? with
  | none => .ok chain.cells
  | some fault => .error fault

end Chain

namespace Heap

/-- the chain from an address in so many steps; `start` is where the whole chain starts -/
def chainFrom (h : Heap) (start : Address) (steps : Nat) (a : Address) : Chain :=
  if a = Address.nothing then .nil
  else
    match steps with
    | 0 => .fail ⟨a, .unterminatedChain start h.size⟩
    | steps + 1 =>
      match h.get a with
      | .error fault => .fail fault
      | .ok c => .cons a c (h.chainFrom start steps c.next)

/-- the chain that starts at an address; it has at most as many cells as the heap -/
def chain (h : Heap) (first : Address) : Chain := h.chainFrom first h.size first

end Heap

end ScriptHeap
