import ScriptHeap.Heap.Basic
import ScriptHeap.Corpus.Basic
/-!
# Checking heaps

* `Heap.checkCell`     the check of one cell against its shape;
* `Heap.expand`        the cells below a cell, with the check of its chain of statements;
* `Heap.walk`          the visit of all cells below some, each of which may be reached once;
* `Heap.check`         the sentinel, every cell, and that the cells form a tree below cell 1.

A heap that passes is one that flattening a tree could have given, up to the order of its cells and
the parent links, which are only checked to stay within the heap.
-/

namespace ScriptHeap

namespace Heap

/-! ## one cell -/

/-- the links stay within the heap -/
def checkLinks (h : Heap) (a : Address) (c : Cell) : Except Corruption Unit :=
  match [LinkField.parent, .next, .body].find? fun field => decide (h.size ≤ c.link field) with
  | none => .ok ()
  | some field => .error ⟨a, .danglingLink field (c.link field)⟩

/-- no argument that the shape does not declare -/
def checkNames (a : Address) (c : Cell) (shape : KindShape) : Except Corruption Unit :=
  match shape.undeclared? c.args.names with
  | none => .ok ()
  | some name => .error ⟨a, .unknownArg name⟩

/-- a node argument leads to a cell, not the sentinel, of a kind that it may hold -/
def checkTarget (h : Heap) (a : Address) (name : String) (kinds : List Kind) (target : Address) :
    Except Corruption Unit :=
  if h.size ≤ target then .error ⟨a, .danglingArg name target⟩
  else if target = .nothing then .error ⟨a, .sentinelArg name⟩
  else do
    let c ← h.get target
    if kinds.contains c.kind then .ok () else .error ⟨target, .disallowedKind c.kind kinds⟩

/-- a declared argument is there and of its type -/
def checkArg (h : Heap) (a : Address) (c : Cell) (spec : ArgSpec) : Except Corruption Unit :=
  match c.arg? spec.name, spec.type with
  | none, _ => .error ⟨a, .missingArg spec.name⟩
  | some (.nested target), .node kinds => h.checkTarget a spec.name kinds target
  | some (.nested _), type => .error ⟨a, .argTypeMismatch spec.name type⟩
  | some (.scalar s), type =>
    if type.accepts s then .ok () else .error ⟨a, .argTypeMismatch spec.name type⟩

/-- the body is what the rule says; chains of statements are left to the walk -/
def checkBody (a : Address) (c : Cell) : BodyRule → Except Corruption Unit
  | .block _ => .ok ()
  | .primary name =>
    if c.body = ((c.arg? name).bind Arg.nested?).getD .nothing then .ok ()
    else .error ⟨a, .primaryMismatch name c.body⟩
  | .none => if c.body = .nothing then .ok () else .error ⟨a, .unexpectedBody c.body⟩

def checkCell (h : Heap) (corpus : Corpus) (a : Address) (c : Cell) : Except Corruption Unit :=
  match corpus.shape? c.kind with
  | none => .error ⟨a, .unregisteredKind c.kind.name⟩
  | some shape => do
    h.checkLinks a c
    checkNames a c shape
    shape.args.forM (h.checkArg a c)
    checkBody a c shape.body

/-! ## the walk -/

/-- a cell to visit, and whether it is reached as a statement -/
structure Reach where
  address : Address
  statement : Bool
deriving DecidableEq

/-- the statements of a cell, each of a kind that the block admits -/
def statementsBelow (h : Heap) (kinds : List Kind) (c : Cell) : Except Corruption (List Reach) := do
  let chain := h.chain c.body
  chain.cells.forM fun (a, s) =>
    if kinds.contains s.kind then .ok () else .error ⟨a, .disallowedKind s.kind kinds⟩
  let cells ← chain.complete
  return cells.map fun (a, _) => ⟨a, true⟩

/-- the cells below a cell: its statements, then the targets of its arguments -/
def below (h : Heap) (corpus : Corpus) (c : Cell) : Except Corruption (List Reach) := do
  let statements ← (match (corpus.shape? c.kind).bind KindShape.blockKinds? with
    | some kinds => h.statementsBelow kinds c
    | none => .ok [] : Except Corruption (List Reach))
  return statements ++ c.addressArgs.map fun (_, a) => ⟨a, false⟩

/-- the cells below a visited cell; only a statement may have a next link -/
def expand (h : Heap) (corpus : Corpus) (r : Reach) : Except Corruption (List Reach) := do
  let c ← h.get r.address
  if !r.statement && c.next != .nothing then .error ⟨r.address, .strayNext c.next⟩
  else h.below corpus c

/-- visit cells and all below them, in pre-order; `seen` marks the cells that were reached -/
def walk (h : Heap) (corpus : Corpus) (seen : Array Bool) :
    List Reach → Except Corruption (Array Bool)
  | [] => .ok seen
  | r :: rest =>
    if hr : r.address < seen.size then
      if hs : seen[r.address] = true then .error ⟨r.address, .sharedCell⟩
      else
        match h.expand corpus r with
        | .error fault => .error fault
        | .ok children => h.walk corpus (seen.set r.address true) (children ++ rest)
    else .error ⟨r.address, .outOfRange h.size⟩
termination_by seen.count false
decreasing_by
  have hf : seen[r.address] = false := Bool.eq_false_iff.mpr hs
  have hpos : 0 < seen.count false := Array.count_pos_iff.mpr (hf ▸ Array.getElem_mem hr)
  rw [Array.count_set, hf]
  show seen.count false - 1 + 0 < seen.count false
  omega

/-- every cell is reached once from cell 1 -/
def checkTree (h : Heap) (corpus : Corpus) : Except Corruption Unit :=
  if h.size ≤ Address.root then .ok ()
  else do
    let unseen := (Array.replicate h.size false).setIfInBounds Address.nothing true
    let seen ← h.walk corpus unseen [⟨.root, false⟩]
    match seen.findIdx? (· == false) with
    | none => .ok ()
    | some a => .error ⟨a, .orphan⟩

def check (h : Heap) (corpus : Corpus) : Except Corruption Unit := do
  let first ← h.get .nothing
  if first.isSentinel then
    (h.toList.drop 1).forM fun (a, c) => h.checkCell corpus a c
    h.checkTree corpus
  else .error ⟨.nothing, .sentinelModified⟩

end Heap

end ScriptHeap
