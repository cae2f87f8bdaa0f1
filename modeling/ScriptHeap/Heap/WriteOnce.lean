import ScriptHeap.Heap.Basic
/-!
# Building heaps

* `Draft`              a cell whose links are written at most once;
* `Builder`            drafts by address, `Builder.initial` with the sentinel only;
* `Builder.allocate`, `Builder.setLink`, `Builder.setArg`   the operations on it;
* `BuildFault`         a write to a cell that is not there, or a second write;
* `BuildStep`, `Builder.step`   the operations as data;
* `Builder.finish`     the heap; a link that was not written is 0.

The links of the sentinel count as written.
-/

namespace ScriptHeap

/-! ## drafts -/

/-- what can be written of a cell -/
inductive Slot where
  | link (field : LinkField)
  | arg (name : String)
deriving DecidableEq

def Slot.text : Slot → String
  | link field => field.name
  | arg name => "arg `" ++ name ++ "`"

/-- a cell under construction -/
structure Draft where
  kind : Kind
  parent : Option Address
  next : Option Address
  body : Option Address
  args : NameMap (Arg Address)
deriving DecidableEq

namespace Draft

def ofKind (kind : Kind) : Draft := ⟨kind, none, none, none, .empty⟩

/-- the sentinel with its links written -/
def sentinel : Draft := ⟨.nothing, some .nothing, some .nothing, some .nothing, .empty⟩

instance : Inhabited Draft := ⟨sentinel⟩

/-- what is written in a link -/
def link? (d : Draft) : LinkField → Option Address
  | .parent => d.parent
  | .next => d.next
  | .body => d.body

/-- the draft with a link written -/
def withLink (d : Draft) (value : Address) : LinkField → Draft
  | .parent => { d with parent := some value }
  | .next => { d with next := some value }
  | .body => { d with body := some value }

/-- the draft with an argument written -/
def withArg (d : Draft) (name : String) (value : Arg Address) : Draft :=
  { d with args := d.args.insert name value }

/-- the cell; links that are not written are 0 -/
def toCell (d : Draft) : Cell :=
  ⟨d.kind, d.parent.getD .nothing, d.next.getD .nothing, d.body.getD .nothing, d.args⟩

end Draft

/-! ## faults -/

/-- why an operation is refused -/
inductive BuildFault where
  | unallocated (a : Address) (size : Nat)
  | writtenTwice (slot : Slot) (a : Address)
deriving DecidableEq

def BuildFault.message : BuildFault → String
  | unallocated a size => "heap builder: " ++ a.text ++ " is beyond size " ++ toString size
  | writtenTwice slot a => "heap builder: " ++ slot.text ++ " of " ++ a.text ++ " written twice"

/-! ## operations -/

/-- drafts by address -/
structure Builder where
  drafts : Array Draft
deriving DecidableEq

namespace Builder

def initial : Builder := ⟨#[.sentinel]⟩

/-- the number of drafts, which is the next address -/
def size (b : Builder) : Nat := b.drafts.size

def allocate (b : Builder) (kind : Kind) : Address × Builder :=
  (b.size, ⟨b.drafts.push (.ofKind kind)⟩)

/-- change the draft at an address, unless a slot of it is written -/
def write (b : Builder) (a : Address) (slot : Slot) (written : Draft → Bool) (f : Draft → Draft) :
    Except BuildFault Builder :=
  if h : a < b.drafts.size then
    if written b.drafts[a] then .error (.writtenTwice slot a)
    else .ok ⟨b.drafts.set a (f b.drafts[a])⟩
  else .error (.unallocated a b.size)

def setLink (b : Builder) (field : LinkField) (a value : Address) : Except BuildFault Builder :=
  b.write a (.link field) (fun d => (d.link? field).isSome) fun d => d.withLink value field

def setArg (b : Builder) (a : Address) (name : String) (value : Arg Address) :
    Except BuildFault Builder :=
  b.write a (.arg name) (fun d => (d.args.find? name).isSome) fun d => d.withArg name value

def finish (b : Builder) : Heap := ⟨b.drafts.map Draft.toCell⟩

end Builder

/-- an operation on a builder -/
inductive BuildStep where
  | allocate (kind : Kind)
  | link (field : LinkField) (a value : Address)
  | arg (a : Address) (name : String) (value : Arg Address)
deriving DecidableEq

namespace Builder

def step (b : Builder) : BuildStep → Except BuildFault (Option Address × Builder)
  | .allocate kind => let (a, b) := b.allocate kind; .ok (some a, b)
  | .link field a value => (b.setLink field a value).map fun b => (none, b)
  | .arg a name value => (b.setArg a name value).map fun b => (none, b)

/-- operations in turn -/
def run (b : Builder) : List BuildStep → Except BuildFault Builder
  | [] => .ok b
  | s :: rest => do
    let (_, b) ← b.step s
    b.run rest

theorem size_allocate (b : Builder) (kind : Kind) : (b.allocate kind).2.size = b.size + 1 := by
  simp [allocate, size]

theorem size_write {b b' : Builder} {a : Address} {slot : Slot} {written : Draft → Bool}
    {f : Draft → Draft} (h : b.write a slot written f = .ok b') : b'.size = b.size := by
  unfold write at h
  split at h
  · split at h
    · cases h
    · cases h; simp [size]
  · cases h

theorem size_finish (b : Builder) : b.finish.size = b.size := by simp [finish, Heap.size, size]

end Builder

end ScriptHeap
