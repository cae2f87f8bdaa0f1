import ScriptHeap.Node.Basic
import ScriptHeap.Corpus.Basic
/-!
# Sample trees

* `Sample.greeting`    a small program with every way of nesting;
* `Sample.nestingCorpus`, `Sample.nested`, `Sample.wide`   sequences in sequences, deep and wide;
* `Sample.program`     a program of a given length that goes through the kinds of statements.
-/

namespace ScriptHeap

namespace Sample

/-! ## arguments -/

def str (n : Node) (name value : String) : Node := n.withArg name (.scalar (.string value))

/-- set an integer -/
def int (n : Node) (name : String) (value : Int64) : Node :=
  n.withArg name (.scalar (.integer value))

def sub (n : Node) (name : String) (value : Node) : Node := n.withArg name (.nested value)

/-! ## a small program -/

/-- a sequence of a photo, a message with a channel, and a conditional with two branches -/
def greeting : Node :=
  let message := (str (str (.ofKind "send_message") "message" "Hello, world!") "message_type" "success")
    |>.withStatement (str (.ofKind "channel") "channel_name" "toast")
  let test := int (str (str (.ofKind "_if") "lhs" "x") "op" "is") "rhs" 0
  let branches := sub (sub test "_then" (int (.ofKind "execute") "sequence_id" 1)) "_else"
    (.ofKind "nothing")
  (sub (int (.ofKind "sequence") "version" 20180209) "locals" (.ofKind "scope_declaration"))
    |>.withStatement (.ofKind "take_photo")
    |>.withStatement message
    |>.withStatement branches

/-! ## nesting -/

def nestingCorpus : Corpus where
  shapes := [⟨.nothing, .none, []⟩, ⟨.sequence, .block [.sequence], []⟩]
  sorted := by decide
  consistent := .of_faults (by decide) (by decide) (by decide)

/-- a sequence in a sequence, so many below the outermost -/
def nestedBelow : Nat → Node
  | 0 => .ofKind "sequence"
  | n + 1 => (Node.ofKind "sequence").withStatement (nestedBelow n)

def nested (depth : Nat) : Node := nestedBelow (depth - 1)

/-- a sequence of so many sequences, each nested to one less than the depth -/
def wide (width depth : Nat) : Node :=
  ⟨"sequence", [], List.replicate width (nested (max (depth - 1) 1))⟩

/-! ## long programs -/

/-- a place, the last coordinate being given as an argument -/
def place (x : Int64) (z : Scalar) : Node :=
  (int (int (.ofKind "coordinate") "x" x) "y" 0).withArg "z" (.scalar z)

/-- one half -/
def half : Binary64 := ⟨0x3FE0000000000000⟩

/-- a number as a word, the greatest word if it does not fit -/
def word (n : Nat) : Int64 := if n < Nat.pow 2 63 then Int64.ofNat n else Int64.maxValue

/-- the statement at an index -/
def statement (i : Nat) : Node :=
  let n := word i
  match i % 6 with
  | 0 => .ofKind "take_photo"
  | 1 => int (.ofKind "wait") "milliseconds" n
  | 2 =>
    (str (str (.ofKind "send_message") "message" ("step " ++ toString i)) "message_type" "info")
      |>.withStatement (str (.ofKind "channel") "channel_name" "toast")
  | 3 =>
    int (sub (sub (.ofKind "move_absolute") "location" (place n (.integer 0))) "offset"
      (place 0 (.float half))) "speed" 100
  | 4 =>
    sub (sub (int (str (str (.ofKind "_if") "lhs" "pin13") "op" "<") "rhs" n) "_then"
      (int (.ofKind "execute") "sequence_id" n)) "_else" (.ofKind "nothing")
  | _ =>
    int (int (int (.ofKind "write_pin") "pin_number" 13) "pin_value" (n % 2)) "pin_mode" 0

def program (length : Nat) : Node :=
  let parameter := sub (str (.ofKind "parameter_declaration") "label" "speed") "default_value"
    (.ofKind "nothing")
  let root := sub (int (.ofKind "sequence") "version" 1) "locals"
    ((Node.ofKind "scope_declaration").withStatement parameter)
  ⟨root.kind, root.args, (List.range length).map statement⟩

end Sample

end ScriptHeap
