/-!
# Lines of source text outside test blocks

* `SourceLines.lines`  the lines of a text;
* `SourceLines.isBlank`, `SourceLines.trim`   Unicode white space, and a line without it at its ends;
* `SourceLines.Scan`   the depth of braces, the block that is being skipped, and whether a test
                       attribute waits for its block;
* `SourceLines.shipped`   the lines that are neither in a test block nor comments, with their indices.
-/

namespace ScriptHeap

namespace SourceLines

/-! ## lines -/

/-- a line without the carriage return before its line feed -/
def dropReturn (line : List Char) : List Char :=
  if line.getLast? = some '\r' then line.dropLast else line

/-- the lines of a text that starts with the end of a line; a final line feed adds no line -/
def linesFrom (line : List Char) : List Char → List (List Char)
  | [] => if line.isEmpty then [] else [line.reverse]
  | c :: rest =>
    if c = '\n' then dropReturn line.reverse :: linesFrom [] rest else linesFrom (c :: line) rest

def lines (text : List Char) : List (List Char) := linesFrom [] text

/-- the characters with the property White_Space -/
def isBlank (c : Char) : Bool :=
  let n := c.toNat
  (9 ≤ n && n ≤ 13) || n == 0x20 || n == 0x85 || n == 0xA0 || n == 0x1680 ||
    (0x2000 ≤ n && n ≤ 0x200A) || n == 0x2028 || n == 0x2029 || n == 0x202F || n == 0x205F ||
    n == 0x3000

def trim (line : List Char) : List Char :=
  (((line.dropWhile isBlank).reverse).dropWhile isBlank).reverse

/-- whether one list of characters occurs in another -/
def occursIn (part : List Char) : List Char → Bool
  | [] => part.isEmpty
  | c :: rest => part.isPrefixOf (c :: rest) || occursIn part rest

/-- the attribute before a test block -/
def testAttribute : List Char := "#[cfg(test)]".toList

/-- a line that starts as a comment does -/
def isComment (trimmed : List Char) : Bool :=
  "//".toList.isPrefixOf trimmed || "/*".toList.isPrefixOf trimmed || "*".toList.isPrefixOf trimmed

/-! ## the scan -/

/-- the depth of braces, the depth around the block that is skipped, and whether an attribute waits -/
structure Scan where
  depth : Nat
  skip : Option Nat
  pending : Bool
deriving DecidableEq

namespace Scan

def initial : Scan := ⟨0, none, false⟩

/-- the state after the braces of a line -/
def braces (s : Scan) (line : List Char) : Scan :=
  let opened := line.count '\x7b'
  let depth := s.depth + opened - line.count '\x7d'
  if s.pending && 0 < opened then ⟨depth, some s.depth, false⟩ else ⟨depth, s.skip, s.pending⟩

/-- the state after a line, and whether the line is outside test blocks and no comment -/
def step (s : Scan) (line : List Char) : Scan × Bool :=
  let trimmed := trim line
  if occursIn testAttribute trimmed then (⟨s.depth, s.skip, true⟩, false)
  else
    let s := s.braces line
    match s.skip with
    | some depth => (if s.depth ≤ depth then ⟨s.depth, none, s.pending⟩ else s, false)
    | none => (s, !isComment trimmed)

/-- the lines that count, from an index on, with their indices -/
def collect (s : Scan) (index : Nat) : List (List Char) → List (Nat × List Char)
  | [] => []
  | line :: rest =>
    let (s', counts) := s.step line
    if counts then (index, trim line) :: collect s' (index + 1) rest else collect s' (index + 1) rest

end Scan

/-- the trimmed lines outside test blocks that are no comments, with their indices from 0 -/
def shipped (text : String) : List (Nat × String) :=
  (Scan.initial.collect 0 (lines text.toList)).map fun (i, line) => (i, String.ofList line)

end SourceLines

end ScriptHeap
