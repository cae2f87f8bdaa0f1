/-!
# Kinds

* `Kind`               the closed set of node kinds;
* `Kind.all`           all of them, in the order in which kinds are listed everywhere;
* `Kind.name`, `Kind.ofName?`   the name of a kind, and the kind of a name;
* `Kind.index`         the place of a kind in `Kind.all`;
* `disallowedMessage`  the message for a kind in a place that does not admit it.
-/

namespace ScriptHeap

/-- a node kind -/
inductive Kind where
  | nothing
  | sequence
  | scopeDeclaration
  | variableDeclaration
  | parameterDeclaration
  | parameterApplication
  | coordinate
  | identifier
  | point
  | tool
  | takePhoto
  | sendMessage
  | channel
  | conditional
  | execute
  | moveAbsolute
  | moveRelative
  | findHome
  | wait
  | readPin
  | writePin
deriving DecidableEq, Inhabited

namespace Kind

def all : List Kind := [
  nothing, sequence, scopeDeclaration, variableDeclaration, parameterDeclaration,
  parameterApplication, coordinate, identifier, point, tool, takePhoto, sendMessage, channel,
  conditional, execute, moveAbsolute, moveRelative, findHome, wait, readPin, writePin]

def name : Kind → String
  | nothing => "nothing"
  | sequence => "sequence"
  | scopeDeclaration => "scope_declaration"
  | variableDeclaration => "variable_declaration"
  | parameterDeclaration => "parameter_declaration"
  | parameterApplication => "parameter_application"
  | coordinate => "coordinate"
  | identifier => "identifier"
  | point => "point"
  | tool => "tool"
  | takePhoto => "take_photo"
  | sendMessage => "send_message"
  | channel => "channel"
  | conditional => "_if"
  | execute => "execute"
  | moveAbsolute => "move_absolute"
  | moveRelative => "move_relative"
  | findHome => "find_home"
  | wait => "wait"
  | readPin => "read_pin"
  | writePin => "write_pin"

def ofName? (s : String) : Option Kind := all.find? fun k => k.name == s

def index (k : Kind) : Nat := all.idxOf k

theorem mem_all (k : Kind) : k ∈ all := by cases k <;> decide

theorem ofName?_name (k : Kind) : ofName? k.name = some k := by cases k <;> decide

theorem name_of_ofName? {s : String} {k : Kind} (h : ofName? s = some k) : k.name = s := by
  simpa using List.find?_some h

theorem name_injective {k l : Kind} (h : k.name = l.name) : k = l :=
  Option.some.inj (by rw [← ofName?_name k, h, ofName?_name])

theorem index_injective {k l : Kind} (h : k.index = l.index) : k = l := by
  have hk := List.getElem_idxOf (List.idxOf_lt_length_of_mem (mem_all k))
  have hl := List.getElem_idxOf (List.idxOf_lt_length_of_mem (mem_all l))
  rw [← hk, ← hl]
  congr 1

/-- names of kinds, for messages -/
def names (l : List Kind) : List String := l.map name

end Kind

def disallowedMessage (kind : String) (allowed : List Kind) : String :=
  "`" ++ kind ++ "` is not allowed here (allowed: " ++ ", ".intercalate (Kind.names allowed) ++ ")"

end ScriptHeap
