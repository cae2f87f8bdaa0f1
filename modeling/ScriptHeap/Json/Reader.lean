import ScriptHeap.Json.Token
/-!
# Reading JSON

* `Json.Frame`         an open array or object that waits for a value;
* `Json.Reading`, `Json.Reading.step`   what must come next, with the frames around it;
* `Json.ofTokens?`, `Json.ofChars?`, `Json.ofBytes?`   the value of tokens, of a text, of UTF-8 bytes,
                       as a library reads them.

Of two members with one key the later counts, and the members of an object come out in the order of
their keys.
-/

namespace ScriptHeap

namespace Json

/-- an open array with its items, newest first, or an open object with its members and a key -/
inductive Frame where
  | array (items : List Json)
  | object (members : Entries Json) (key : String)

/-- what must come next; the stack holds the frames around it, innermost first -/
inductive Reading where
  /-- a value -/
  | value (stack : List Frame)
  /-- the first item of an array, or its end -/
  | firstItem (stack : List Frame)
  /-- a comma or the end of the array -/
  | afterItem (stack : List Frame) (items : List Json)
  /-- the first key of an object, or its end -/
  | firstKey (stack : List Frame)
  /-- a key -/
  | key (stack : List Frame) (members : Entries Json)
  /-- the colon after a key -/
  | colon (stack : List Frame) (members : Entries Json) (key : String)
  /-- a comma or the end of the object -/
  | afterMember (stack : List Frame) (members : Entries Json)
  /-- nothing -/
  | done (v : Json)

namespace Reading

/-- a finished value goes into the innermost frame -/
def deliver (v : Json) : List Frame → Reading
  | [] => done v
  | .array items :: stack => afterItem stack (v :: items)
  | .object members k :: stack => afterMember stack (Entries.insert k v members)

/-- the first token of a value, where no more arrays and objects may be open than the limit says -/
def start (limit : Nat) (stack : List Frame) : Token → Option Reading
  | .openArray => if stack.length < limit then some (firstItem stack) else none
  | .openObject => if stack.length < limit then some (firstKey stack) else none
  | .null => some (deliver .null stack)
  | .bool b => some (deliver (.bool b) stack)
  | .number n => some (deliver (.number n) stack)
  | .string s => some (deliver (.string s) stack)
  | _ => none

def step (limit : Nat) : Reading → Token → Option Reading
  | value stack, t => start limit stack t
  | firstItem stack, .closeArray => some (deliver (.array []) stack)
  | firstItem stack, t => start limit (.array [] :: stack) t
  | afterItem stack items, .comma => some (value (.array items :: stack))
  | afterItem stack items, .closeArray => some (deliver (.array items.reverse) stack)
  | firstKey stack, .closeObject => some (deliver (.object []) stack)
  | firstKey stack, .string k => some (colon stack [] k)
  | key stack members, .string k => some (colon stack members k)
  | colon stack members k, .colon => some (value (.object members k :: stack))
  | afterMember stack members, .comma => some (key stack members)
  | afterMember stack members, .closeObject => some (deliver (.object members) stack)
  | _, _ => none

end Reading

def ofTokens? (limit : Nat) (tokens : List Token) : Option Json :=
  match tokens.foldlM (Reading.step limit) (.value []) with
  | some (.done v) => some v
  | _ => none

def ofChars? (lib : JsonLibrary) (cs : List Char) : Option Json :=
  (Token.scan? lib cs).bind (ofTokens? lib.nestingLimit)

def ofBytes? (lib : JsonLibrary) (bytes : ByteArray) : Option Json :=
  (String.fromUTF8? bytes).bind fun s => ofChars? lib s.toList

end Json

end ScriptHeap
