import ScriptHeap.Json.Token
/-!
# Canonical JSON text

* `Json.spell`         the tokens of a value, members as they stand, before further tokens;
* `Json.tokens`        the tokens of a value alone;
* `Json.canonical`     the text of a value with the members of every object in the order of their
                       keys;
* `Json.canonicalBytes`   its UTF-8 bytes, which are what is stored and hashed.
-/

namespace ScriptHeap

namespace Json

mutual

def spell : Json → List Token → List Token
  | null, rest => .null :: rest
  | bool b, rest => .bool b :: rest
  | number n, rest => .number n :: rest
  | string s, rest => .string s :: rest
  | array [], rest => .openArray :: .closeArray :: rest
  | array (v :: items), rest => .openArray :: spell v (spellItems items rest)
  | object [], rest => .openObject :: .closeObject :: rest
  | object ((key, v) :: members), rest =>
    .openObject :: .string key :: .colon :: spell v (spellMembers members rest)

/-- further items, each after a comma, and the end of the array -/
def spellItems : List Json → List Token → List Token
  | [], rest => .closeArray :: rest
  | v :: items, rest => .comma :: spell v (spellItems items rest)

/-- further members, each after a comma, and the end of the object -/
def spellMembers : List (String × Json) → List Token → List Token
  | [], rest => .closeObject :: rest
  | (key, v) :: members, rest =>
    .comma :: .string key :: .colon :: spell v (spellMembers members rest)

end

def tokens (v : Json) : List Token := v.spell []

def canonicalChars (v : Json) : List Char := v.normalize.tokens.flatMap Token.chars

def canonical (v : Json) : String := String.ofList v.canonicalChars

def canonicalBytes (v : Json) : ByteArray := v.canonical.toUTF8

end Json

end ScriptHeap
