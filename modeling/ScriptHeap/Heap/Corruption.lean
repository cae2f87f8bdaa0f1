import ScriptHeap.Shape
/-!
# What can be wrong with a heap

* `Address`            the index of a cell; zero is the sentinel and the link to nothing;
* `LinkField`          the three links of a cell;
* `RecordReason`, `CorruptReason`   why a record, and why a cell, is refused;
* `Corruption`         a reason with the address it is found at, `Corruption.message` in words.
-/

namespace ScriptHeap

abbrev Address := Nat

namespace Address

/-- the sentinel, and the value of a link to nothing -/
def nothing : Address := 0

def root : Address := 1

def text (a : Address) : String := "@" ++ toString a

end Address

/-- a link of a cell -/
inductive LinkField where
  | parent
  | next
  | body
deriving DecidableEq

def LinkField.name : LinkField → String
  | parent => "parent"
  | next => "next"
  | body => "body"

/-- why a JSON value is no record of a cell -/
inductive RecordReason where
  | notObject
  | unexpectedKey (key : String)
  | kindNotString
  | argsNotObject
  | notAddress (field : LinkField)
deriving DecidableEq

def RecordReason.message : RecordReason → String
  | notObject => "record must be an object"
  | unexpectedKey key => "unexpected key `" ++ key ++ "`"
  | kindNotString => "`kind` must be a string"
  | argsNotObject => "`args` must be an object"
  | notAddress field => "`" ++ field.name ++ "` must be a non-negative integer"

/-- why a cell is refused -/
inductive CorruptReason where
  /-- the address is not below the size -/
  | outOfRange (size : Nat)
  | unregisteredKind (kind : String)
  /-- a chain of statements that does not end within as many steps as there are cells -/
  | unterminatedChain (start : Address) (limit : Nat)
  | missingArg (name : String)
  | unknownArg (name : String)
  | argTypeMismatch (name : String) (expected : ArgType)
  /-- the body does not repeat the primary argument -/
  | primaryMismatch (primary : String) (body : Address)
  | unexpectedBody (body : Address)
  /-- a next link outside a list of statements -/
  | strayNext (next : Address)
  | danglingLink (field : LinkField) (target : Address)
  | danglingArg (name : String) (target : Address)
  | sentinelArg (name : String)
  | disallowedKind (kind : Kind) (allowed : List Kind)
  | sentinelModified
  | sharedCell
  | orphan
  | malformedRecord (reason : RecordReason)
deriving DecidableEq

def CorruptReason.message : CorruptReason → String
  | outOfRange size => "address out of range (heap size " ++ toString size ++ ")"
  | unregisteredKind kind => "unregistered kind `" ++ kind ++ "`"
  | unterminatedChain start limit =>
    "next-chain from " ++ start.text ++ " does not terminate within " ++ toString limit ++ " steps"
  | missingArg name => "missing argument slot `" ++ name ++ "`"
  | unknownArg name => "undeclared argument slot `" ++ name ++ "`"
  | argTypeMismatch name expected =>
    "argument slot `" ++ name ++ "` does not hold " ++ expected.describe
  | primaryMismatch primary body =>
    "body " ++ body.text ++ " disagrees with primary argument `" ++ primary ++ "`"
  | unexpectedBody body => "unexpected body link " ++ body.text
  | strayNext next => "next link " ++ next.text ++ " outside a statement list"
  | danglingLink field target => field.name ++ " link to " ++ target.text ++ " dangles"
  | danglingArg name target =>
    "argument `" ++ name ++ "` points at " ++ target.text ++ ", which dangles"
  | sentinelArg name => "argument `" ++ name ++ "` points at the sentinel"
  | disallowedKind kind allowed => disallowedMessage kind.name allowed
  | sentinelModified => "sentinel cell was modified"
  | sharedCell => "cell is reachable more than once"
  | orphan => "cell is not reachable from the root"
  | malformedRecord reason => "malformed record: " ++ reason.message

/-- a reason and the address it is found at -/
structure Corruption where
  address : Address
  reason : CorruptReason
deriving DecidableEq

def Corruption.message (c : Corruption) : String :=
  "corrupt heap at " ++ c.address.text ++ ": " ++ c.reason.message

end ScriptHeap
