import ScriptHeap.Kind
import ScriptHeap.Scalar
/-!
# Shapes

* `ArgType`            what an argument may hold; `ArgType.accepts` says it of scalars;
* `BodyRule`           what the body of a kind is;
* `KindShape`          the declared arguments and the body of a kind;
* `KindShape.references`   the kinds that a shape names.
-/

namespace ScriptHeap

/-- what an argument may hold -/
inductive ArgType where
  | integer
  /-- an integer or a finite float -/
  | number
  | string
  | boolean
  /-- one of the listed strings -/
  | choice (options : List String)
  /-- a node of one of the listed kinds -/
  | node (kinds : List Kind)
deriving DecidableEq

namespace ArgType

def isNode : ArgType → Bool
  | node _ => true
  | _ => false

/-- the kinds that the argument may hold -/
def kinds : ArgType → List Kind
  | node kinds => kinds
  | _ => []

/-- whether a scalar is of the type; none is of a node type -/
def accepts : ArgType → Scalar → Bool
  | integer, .integer _ => true
  | number, .integer _ => true
  | number, .float x => x.isFinite
  | string, .string _ => true
  | boolean, .boolean _ => true
  | choice options, .string s => options.contains s
  | _, _ => false

def describe : ArgType → String
  | integer => "integer"
  | number => "number"
  | string => "string"
  | boolean => "boolean"
  | choice options => "one of [" ++ ", ".intercalate options ++ "]"
  | node kinds => "node(" ++ " | ".intercalate (Kind.names kinds) ++ ")"

def toJson : ArgType → Json
  | choice options => .object [("choice", Json.ofStrings options)]
  | node kinds => .object [("node", Json.ofStrings (Kind.names kinds))]
  | t => .string t.describe

theorem accepts_node (kinds : List Kind) (s : Scalar) : (node kinds).accepts s = false := by
  cases s <;> rfl

end ArgType

/-- a declared argument -/
structure ArgSpec where
  name : String
  type : ArgType
deriving DecidableEq

/-- what the body link of a kind means -/
inductive BodyRule where
  /-- no body -/
  | none
  /-- a list of statements of the listed kinds -/
  | block (kinds : List Kind)
  /-- the body repeats the named node argument -/
  | primary (name : String)
deriving DecidableEq

namespace BodyRule

def toJson : BodyRule → Json
  | none => .null
  | block kinds => .object [("block", Json.ofStrings (Kind.names kinds))]
  | primary name => .object [("single_child", .string name)]

/-- the kinds of the statements -/
def kinds : BodyRule → List Kind
  | block kinds => kinds
  | _ => []

end BodyRule

/-- the declared shape of a kind; the order of the arguments is the order of visits -/
structure KindShape where
  kind : Kind
  body : BodyRule
  args : List ArgSpec
deriving DecidableEq

namespace KindShape

def arg? (s : KindShape) (name : String) : Option ArgSpec := s.args.find? fun a => a.name == name

/-- the argument that the body repeats -/
def primary? (s : KindShape) : Option String :=
  match s.body with
  | .primary name => some name
  | _ => none

/-- the declared arguments without the primary one -/
def ordinaryArgs (s : KindShape) : List ArgSpec :=
  s.args.filter fun a => s.primary? != some a.name

/-- the kinds that the statements may have, for a kind that has statements -/
def blockKinds? (s : KindShape) : Option (List Kind) :=
  match s.body with
  | .block kinds => some kinds
  | _ => none

def isBlock (s : KindShape) : Bool := s.blockKinds?.isSome

def references (s : KindShape) : List Kind := s.body.kinds ++ s.args.flatMap (·.type.kinds)

/-- the first name that is not declared -/
def undeclared? (s : KindShape) (names : List String) : Option String :=
  names.find? fun name => (s.arg? name).isNone

def toJson (s : KindShape) : Json :=
  .object [
    ("args", .array (s.args.map fun a => .array [.string a.name, a.type.toJson])),
    ("body", s.body.toJson),
    ("kind", .string s.kind.name)]

theorem mem_args_of_arg? {s : KindShape} {name : String} {a : ArgSpec}
    (h : s.arg? name = some a) : a ∈ s.args ∧ a.name = name :=
  ⟨List.mem_of_find?_eq_some h, by simpa using List.find?_some h⟩

theorem primary?_eq_some_iff {s : KindShape} {name : String} :
    s.primary? = some name ↔ s.body = .primary name := by
  unfold primary?
  split <;> simp_all

end KindShape

end ScriptHeap
