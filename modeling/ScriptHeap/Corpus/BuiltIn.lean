import ScriptHeap.Corpus.Basic
/-!
# The built-in corpus

* `Corpus.builtIn`     the shapes of all kinds as device programs use them.
-/

namespace ScriptHeap

namespace Corpus

/-! ## lists that occur in several shapes -/

def statementKinds : List Kind := [
  .takePhoto, .sendMessage, .conditional, .execute, .moveAbsolute, .moveRelative, .findHome, .wait,
  .readPin, .writePin]

/-- the values of variables and applied parameters -/
def dataKinds : List Kind := [.coordinate, .identifier, .point, .tool, .nothing]

def defaultKinds : List Kind := [.coordinate, .point, .tool, .nothing]

def locationKinds : List Kind := [.coordinate, .identifier, .point, .tool]

def branchKinds : List Kind := [.execute, .nothing]

def messageTypes : List String :=
  ["success", "busy", "warn", "error", "info", "fun", "debug", "assertion"]

def channelNames : List String := ["ticker", "toast", "email", "espeak"]

def comparisons : List String := ["is", "not", "is_undefined", "<", ">"]

def pointerTypes : List String := ["Plant", "GenericPointer", "ToolSlot", "Weed"]

def axes : List String := ["x", "y", "z", "all"]

/-! ## the shapes -/

def leaf (kind : Kind) (args : List ArgSpec) : KindShape := ⟨kind, .none, args⟩

def builtInShapes : List KindShape := [
  leaf .nothing [],
  ⟨.sequence, .block statementKinds,
    [⟨"locals", .node [.scopeDeclaration]⟩, ⟨"version", .integer⟩]⟩,
  ⟨.scopeDeclaration, .block [.variableDeclaration, .parameterDeclaration], []⟩,
  ⟨.variableDeclaration, .primary "data_value",
    [⟨"label", .string⟩, ⟨"data_value", .node dataKinds⟩]⟩,
  ⟨.parameterDeclaration, .primary "default_value",
    [⟨"label", .string⟩, ⟨"default_value", .node defaultKinds⟩]⟩,
  ⟨.parameterApplication, .primary "data_value",
    [⟨"label", .string⟩, ⟨"data_value", .node dataKinds⟩]⟩,
  leaf .coordinate [⟨"x", .number⟩, ⟨"y", .number⟩, ⟨"z", .number⟩],
  leaf .identifier [⟨"label", .string⟩],
  leaf .point [⟨"pointer_type", .choice pointerTypes⟩, ⟨"pointer_id", .integer⟩],
  leaf .tool [⟨"tool_id", .integer⟩],
  leaf .takePhoto [],
  ⟨.sendMessage, .block [.channel],
    [⟨"message", .string⟩, ⟨"message_type", .choice messageTypes⟩]⟩,
  leaf .channel [⟨"channel_name", .choice channelNames⟩],
  leaf .conditional [⟨"lhs", .string⟩, ⟨"op", .choice comparisons⟩, ⟨"rhs", .integer⟩,
    ⟨"_then", .node branchKinds⟩, ⟨"_else", .node branchKinds⟩],
  ⟨.execute, .block [.parameterApplication], [⟨"sequence_id", .integer⟩]⟩,
  leaf .moveAbsolute [⟨"location", .node locationKinds⟩, ⟨"offset", .node [.coordinate]⟩,
    ⟨"speed", .integer⟩],
  leaf .moveRelative [⟨"x", .number⟩, ⟨"y", .number⟩, ⟨"z", .number⟩, ⟨"speed", .integer⟩],
  leaf .findHome [⟨"axis", .choice axes⟩, ⟨"speed", .integer⟩],
  leaf .wait [⟨"milliseconds", .integer⟩],
  leaf .readPin [⟨"pin_number", .integer⟩, ⟨"label", .string⟩, ⟨"pin_mode", .integer⟩],
  leaf .writePin [⟨"pin_number", .integer⟩, ⟨"pin_value", .integer⟩, ⟨"pin_mode", .integer⟩]]

def builtIn : Corpus where
  shapes := builtInShapes
  sorted := by decide
  consistent := .of_faults (by decide) (by decide) (by decide)

end Corpus

end ScriptHeap
