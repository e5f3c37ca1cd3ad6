import ShaderCost.Yaml.Scalar

/-! # Tokens of settings files

A document is read as a list of tokens. Some stand for marks in the text; others show what the layout
says: where a block of items or entries starts and ends, and that what follows is a key. The list of a
text that could be read to its end finishes with `streamEnd`.
-/

namespace ShaderCost

namespace Yaml

inductive Token where
  | streamEnd
  | versionDirective (major minor : Nat)
  /-- Tags with the handle stand for tags that start with the target. -/
  | tagDirective (handle target : String)
  | documentStart
  | documentEnd
  | blockList
  | blockMapping
  | blockEnd
  | flowList
  | flowListEnd
  | flowMapping
  | flowMappingEnd
  /-- The dash in front of an item of a block. -/
  | item
  /-- The comma in brackets. -/
  | separator
  | key
  | value
  | reference (name : String)
  | anchor (name : String)
  /-- A tag with a handle, or without one if it is written in full. -/
  | tag (handle suffix : String)
  | scalar (style : ScalarStyle) (text : String)
  deriving DecidableEq, Repr, Inhabited

end Yaml

end ShaderCost
