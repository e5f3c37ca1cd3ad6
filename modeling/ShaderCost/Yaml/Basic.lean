import ShaderCost.Yaml.Scalar

/-! # Documents

The value of a settings file: scalars, lists and mappings, whose keys may be of any kind. Entries keep
their order, and nothing says yet that the keys of a mapping differ.

A value can be given a name and be referred to by it. A reference holds the number of the value, and
the document holds the values by their numbers, because a reference may stand inside of the value it
refers to. Whoever follows references has to see that none is followed inside of itself; they are
numbered too, to tell them apart.
-/

namespace ShaderCost

inductive Yaml where
  | scalar (scalar : Yaml.Scalar)
  | list (items : List Yaml)
  | mapping (entries : List (Yaml × Yaml))
  | reference (name : String) (place target : Nat)
  deriving Inhabited

namespace Yaml

/-- A value that was left out. -/
def nothing : Yaml := scalar { text := "" }

/-- A mapping whose keys are plain scalars. -/
def record (fields : List (String × Yaml)) : Yaml :=
  mapping (fields.map fun (key, value) => (scalar { text := key }, value))

/-- A document. -/
structure Document where
  value : Yaml
  /-- The named values by their numbers. -/
  named : List (Nat × Yaml) := []
  /-- No way through values and references is longer, if none of them stands twice on it. -/
  reach : Nat := 0
  deriving Inhabited

end Yaml

end ShaderCost
