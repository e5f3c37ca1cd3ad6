import ShaderCost.Yaml.Basic

/-! # Looking at documents

A view is a value of a document together with the references that were followed to get there. It
looks through references, and shows the entries of a mapping by the texts of their keys. An entry with
the key `<<` holds a mapping, or several, whose entries are added to those of the mapping it stands in,
where there is none with the same key.
-/

namespace ShaderCost

namespace Yaml

/-- A value of a document as it is seen through references. -/
structure View where
  value : Yaml
  /-- The places of the references that were followed. -/
  through : List Nat := []
  /-- The named values of the document. -/
  named : List (Nat × Yaml) := []
  reach : Nat := 0
  deriving Inhabited

/-- The values of a mapping by the texts of their keys. -/
abbrev Entries := List (String × View)

/-- The whole of a document. -/
def Document.view (d : Document) : View :=
  { value := d.value, named := d.named, reach := d.reach }

namespace View

/-- A value inside of the one that is viewed. -/
def child (v : View) (value : Yaml) : View := { v with value }

/-- Follows a reference. One that is met again on the way contains itself and leads nowhere. -/
def settle (v : View) : Option View :=
  match v.value with
  | .reference _ place target =>
    if v.through.contains place then none
    else (v.named.lookup target).map fun value => { v with value, through := place :: v.through }
  | _ => some v

/-- The text of a scalar, if it has one; none if it is nothing. -/
def text? (v : View) : Option (Option String) := do
  match (← v.settle).value with
  | .scalar s =>
    match ← s.meaning? with
    | .null => some none
    | _ => some <$> s.content?
  | _ => none

/-! ## Entries -/

/-- Keys that count as the same: scalars of the same text and references of the same name. Lists are
not told apart, and neither are mappings. -/
def sameKey : Yaml → Yaml → Bool
  | .scalar a, .scalar b => a.text == b.text
  | .reference a _ _, .reference b _ _ => a == b
  | .list _, .list _ => true
  | .mapping _, .mapping _ => true
  | _, _ => false

/-- No key stands twice. -/
def distinctKeys : List (Yaml × Yaml) → Bool
  | [] => true
  | (key, _) :: rest => !(rest.any fun (other, _) => sameKey key other) && distinctKeys rest

/-- The key of mappings that are added. -/
def isMergeKey : Yaml → Bool
  | .scalar s =>
    s.text == "<<" && (s.tag == some "!!merge" || (s.tag.isNone && s.style == .plain))
  | _ => false

/-- The entries of a mapping itself by the texts of their keys. An entry whose key is nothing is passed
over. -/
def ownEntries (v : View) : List (Yaml × Yaml) → Option Entries
  | [] => some []
  | (key, value) :: rest =>
    if isMergeKey key then ownEntries v rest
    else do
      let name ← (v.child key).text?
      let others ← ownEntries v rest
      return match name with
        | some name => (name, v.child value) :: others
        | none => others

/-- The first entry of each key that is not among those seen. -/
def unseen : List String → Entries → Entries
  | _, [] => []
  | seen, (name, value) :: rest =>
    if seen.contains name then unseen seen rest
    else (name, value) :: unseen (name :: seen) rest

/-- Looks for the mappings that are added to one with these entries. -/
def mergeOf (v : View) (entries : List (Yaml × Yaml)) : Option View :=
  (entries.find? (isMergeKey ·.1)).map fun (_, value) => v.child value

mutual

/-- The entries that a mapping adds to those with the keys seen. -/
def addedEntries : Nat → View → List String → Option Entries
  | 0, _, _ => none
  | fuel + 1, v, seen => do
    let v ← v.settle
    match v.value with
    | .mapping entries =>
      if !distinctKeys entries then none
      let own := unseen seen (← ownEntries v entries)
      let seen := own.map (·.1) ++ seen
      match v.mergeOf entries with
      | none => return own
      | some more => return own ++ (← mergedEntries fuel more seen)
    | _ => none

/-- The entries that a mapping, a reference to one, or a list of such adds to those with the keys
seen. -/
def mergedEntries : Nat → View → List String → Option Entries
  | 0, _, _ => none
  | fuel + 1, v, seen =>
    match v.value with
    | .list items => mergedItems fuel v items seen
    | _ => addedEntries fuel v seen

/-- The entries that several mappings add, the first of which come first. -/
def mergedItems : Nat → View → List Yaml → List String → Option Entries
  | 0, _, _, _ => none
  | _, _, [], _ => some []
  | fuel + 1, v, item :: rest, seen => do
    let own ← addedEntries fuel (v.child item) seen
    return own ++ (← mergedItems fuel v rest (own.map (·.1) ++ seen))

end

/-- The entries of a mapping: its own, and those that are added to it. -/
def entries? (v : View) (entries : List (Yaml × Yaml)) : Option Entries := do
  if !distinctKeys entries then none
  let own ← ownEntries v entries
  match v.mergeOf entries with
  | none => return own
  | some more => return own ++ (← mergedEntries v.reach more (own.map (·.1)))

end View

end Yaml

end ShaderCost
