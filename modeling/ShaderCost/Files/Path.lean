/-! # Paths

Paths are texts with slashes between their elements. Every function here works on the text alone:
nothing is looked up, and `..` is taken to undo the element before it.
-/

namespace ShaderCost

/-- A path, as it was written. -/
abbrev Path := String

namespace Path

/-- The pieces between slashes, the empty ones included. -/
def elements (path : Path) : List String :=
  let step := fun (c : Char) (acc : List Char × List String) =>
    if c == '/' then ([], String.ofList acc.1 :: acc.2) else (c :: acc.1, acc.2)
  let (first, others) := path.toList.foldr step ([], [])
  String.ofList first :: others

def isAbsolute (path : Path) : Bool := path.toList.head? == some '/'

/-- Puts one element on a stack of elements, the last of which is its head. -/
def push (absolute : Bool) (stack : List String) (element : String) : List String :=
  if element.isEmpty || element == "." then stack
  else if element != ".." then element :: stack
  else
    match stack with
    | [] => if absolute then [] else [element]
    | top :: below => if top == ".." then element :: stack else below

/-- The shortest path of the same meaning: no empty elements, no `.`, and `..` only in front. -/
def clean (path : Path) : Path :=
  let stack := path.elements.foldl (push path.isAbsolute) []
  let text := "/".intercalate stack.reverse
  if path.isAbsolute then "/" ++ text else if text.isEmpty then "." else text

/-- A path below a directory. -/
def join (directory : Path) (name : String) : Path :=
  if directory.isEmpty then (if name.isEmpty then "" else clean name)
  else if name.isEmpty then clean directory
  else clean (directory ++ "/" ++ name)

/-- What stands after the last slash. -/
def afterSlash (path : Path) : String :=
  String.ofList (path.toList.reverse.takeWhile (· != '/')).reverse

/-- What stands before the last slash, with the slash. -/
def throughSlash (path : Path) : String :=
  String.ofList (path.toList.reverse.dropWhile (· != '/')).reverse

/-- The directory of a path. -/
def parent (path : Path) : Path := clean path.throughSlash

/-- The last element of a path. -/
def base (path : Path) : String :=
  if path.isEmpty then "."
  else
    let trimmed := String.ofList (path.toList.reverse.dropWhile (· == '/')).reverse
    if trimmed.isEmpty then "/" else afterSlash trimmed

/-- The last element from its last dot on, empty when it has none. -/
def extension (path : Path) : String :=
  let name := path.toList.reverse.takeWhile (· != '/')
  if name.contains '.' then "." ++ String.ofList (name.takeWhile (· != '.')).reverse else ""

end Path

end ShaderCost
