import ShaderCost.Files.Path
import Std.Data.TreeMap

/-! # Changes of files

Changes come in bursts. They are queued by path, the latest change of a path instead of the one
before it, and handed out together: the paths in ascending order, without those that are gone.
-/

namespace ShaderCost

/-- What happened to a file. -/
inductive FileChange where
  | create | write | remove | rename | attributes | unknown
  deriving DecidableEq, Repr, Inhabited

namespace FileChange

def name : FileChange → String
  | create => "CREATE"
  | write => "WRITE"
  | remove => "REMOVE"
  | rename => "RENAME"
  | attributes => "CHMOD"
  | unknown => "UNKNOWN"

/-- The bits of a notification, the one that counts most first. -/
def bits : List (Nat × FileChange) :=
  [(0, create), (1, write), (2, remove), (3, rename), (4, attributes)]

/-- The change that a notification reports. -/
def ofBits (n : Nat) : FileChange :=
  ((bits.find? fun (bit, _) => n.testBit bit).map (·.2)).getD unknown

/-- After the change there is no file left at its path. -/
def leavesNothing : FileChange → Bool
  | remove | rename => true
  | _ => false

theorem not_leavesNothing_iff (change : FileChange) :
    (!change.leavesNothing) = true ↔ change ≠ remove ∧ change ≠ rename := by
  cases change <;> decide

end FileChange

/-- The changes since the last hand-out; nothing is queued or handed out once the queue is stopped. -/
structure ChangeQueue where
  pending : Std.TreeMap Path FileChange := ∅
  stopped : Bool := false
  deriving Inhabited

namespace ChangeQueue

def add (q : ChangeQueue) (path : Path) (change : FileChange) : ChangeQueue :=
  if q.stopped then q else { q with pending := q.pending.insert path change }

/-- The paths to look at, from the queued changes in any order. -/
def changed (entries : List (Path × FileChange)) : List Path :=
  ((entries.filter fun (_, change) => !change.leavesNothing).map (·.1)).mergeSort (· ≤ ·)

/-- Hands out the paths to look at and empties the queue. -/
def flush (q : ChangeQueue) : List Path × ChangeQueue :=
  if q.stopped then ([], q) else (changed q.pending.toList, { q with pending := ∅ })

def stop (q : ChangeQueue) : ChangeQueue := { q with stopped := true }

end ChangeQueue

end ShaderCost
