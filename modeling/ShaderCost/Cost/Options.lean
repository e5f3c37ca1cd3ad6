import ShaderCost.Cost.Tally
import ShaderCost.Text.Quoted

/-! # Variants of the cost model

Three choices are left to the user: how the bounds of nested loops combine, what makes two functions
the same, and what happens when functions call each other in a circle. Each is named by a word, and
the empty word stands for the first choice.
-/

namespace ShaderCost

/-- How the bound of a loop combines with those around it: ten in twenty counts thirty or two
hundred. -/
inductive NestingPolicy where
  | additive
  | multiplicative
  deriving DecidableEq, Repr, Inhabited

/-- What a function is known by: its name alone, or its name with the shapes of its parameters. -/
inductive FunctionIdentity where
  | name
  | signature
  deriving DecidableEq, Repr, Inhabited

/-- What becomes of functions whose cost never settles: the analysis fails and names a circle of
calls, or they keep the cost of their own text. -/
inductive RecursionMode where
  | error
  | keep
  deriving DecidableEq, Repr, Inhabited

/-- A word that names no choice. -/
inductive OptionError where
  | nesting (word : String)
  | identity (word : String)
  | recursion (word : String)
  deriving DecidableEq, Repr, Inhabited

namespace NestingPolicy

def text : NestingPolicy → String
  | additive => "additive"
  | multiplicative => "multiplicative"

def parse (word : String) : Except OptionError NestingPolicy :=
  match word with
  | "" | "additive" => .ok additive
  | "multiplicative" => .ok multiplicative
  | _ => .error (.nesting word)

/-- The value of the loops around a place once the bound of one more is folded in. A product leaves
out bounds that are zero. -/
def combine {α : Type} [Tally α] (policy : NestingPolicy) (active bound : α) : α :=
  match policy with
  | additive => Tally.add active bound
  | multiplicative =>
    if Tally.isZero bound then active
    else if Tally.isZero active then bound
    else Tally.mul active bound

end NestingPolicy

namespace FunctionIdentity

def text : FunctionIdentity → String
  | name => "name"
  | signature => "signature"

def parse (word : String) : Except OptionError FunctionIdentity :=
  match word with
  | "" | "name" => .ok name
  | "signature" => .ok signature
  | _ => .error (.identity word)

end FunctionIdentity

namespace RecursionMode

def text : RecursionMode → String
  | error => "error"
  | keep => "partial"

def parse (word : String) : Except OptionError RecursionMode :=
  match word with
  | "" | "error" => .ok error
  | "partial" => .ok keep
  | _ => .error (.recursion word)

end RecursionMode

namespace OptionError

/-- What was not understood, and the two words that would have been. -/
def describe (what word first second : String) : String :=
  "unknown " ++ what ++ " " ++ Quoted.quote word ++ " (want " ++ first ++ " or " ++ second ++ ")"

def message : OptionError → String
  | nesting word => describe "loop nesting policy" word "additive" "multiplicative"
  | identity word => describe "function identity" word "name" "signature"
  | recursion word => describe "recursion mode" word "error" "partial"

end OptionError

structure CostOptions where
  nesting : NestingPolicy := .additive
  identity : FunctionIdentity := .name
  recursion : RecursionMode := .error
  deriving DecidableEq, Repr, Inhabited

/-- Reads the three words; the first that is not understood is the error. -/
def CostOptions.parse (nesting identity recursion : String) : Except OptionError CostOptions := do
  let nesting ← NestingPolicy.parse nesting
  let identity ← FunctionIdentity.parse identity
  let recursion ← RecursionMode.parse recursion
  return { nesting, identity, recursion }

end ShaderCost
