import ShaderCost.Proofs.Grammar.ShaderNameReads

/-! # Scopes

The scopes form a stack. Whatever a statement does, the scopes around the innermost one are the same
afterwards, and the innermost one has the variables it had; a statement with a scope of its own and
the definition of a function leave it as it was. While they are read, the scopes in which they began
stay open below those opened since. A declaration enters the variables of its declarators and
nothing else, and the body of a function is read in a scope that holds its parameters.

So where a name is read, the open scopes hold what was declared in them before, and the name stands
for the innermost variable of that name (`Denotes`), unless it is a macro.
-/

namespace ShaderCost

open Expression (named)

/-- The variable is the one of that name in the innermost scope that has one, the latest there. -/
def Denotes (scopes : List Scope) (name : String) (v : Variable) : Prop :=
  ∃ inner later earlier outer, scopes = inner ++ (later ++ v :: earlier) :: outer ∧
    v.name = name ∧ ∀ v' ∈ inner.flatten ++ later, v'.name ≠ name

/-- The node that a name leaves: the value of the variable, where it stands for one, or else a
symbol. -/
def Variable.use (v : Variable) (line : Nat) : Node :=
  v.value.elim { form := .symbol, name := v.name, shape := v.shape, line } fun value =>
    { form := .constant value, shape := .scalar value.basic, line }

/-- A name that is no macro leaves what it denotes, and is refused where it denotes nothing. -/
structure NameRead.Resolves (r : NameRead) : Prop where
  declared : ∀ v, Denotes r.state.scopes r.name v → named r.token r.name r.state =
    .ok (r.state.nodes.size, r.state.push (v.use r.token.line))
  undeclared : (∀ v, ¬ Denotes r.state.scopes r.name v) → named r.token r.name r.state =
    Parser.failAt r.token (.undeclared r.name) r.state

end ShaderCost
