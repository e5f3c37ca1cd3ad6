import ShaderCost.Proofs.Grammar.ShaderNameReads

/-! # Structures that contain themselves

A structure is entered into the table after the structures of its fields, and a name that is entered
twice contains itself. So in the table of a shader that is read, no structure contains itself if and
only if no name is entered twice; and this is so unless a name stands behind the keyword `struct`
twice.
The condition is needed: inside the definition of a structure its own name is still free
(`nestedStruct_contains_itself`).
-/

namespace ShaderCost

open Relation (TransGen)

/-- The structures of a shader contain no structure over again, unless one is entered twice. -/
theorem struct_containment_acyclic {source : Bytes} {root : NodeId} {s : ParserState}
    (h : Shader.shader.run { rest := tokenize source } = .ok (root, s)) :
    Founded s.structs ∧
    ((∀ name, ¬ TransGen (Contains s.structs) name name) ↔ (s.structs.map (·.name)).Nodup) ∧
    ((structNames (tokenize source)).Nodup → (s.structs.map (·.name)).Nodup ∧
      ∀ name, ¬ TransGen (Contains s.structs) name name) := by
  have hempty : Founded [] := fun _ _ hsuffix => by
    cases List.suffix_nil.1 hsuffix
  have hfounded : Founded s.structs := (Shader.shader_does Expression.has_nil h).1.founded hempty
  obtain ⟨hext, -⟩ := (Shader.shader_watching _).ends root s h
  have hlooped : Looped s.structs := hext.registers.looped fun _ _ hsuffix => by
    cases List.suffix_nil.1 hsuffix
  have hnodup : (structNames (tokenize source)).Nodup → (s.structs.map (·.name)).Nodup := by
    intro hdistinct
    obtain ⟨passed, new, hpassed, hnew, hnames⟩ := hext.registers.names
    -- a structure inside another is entered first, so the names are those of the tokens reordered
    have hall : (structNames passed).Sublist (structNames (tokenize source)) := by
      rw [← show passed ++ s.rest = tokenize source from hpassed]
      exact (List.sublist_append_left _ _).trans (structNames_append passed s.rest)
    rw [hnew, List.append_nil]
    obtain ⟨names, hperm, hsub⟩ := hnames
    exact hperm.nodup_iff.1 (hdistinct.sublist (hsub.trans hall))
  refine ⟨hfounded, ⟨hlooped.nodup, hfounded.acyclic⟩, fun hdistinct => ?_⟩
  exact ⟨hnodup hdistinct, hfounded.acyclic (hnodup hdistinct)⟩

theorem Shader.exists_of_structs {result : Except ParseError (NodeId × ParserState)}
    {table : List StructDecl} (h : result.toOption.map (·.2.structs) = some table) :
    ∃ root s, result = .ok (root, s) ∧ s.structs = table := by
  cases result with
  | error e => cases h
  | ok x => exact ⟨x.1, x.2, rfl, Option.some.inj h⟩

def nestedFields : Bytes :=
  Bytes.ofString "struct A \x7bint x;\x7d; struct B \x7bstruct C \x7bA a;\x7d c[2];\x7d b;"

/-- A structure contains another one through the array of a third that is defined inside it. -/
theorem struct_containment_acyclic_nested :
    ∃ root s, Shader.shader.run { rest := tokenize nestedFields } = .ok (root, s) ∧
      TransGen (Contains s.structs) "B" "A" ∧
      ∀ name, ¬ TransGen (Contains s.structs) name name := by
  have hstructs : (Shader.shader.run { rest := tokenize nestedFields }).toOption.map
      (·.2.structs) = some
        [⟨"B", [⟨"c", { Shape.ofStruct "C" with arrayLength := 2 }⟩]⟩,
          ⟨"C", [⟨"a", .ofStruct "A"⟩]⟩, ⟨"A", [⟨"x", .scalar .int⟩]⟩] := by decide +kernel
  have hnames : (structNames (tokenize nestedFields)).Nodup := by decide +kernel
  generalize nestedFields = source at *
  obtain ⟨root, s, hrun, hs⟩ := Shader.exists_of_structs hstructs
  refine ⟨root, s, hrun, ?_, ((struct_containment_acyclic hrun).2.2 hnames).2⟩
  have houter : Contains s.structs "B" "C" := by
    rw [hs]
    exact ⟨_, .head _, rfl, _, .head _, rfl, rfl⟩
  have hinner : Contains s.structs "C" "A" := by
    rw [hs]
    exact ⟨_, .tail _ (.head _), rfl, _, .head _, rfl, rfl⟩
  exact .tail (.single houter) hinner

/-- A structure is defined inside another one of the same name. -/
def nestedStruct : Bytes := Bytes.ofString "struct S \x7bstruct S \x7bint a;\x7d b;\x7d;"

theorem nestedStruct_contains_itself :
    ∃ root s, Shader.shader.run { rest := tokenize nestedStruct } = .ok (root, s) ∧
      ¬ (s.structs.map (·.name)).Nodup ∧ Contains s.structs "S" "S" := by
  have hstructs : (Shader.shader.run { rest := tokenize nestedStruct }).toOption.map
      (·.2.structs) = some
        [⟨"S", [⟨"b", .ofStruct "S"⟩]⟩, ⟨"S", [⟨"a", .scalar .int⟩]⟩] := by decide +kernel
  obtain ⟨root, s, hrun, hs⟩ := Shader.exists_of_structs hstructs
  refine ⟨root, s, hrun, ?_, ?_⟩
  · rw [hs]
    decide
  · rw [hs]
    exact ⟨_, .head _, rfl, _, .head _, rfl, rfl⟩

end ShaderCost
