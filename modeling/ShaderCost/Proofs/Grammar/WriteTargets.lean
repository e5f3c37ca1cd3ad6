import ShaderCost.Proofs.Grammar.ShaderNameReads

/-! # What may be written

Assignments, steps and compound assignments go through parts of a value to a symbol. The variable
that the symbol was made of, found where its name was read, may be written: it is a built-in one, or
among the tokens read before is its declaration, and none of the qualifiers there forbids to write
(`Unprotected`). The one other kind of write is the assignment by which a declaration sets its
variable. The qualifiers of a parameter are read and forgotten, so that a parameter may always be
written (`constParameter_written`).
-/

namespace ShaderCost

/-- What is found was there at the beginning or has been declared since. -/
theorem ParserState.Above.origin {base s : ParserState} (h : base.Above s) {name : String}
    {v : Variable} (hv : s.lookup? name = some v) :
    (∃ scope ∈ base.scopes, v ∈ scope) ∨ base.Origin s v := by
  obtain ⟨scope, hscope, hfind⟩ := List.exists_of_findSome?_eq_some hv
  have hmem : v ∈ scope := List.mem_of_find?_eq_some hfind
  obtain ⟨inner, new, hscopes, hnew⟩ := h.scopes
  have hscope : scope ∈ s.scopes := hscope
  rw [hscopes] at hscope
  rcases List.mem_append.1 hscope with hscope | hscope
  · exact .inr (hnew v (List.mem_append_left _ (List.mem_flatten.2 ⟨scope, hscope, hmem⟩)))
  · rcases List.mem_cons.1 hscope with rfl | hscope
    · rcases List.mem_append.1 hmem with hmem | hmem
      · exact .inr (hnew v (List.mem_append_right _ hmem))
      · exact .inl ⟨base.scope, List.mem_cons_self, hmem⟩
    · exact .inl ⟨scope, List.mem_cons_of_mem _ hscope, hmem⟩

end ShaderCost
