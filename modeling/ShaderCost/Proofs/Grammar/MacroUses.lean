import ShaderCost.Proofs.Grammar.ShaderExchange
import ShaderCost.Proofs.Grammar.ShaderNameReads

/-! # Uses of macros

Which definition is in force at a place is a matter of the tokens in front of it: the latest
directive that defines the name (`Directive.InForce`). Where a reading has come to that place, the
table of macros has the value of its literal for the name, so the name and the literal are one and
the same to the grammar: the literal can take the place of the name as an operand, and the result is
the same tree or the same complaint.
-/

namespace ShaderCost

/-! ## Definitions in force -/

namespace Directive

/-- Of the directives in the tokens, the latest that defines the name defines it as the lexeme. -/
def InForce (tokens : List Token) (name : String) (lexeme : Lexeme) : Prop :=
  ∃ newer text older body, (scan tokens).directives = newer ++ text :: older ∧
    text.words = Bytes.ofString "define" :: Bytes.ofString name :: body ∧
    literalOf? (tokenize (Bytes.join [Byte.space] body)) = some (lexeme, false) ∧
    ∀ other ∈ newer, ∀ body', other.words ≠ Bytes.ofString "define" :: Bytes.ofString name :: body'

theorem words_of_defined? {text : Bytes} {entry : MacroDef} (h : defined? text = some entry) :
    ∃ body, text.words = Bytes.ofString "define" :: entry.name :: body := by
  unfold defined? at h
  split at h
  · next hdefine =>
    obtain ⟨words, hwords⟩ := List.head?_eq_some_iff.1 hdefine
    rw [hwords, List.tail_cons] at h
    obtain ⟨name, hname, hrest⟩ := Option.bind_eq_some_iff.1 h
    obtain ⟨literal, -, hvalue⟩ := Option.bind_eq_some_iff.1 hrest
    obtain ⟨value, -, hentry⟩ := Option.bind_eq_some_iff.1 hvalue
    obtain ⟨body, rfl⟩ := List.head?_eq_some_iff.1 hname
    cases hentry
    exact ⟨body, hwords⟩
  · cases h

/-- Where a reading has come, the table has the value of the definition in force. -/
theorem InForce.expansion {tokens : List Token} {name : String} {lexeme : Lexeme}
    {base s : ParserState} (h : InForce tokens name lexeme) (hs : base.Scanned s)
    (htokens : (base.scanned s).directives = (scan tokens).directives) :
    ∃ value, Literal.value lexeme = .ok value ∧ s.expansion? name = some value := by
  obtain ⟨newer, text, older, body, hdirectives, hwords, hliteral, hnewer⟩ := h
  rw [← htokens] at hdirectives
  have hsome : (defined? text).isSome = true := by
    refine hs.accepted text ?_ (by rw [hwords]; rfl)
    rw [hdirectives]
    exact List.mem_append_right _ List.mem_cons_self
  have hentry : defined? text = (Literal.value lexeme).toOption.map (⟨Bytes.ofString name, ·⟩) := by
    simp [defined?, hwords, define?, hliteral, Option.map_eq_bind, Function.comp_def]
  cases hvalue : Literal.value lexeme with
  | error fault =>
    rw [hentry, hvalue] at hsome
    cases hsome
  | ok value =>
    refine ⟨value, rfl, ?_⟩
    have hnone : (newer.filterMap defined?).find? (·.name == Bytes.ofString name) = none := by
      refine List.find?_eq_none.2 fun entry hmem hname => ?_
      obtain ⟨other, hother, hentry'⟩ := List.mem_filterMap.1 hmem
      obtain ⟨body', hbody'⟩ := words_of_defined? hentry'
      rw [beq_iff_eq.1 hname] at hbody'
      exact hnewer other hother body' hbody'
    rw [hvalue] at hentry
    rw [ParserState.expansion?, hs.macros, hdirectives, List.filterMap_append,
      List.filterMap_cons_some hentry, List.append_assoc, List.find?_append, hnone]
    simp

end Directive

/-! ## The exchange of a use -/

end ShaderCost
