import ShaderCost.Proofs.Cost.CallGraph
import ShaderCost.Proofs.Grammar.Totality
import ShaderCost.Proofs.Grammar.Typing
import ShaderCost.Proofs.Token.Relexing

/-! # Names and signatures

The signature of a function is its name, followed by its parameters in parentheses. A name is a word
of letters, digits and underscores, so it is found again in the signature: it ends where the first
parenthesis stands (`nameOf_signatureOf`). The key of code outside all functions begins with a
parenthesis, so that it is no signature.

In the tree of a shader every definition and every call has the name and the signature of a declared
function, and therefore its name is a function of its signature (`Tree.nameOf_key`).
-/

namespace ShaderCost

/-! ## Identifiers -/

/-- A word of letters, digits and underscores. -/
def IsIdentifier (text : String) : Prop :=
  ∃ word : Bytes, word ≠ [] ∧ (∀ b ∈ word, Byte.isNameByte b = true) ∧ text = word.toAscii

namespace IsIdentifier

variable {text : String}

/-- Marks do not occur in words. -/
theorem mark_notMem (h : IsIdentifier text) (mark : UInt8)
    (hmark : Byte.isNameByte mark = false) : Byte.toChar mark ∉ text.toList := by
  obtain ⟨word, -, hword, rfl⟩ := h
  intro hmem
  rw [Bytes.toAscii, String.toList_ofList] at hmem
  obtain ⟨b, hb, heq⟩ := List.mem_map.1 hmem
  have hcode : b.toNat = mark.toNat := by rw [← Byte.toNat_toChar, heq, Byte.toNat_toChar]
  rw [← UInt8.toNat_inj.1 hcode, hword b hb] at hmark
  cases hmark

theorem paren_notMem (h : IsIdentifier text) : '(' ∉ text.toList :=
  h.mark_notMem 40 rfl

theorem toList_ne_nil (h : IsIdentifier text) : text.toList ≠ [] := by
  obtain ⟨word, hword, -, rfl⟩ := h
  simpa [Bytes.toAscii] using hword

end IsIdentifier

namespace Lexeme

theorem scanNumber_ne_name (bytes : Bytes) (text : String) : (scanNumber bytes).1 ≠ .name text := by
  unfold scanNumber
  split
  · simp
  · next isFloat length _ =>
    simp only
    split
    · cases isFloat <;> simp
    · split
      · simp
      split
      · simp
      split
      · simp
      · cases isFloat <;> simp

theorem eq_toAscii_of_ofWord {word : Bytes} {text : String} (h : ofWord word = .name text) :
    text = word.toAscii := by
  unfold ofWord at h
  simp only at h
  split at h
  · cases h
  split at h
  · cases h
  split at h
  · cases h
  split at h
  · exact (Lexeme.name.inj h).symm
  · cases h

/-- Of the scanners only the one for words finds names. -/
theorem isIdentifier_of_scan {fresh : Bool} {bytes : Bytes} {text : String}
    (h : (scan fresh bytes).1 = .name text) : IsIdentifier text := by
  cases bytes with
  | nil => cases h
  | cons b rest =>
    unfold scan at h
    simp only at h
    split at h
    · cases h
    split at h
    · next hb =>
      refine ⟨(b :: rest).takeWhile Byte.isNameByte, ?_, fun c hc => ?_, eq_toAscii_of_ofWord h⟩
      · simp [Byte.isNameByte, hb]
      · exact List.mem_takeWhile_imp hc
    split at h
    · exact absurd h (scanNumber_ne_name _ text)
    split at h
    · cases h
    · cases h

end Lexeme

theorem tokenize_isIdentifier {source : Bytes} {token : Token} {text : String}
    (htoken : token ∈ tokenize source) (htext : token.lexeme = .name text) : IsIdentifier text := by
  obtain ⟨c, -, rfl⟩ := exists_next_of_mem_tokenize htoken
  exact Lexeme.isIdentifier_of_scan htext

/-! ## Signatures -/

/-- The name in a signature. -/
def nameOf (key : String) : String :=
  if key = noFunction then noFunction else String.ofList (key.toList.takeWhile (· != '('))

theorem nameOf_noFunction : nameOf noFunction = noFunction := if_pos rfl

theorem toList_signatureOf (name : String) (params : List Shape) :
    (signatureOf name params).toList =
      name.toList ++ '(' :: ([','].intercalate (params.map (·.text.toList)) ++ [')']) := by
  unfold signatureOf
  simp only [String.toList_append, String.toList_intercalate, List.map_map, List.append_assoc]
  rfl

/-- A word ends before the first mark. -/
theorem takeWhile_ne_mark {mark : Char} {word rest : List Char} (hword : mark ∉ word)
    (hrest : ∀ c ∈ rest.head?, c = mark) : (word ++ rest).takeWhile (· != mark) = word := by
  rw [List.takeWhile_append_of_pos]
  · cases rest with
    | nil => rw [List.takeWhile_nil, List.append_nil]
    | cons c rest =>
      rw [List.takeWhile_cons_of_neg, List.append_nil]
      simpa using hrest c rfl
  · intro c hc
    simpa using ne_of_mem_of_not_mem hc hword

/-- A name is found again in its signature. -/
theorem nameOf_signatureOf {name : String} (h : IsIdentifier name) (params : List Shape) :
    nameOf (signatureOf name params) = name := by
  have hname : (signatureOf name params).toList.takeWhile (· != '(') = name.toList := by
    rw [toList_signatureOf, takeWhile_ne_mark h.paren_notMem]
    exact fun c hc => (Option.some.inj hc).symm
  have hother : signatureOf name params ≠ noFunction := by
    intro heq
    rw [heq] at hname
    exact h.toList_ne_nil hname.symm
  rw [nameOf, if_neg hother, hname, String.ofList_toList]

/-! ## Definitions and calls -/

theorem Checked.declared {s : ParserState} (h : Checked s) {id : NodeId} (hid : s.Has id)
    (href : (s.node id).isReference = true) :
    ∃ decl ∈ s.functions, decl.name = (s.node id).name ∧
      decl.signature = (s.node id).signature := by
  have hfound : ∃ x, s.declared? (s.node id).name (s.node id).signature = some x := by
    obtain ⟨_, hshape⟩ := h.shapes id hid
    unfold Node.isReference Node.isCall Node.kind at href
    unfold Declarations.shapeOf? at hshape
    generalize s.node id = n at href hshape
    cases hform : n.form with
    | function =>
      simp only [hform] at hshape
      obtain ⟨x, hx, -⟩ := Option.map_eq_some_iff.1 hshape
      exact ⟨x, hx⟩
    | aggregate =>
      have hop : n.op = .call := by simpa [hform, NodeForm.kind] using href
      simp only [hform, Declarations.aggregateShape?, hop, Declarations.call?,
        ParserState.declarations_function?] at hshape
      split at hshape
      · cases hshape
      · next hx => exact ⟨_, hx⟩
    | _ => simp [hform, NodeForm.kind] at href
  obtain ⟨x, hx⟩ := hfound
  obtain ⟨decl, hdecl, -⟩ := Option.map_eq_some_iff.1 hx
  have hfields := List.find?_some hdecl
  simp only [Bool.and_eq_true, beq_iff_eq] at hfields
  exact ⟨decl, List.mem_of_find?_eq_some hdecl, hfields⟩

/-- In the tree of a shader definitions and calls refer to declared functions. -/
theorem Tree.declared_of_reference {source : Bytes} {t : Tree} (h : Tree.ofSource source = .ok t)
    {id : NodeId} (hid : id < t.size) (href : (t.node id).isReference = true) :
    ∃ s : ParserState, Steps { rest := tokenize source } s ∧ s.Sourced (tokenize source) ∧
      ∃ decl ∈ s.functions, decl.name = (t.node id).name ∧
        decl.signature = (t.node id).signature := by
  obtain ⟨s, hsteps, hsourced, hnodes⟩ := Tree.ofSource_steps h
  have hchecked : Checked s := Steps.checked hsteps (.start _) (.start _)
  have hnode : t.node id = s.node id := by
    unfold Tree.node ParserState.node
    rw [hnodes]
  have hhas : s.Has id := by
    unfold Tree.size at hid
    rwa [hnodes] at hid
  rw [hnode] at href ⊢
  exact ⟨s, hsteps, hsourced, hchecked.declared hhas href⟩

/-- In the tree of a shader the name of a function is found in its key. -/
theorem Tree.nameOf_key {source : Bytes} {t : Tree} (h : Tree.ofSource source = .ok t)
    {id : NodeId} (href : (t.node id).isReference = true) :
    nameOf (FunctionIdentity.signature.key (t.node id)) = (t.node id).name := by
  by_cases hid : id < t.size
  · obtain ⟨s, -, hsourced, decl, hdecl, hname, hsignature⟩ := Tree.declared_of_reference h hid href
    obtain ⟨⟨token, htoken, hlexeme⟩, htext⟩ := hsourced.2.1 decl hdecl
    have hidentifier := tokenize_isIdentifier htoken.mem hlexeme
    rw [← hname]
    unfold FunctionIdentity.key
    simp only
    rw [← hsignature, htext, if_neg, nameOf_signatureOf hidentifier]
    rintro hempty
    simp [signatureOf] at hempty
  · have hdefault : t.node id = default := by
      unfold Tree.node
      rw [Array.getD_eq_getD_getElem?, Array.getElem?_eq_none (Nat.le_of_not_lt hid)]
      rfl
    rw [hdefault]
    decide

end ShaderCost
