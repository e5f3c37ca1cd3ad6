import ShaderCost.Proofs.Grammar.DeclaredFunctions

/-! # Definitions

Every definition of a function is an item of its own (`Tree.definition_at`). A function that has a
body does not get another, so no two definitions have the same signature
(`Tree.definition_unique`). Definitions do not stand inside each other, and what hangs below the
node of a definition is what was read with it (`Tree.reaches_definition_iff`).

All that is neither a literal nor a symbol is reached from the root (`Tree.reachable_of_not_leaf`).
-/

namespace ShaderCost.Tree

variable {source : Bytes} {t : Tree} {f g id : NodeId}

/-- The node defines a function. -/
def IsDefinition (t : Tree) (f : NodeId) : Prop := f < t.size ∧ (t.node f).kind = .function

theorem IsDefinition.not_leaf (hf : t.IsDefinition f) : (t.node f).isLeaf = false := by
  simp [Node.isLeaf, hf.2]

theorem IsDefinition.isReference (hf : t.IsDefinition f) : (t.node f).isReference = true := by
  simp [Node.isReference, hf.2]

/-- A definition is an item. -/
theorem definition_at (h : Tree.ofSource source = .ok t) (hf : t.IsDefinition f) :
    ∃ k a header s₁ s₂ n, ItemAt (tokenize source) k a (some header) (some f) (s₂.push n).closed ∧
      f = s₂.nodes.size ∧ Definition a header s₁ s₂ n ∧ t.Includes (s₂.push n).closed := by
  have hleafy := Tree.ofTokens_leafy h
  obtain ⟨k, a, d, x, b, hat, hnew, hhas, hb, -, -⟩ := item_of_ne_sequence h hf.1 (by simp [hf.2])
  rcases hat.item.made hleafy hb hnew hhas hf.not_leaf with
    ⟨-, hrun⟩ | ⟨header, s₁, s₂, n, rfl, rfl, rfl, hdef, hwhere⟩
  · refine absurd hf.2 ?_
    rw [hb.node_eq hhas]
    exact hrun.not_function hnew hhas
  · have hf₂ : f = s₂.nodes.size := by
      exact hwhere.resolve_right fun hbody => hdef.not_function hb hbody.1 hbody.2 hf.2
    subst hf₂
    exact ⟨k, a, header, s₁, s₂, n, hat, rfl, hdef, hb⟩

/-- A function that has been defined is not defined by a later item. -/
theorem not_defined_again {tokens : List Token} {j k : Nat} {a a' b b' s₁ s₂ : ParserState}
    {d d' : Option FunctionDecl} {x x' : Option NodeId} {header : FunctionDecl} {n : Node}
    (hat : ItemAt tokens j a d x b) (hat' : ItemAt tokens k a' d' x' b')
    (hb : b.Defines header.name header.signature) (hdef : Definition a' header s₁ s₂ n) :
    ¬ j < k := by
  intro hlt
  have hdistinct : a'.Distinct :=
    (Shader.steps_stateAt (Nat.zero_le k) rfl hat'.before).distinct List.nodup_nil
  exact hdef.not_defines hdistinct ((Shader.steps_stateAt hlt hat.after hat'.before).defines hb)

/-- No two definitions have the same signature. -/
theorem definition_unique (h : Tree.ofSource source = .ok t) (hf : t.IsDefinition f)
    (hg : t.IsDefinition g) (hsame : (t.node f).signature = (t.node g).signature) : f = g := by
  have hname : (t.node f).name = (t.node g).name := by
    obtain ⟨hfname, ps, hps, hfsignature⟩ := reference_signature h hf.1 hf.isReference
    obtain ⟨hgname, ps', hps', hgsignature⟩ := reference_signature h hg.1 hg.isReference
    rw [hfsignature, hgsignature] at hsame
    exact (signatureOf_injective hfname hgname hps hps' hsame).1
  obtain ⟨j, a, header, s₁, s₂, n, hat, rfl, hdef, hb⟩ := definition_at h hf
  obtain ⟨k, a', header', s₁', s₂', n', hat', rfl, hdef', hb'⟩ := definition_at h hg
  rw [Definition.node_eq hb, Definition.node_eq hb'] at hname hsame
  rw [hdef.name, hdef'.name] at hname
  rw [hdef.signature, hdef'.signature] at hsame
  have hdefines := hdef.defines
  have hdefines' := hdef'.defines
  rw [hname, hsame] at hdefines
  rw [← hname, ← hsame] at hdefines'
  obtain hlt | rfl | hlt := Nat.lt_trichotomy j k
  · exact absurd hlt (not_defined_again hat hat' hdefines hdef')
  · have hsame : (s₂.push n).closed = (s₂'.push n').closed :=
      Option.some.inj (hat.after.symm.trans hat'.after)
    have hsize : (s₂.nodes.push n).size = (s₂'.nodes.push n').size :=
      congrArg (·.nodes.size) hsame
    rw [Array.size_push, Array.size_push] at hsize
    exact Nat.succ.inj hsize
  · exact absurd hlt (not_defined_again hat' hat hdefines' hdef)

theorem madeBy_definition {tokens : List Token} {k : Nat} {a s₁ s₂ : ParserState}
    {d : Option FunctionDecl} {x : Option NodeId} {header : FunctionDecl} {n : Node}
    (hat : ItemAt tokens k a d x (s₂.push n).closed) (hdef : Definition a header s₁ s₂ n)
    (hid : id = s₂.nodes.size ∨ ¬ s₁.Has id ∧ s₂.Has id) : Shader.MadeBy tokens k id := by
  obtain ⟨hle₁, hle₂⟩ := hdef.size_le
  refine ⟨a, _, hat.before, hat.after, ?_, ?_⟩
  · rcases hid with rfl | ⟨hnew, -⟩
    · exact Nat.not_lt.2 (Nat.le_trans hle₁ hle₂)
    · exact fun hold => hnew (Nat.lt_of_lt_of_le hold hle₁)
  · exact (s₂.has_push_iff n).2 (hid.symm.imp_left (·.2))

/-- What hangs below the node of a definition is what was read with it, but for leaves. -/
theorem reaches_definition_iff (h : Tree.ofSource source = .ok t) (hf : t.IsDefinition f)
    (hleaf : (t.node id).isLeaf = false) :
    t.Reaches f id ↔
      ∃ k, Shader.MadeBy (tokenize source) k f ∧ Shader.MadeBy (tokenize source) k id := by
  have hleafy := Tree.ofTokens_leafy h
  obtain ⟨k, a, header, s₁, s₂, n, hat, rfl, hdef, hb⟩ := definition_at h hf
  have hmade := madeBy_definition hat hdef (Or.inl rfl)
  constructor
  · intro hreaches
    exact ⟨k, hmade, madeBy_definition hat hdef (hdef.reaches_cases hleafy hb hreaches)⟩
  · rintro ⟨k', hmade', a', b, ha', hb', hnew, hhas⟩
    obtain rfl := hmade.unique hmade'
    obtain rfl : a = a' := Option.some.inj (hat.before.symm.trans ha')
    obtain rfl : (s₂.push n).closed = b := Option.some.inj (hat.after.symm.trans hb')
    rcases hdef.cases hleafy hb hnew hhas hleaf with rfl | ⟨hnew₁, hhas₂⟩
    · exact .refl
    · exact hdef.reaches hleafy hb hnew₁ hhas₂ hleaf

/-- Definitions do not stand inside each other, so there is at most one above a node. -/
theorem definition_above_unique (h : Tree.ofSource source = .ok t) (hf : t.IsDefinition f)
    (hg : t.IsDefinition g) (hleaf : (t.node id).isLeaf = false) (hfid : t.Reaches f id)
    (hgid : t.Reaches g id) : f = g := by
  obtain ⟨k, hmade, hid⟩ := (reaches_definition_iff h hf hleaf).1 hfid
  obtain ⟨k', hmade', hid'⟩ := (reaches_definition_iff h hg hleaf).1 hgid
  obtain rfl := hid.unique hid'
  have hbelow : t.Reaches f g := (reaches_definition_iff h hf hg.not_leaf).2 ⟨k, hmade, hmade'⟩
  obtain ⟨k, a, header, s₁, s₂, n, hat, rfl, hdef, hb⟩ := definition_at h hf
  rcases hdef.reaches_cases (Tree.ofTokens_leafy h) hb hbelow with rfl | ⟨hnew, hhas⟩
  · rfl
  · exact absurd hg.2 (hdef.not_function hb hnew hhas)

theorem reachable_of_not_leaf (h : Tree.ofSource source = .ok t) (hid : id < t.size)
    (hkind : (t.node id).kind ≠ .sequence) (hleaf : (t.node id).isLeaf = false) :
    t.Reachable id := by
  have hleafy := Tree.ofTokens_leafy h
  obtain ⟨k, a, d, x, b, hat, hnew, hhas, hb, -, hreachable⟩ := item_of_ne_sequence h hid hkind
  rcases hat.item.made hleafy hb hnew hhas hleaf with
    ⟨-, hrun⟩ | ⟨header, s₁, s₂, n, rfl, rfl, rfl, hdef, hwhere⟩
  · obtain ⟨top, htop, hreaches⟩ := hrun.hangs hleafy hb hnew hhas hleaf
    obtain ⟨root, hroot, htop⟩ := hreachable top (Option.mem_toList.1 htop)
    exact ⟨root, hroot, htop.trans hreaches⟩
  · obtain ⟨root, hroot, htop⟩ := hreachable _ rfl
    refine ⟨root, hroot, htop.trans ?_⟩
    rcases hwhere with rfl | ⟨hnew₁, hhas₂⟩
    · exact .refl
    · exact hdef.reaches hleafy hb hnew₁ hhas₂ hleaf

theorem IsDefinition.reachable (hf : t.IsDefinition f) (h : Tree.ofSource source = .ok t) :
    t.Reachable f := reachable_of_not_leaf h hf.1 (by simp [hf.2]) hf.not_leaf

end ShaderCost.Tree
