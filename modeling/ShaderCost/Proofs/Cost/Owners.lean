import ShaderCost.Proofs.Cost.Identity
import ShaderCost.Proofs.Grammar.Definitions
import ShaderCost.Proofs.Tree.Paths

/-! # Whose operations

With functions told apart by their signatures, every key of the call graph is defined by at most one
definition, for no two have the same signature. An operation belongs to the definition in which it
stands: the key it inherits on its path comes from the definition above it, and there is no other
one (`CallGraph.owner_eq_signature_iff`).
-/

namespace ShaderCost

/-! ## Inherited keys -/

theorem Node.not_leaf_of_isOperation {n : Node} (h : n.isOperation = true) : n.isLeaf = false := by
  unfold isOperation at h
  unfold isLeaf
  cases hkind : n.kind with
  | constant =>
    rw [hkind] at h
    cases h
  | symbol =>
    rw [hkind] at h
    cases h
  | _ => rfl

namespace CallGraph

variable {t : Tree} {identity : FunctionIdentity}

/-- A key is inherited from the only definition on a path. -/
theorem foldl_keyBelow {f : NodeId} (hf : (t.node f).kind = .function) (above : List NodeId)
    (key : String) (honly : ∀ p ∈ above, (t.node p).kind = .function → p = f) :
    above.foldl (keyBelow t identity) key = if f ∈ above then identity.key (t.node f) else key := by
  induction above generalizing key with
  | nil => simp
  | cons p above ih =>
    rw [List.foldl_cons, ih _ fun q hq => honly q (List.mem_cons_of_mem p hq)]
    by_cases hp : p = f
    · subst hp
      simp [keyBelow, hf]
    · have hother : (t.node p).kind ≠ .function := fun hkind =>
        hp (honly p List.mem_cons_self hkind)
      have hkey : keyBelow t identity key p = key := by simp [keyBelow, hother]
      simp [hkey, Ne.symm hp]

theorem foldl_keyBelow_outside (above : List NodeId) (key : String)
    (hnone : ∀ p ∈ above, (t.node p).kind ≠ .function) :
    above.foldl (keyBelow t identity) key = key := by
  induction above with
  | nil => rfl
  | cons p above ih =>
    have hkey : keyBelow t identity key p = key := by
      simp [keyBelow, hnone p List.mem_cons_self]
    rw [List.foldl_cons, hkey]
    exact ih fun q hq => hnone q (List.mem_cons_of_mem p hq)

/-- The owner of an operation is the key it inherits. -/
theorem owner_eq_foldl (ht : t.IsTree) (identity : FunctionIdentity) {id : NodeId}
    (hid : t.Reachable id) (hoperation : (t.node id).isOperation = true) :
    ∃ above, t.PathTo above id ∧
      (ofTree t identity).owner id = above.foldl (keyBelow t identity) noFunction := by
  have hmem : id ∈ (ofTree t identity).owners :=
    mem_owners_ofTree.2 ⟨ht.mem_postOrder.2 hid, hoperation⟩
  have hentry : (id, (ofTree t identity).owner id) ∈ (ofTree t identity).owners.toList := by
    rw [Std.TreeMap.mem_toList_iff_getElem?_eq_some]
    unfold owner
    rw [Std.TreeMap.getD_eq_getD_getElem?]
    have hsome := Std.TreeMap.isSome_getElem?_iff_mem.2 hmem
    cases hget : (ofTree t identity).owners[id]? with
    | none =>
      rw [hget] at hsome
      cases hsome
    | some key => rfl
  exact Tree.pathTo_of_mem_walk (mem_visits_of_mem_owners hentry)

/-! ## Definitions -/

/-- A visit to a definition of the key. -/
def IsDefinitionOf (t : Tree) (identity : FunctionIdentity) (k : String)
    (visit : NodeId × String) : Prop :=
  (t.node visit.1).kind = .function ∧ identity.key (t.node visit.1) = k

theorem definition_record (t : Tree) (identity : FunctionIdentity) (g : CallGraph)
    (visit : NodeId × String) (k : String) :
    (IsDefinitionOf t identity k visit ∧
      ((record t identity g visit).info k).definition = some visit.1) ∨
    (¬ IsDefinitionOf t identity k visit ∧
      ((record t identity g visit).info k).definition = (g.info k).definition) := by
  obtain ⟨g', hg', hfunctions, -⟩ := record_cases t identity g visit
  have hinfo : (record t identity g visit).info k = g'.info k := by
    unfold info
    rw [hfunctions]
  rw [hinfo]
  unfold IsDefinitionOf
  rcases hg' with ⟨hfunction, rfl⟩ | ⟨hcall, rfl⟩ | ⟨hother, rfl⟩
  · rw [(info_define _ _ _ _ k).2]
    by_cases hkey : identity.key (t.node visit.1) = k
    · exact Or.inl ⟨⟨hfunction, hkey⟩, if_pos hkey⟩
    · exact Or.inr ⟨fun h => hkey h.2, if_neg hkey⟩
  · refine Or.inr ⟨fun h => ?_, (info_addCall _ _ _ _ _ k).2⟩
    simp [Node.isCall, h.1] at hcall
  · refine Or.inr ⟨fun h => ?_, rfl⟩
    simp [Node.isReference, h.1] at hother

/-- The definition of a key is one that is visited. -/
theorem exists_visit_of_definition {k : String} {f : NodeId}
    (h : ((ofTree t identity).info k).definition = some f) :
    ∃ v ∈ visits t identity, IsDefinitionOf t identity k v ∧ v.1 = f := by
  revert h
  refine List.foldlRecOn (motive := fun g : CallGraph => (g.info k).definition = some f →
    ∃ v ∈ visits t identity, IsDefinitionOf t identity k v ∧ v.1 = f) _ _ ?_ ?_
  · intro h
    simp [info] at h
  · intro g ih v hv h
    rcases definition_record t identity g v k with ⟨hdef, heq⟩ | ⟨-, heq⟩
    · rw [heq] at h
      exact ⟨v, hv, hdef, Option.some.inj h⟩
    · exact ih (heq ▸ h)

/-- If all visits to definitions of a key are to one node, that is its definition. -/
theorem definition_of_visit {k : String} {v : NodeId × String} (hv : v ∈ visits t identity)
    (hdef : IsDefinitionOf t identity k v)
    (honly : ∀ u ∈ visits t identity, IsDefinitionOf t identity k u → u.1 = v.1) :
    ((ofTree t identity).info k).definition = some v.1 := by
  have hfold : ∀ (vs : List (NodeId × String)) (g : CallGraph),
      (∀ u ∈ vs, IsDefinitionOf t identity k u → u.1 = v.1) →
      ((g.info k).definition = some v.1 ∨ ∃ u ∈ vs, IsDefinitionOf t identity k u) →
      ((vs.foldl (record t identity) g).info k).definition = some v.1 := by
    intro vs
    induction vs with
    | nil =>
      intro g _ hg
      simpa using hg
    | cons u vs ih =>
      intro g honly hg
      rw [List.foldl_cons]
      refine ih _ (fun w hw => honly w (List.mem_cons_of_mem u hw)) ?_
      rcases definition_record t identity g u k with ⟨hdef, heq⟩ | ⟨hnot, heq⟩
      · rw [heq, honly u List.mem_cons_self hdef]
        exact Or.inl rfl
      · rw [heq]
        refine hg.imp_right ?_
        rintro ⟨w, hw, hdef⟩
        rcases List.mem_cons.1 hw with rfl | hw
        · exact absurd hdef hnot
        · exact ⟨w, hw, hdef⟩
  exact hfold _ _ honly (Or.inr ⟨v, hv, hdef⟩)

/-! ## Functions told apart by their signatures -/

section

variable {source : Bytes} {f id : NodeId}

theorem key_eq_signature (h : Tree.ofSource source = .ok t) (hf : t.IsDefinition f) :
    FunctionIdentity.signature.key (t.node f) = (t.node f).signature := by
  obtain ⟨-, ps, -, hsignature⟩ := Tree.reference_signature h hf.1 hf.isReference
  unfold FunctionIdentity.key
  simp only
  rw [if_neg]
  rw [hsignature]
  simp [signatureOf]

theorem isDefinition_of_visit (ht : t.IsTree) {v : NodeId × String} (hv : v ∈ visits t identity)
    (hkind : (t.node v.1).kind = .function) : t.IsDefinition v.1 := by
  obtain ⟨above, ⟨root, hroot, hpath⟩, -⟩ := Tree.pathTo_of_mem_walk (s := v.2) hv
  obtain ⟨last, hlast, hsize⟩ := ht.root_last
  obtain rfl : root = last := Option.some.inj (hroot.symm.trans hlast)
  refine ⟨?_, hkind⟩
  rw [← hsize]
  exact Nat.lt_succ_of_le (ht.le_of_reaches hpath.reaches)

/-- The definition of a key is the one with that signature. -/
theorem definition_eq_some_iff (h : Tree.ofSource source = .ok t) (key : String) :
    ((ofTree t .signature).info key).definition = some f ↔
      t.IsDefinition f ∧ (t.node f).signature = key := by
  have htree := Tree.ofTokens_isTree h
  constructor
  · intro hdef
    obtain ⟨v, hv, ⟨hkind, hkey⟩, rfl⟩ := exists_visit_of_definition hdef
    have hf := isDefinition_of_visit htree hv hkind
    exact ⟨hf, (key_eq_signature h hf).symm.trans hkey⟩
  · rintro ⟨hf, rfl⟩
    obtain ⟨above, hpath⟩ := Tree.reachable_iff_pathTo.1 (hf.reachable h)
    have hvisit : (f, above.foldl (keyBelow t .signature) noFunction) ∈ visits t .signature :=
      (htree.unshared.mem_walk hpath hf.1).2 rfl
    refine definition_of_visit hvisit ⟨hf.2, key_eq_signature h hf⟩ fun u hu hdef => ?_
    have hg := isDefinition_of_visit htree hu hdef.1
    exact Tree.definition_unique h hg hf ((key_eq_signature h hg).symm.trans hdef.2)

/-- An operation inside a definition belongs to it. -/
theorem owner_eq_signature (h : Tree.ofSource source = .ok t) (hf : t.IsDefinition f)
    (hid : (t.node id).isOperation = true) (hreaches : t.Reaches f id) :
    (ofTree t .signature).owner id = (t.node f).signature := by
  have htree := Tree.ofTokens_isTree h
  obtain ⟨root, hroot, hdown⟩ := hf.reachable h
  have hleaf := Node.not_leaf_of_isOperation hid
  obtain ⟨above, hpath, howner⟩ := owner_eq_foldl htree .signature
    ⟨root, hroot, hdown.trans hreaches⟩ hid
  have hne : f ≠ id := by
    rintro rfl
    simp [Node.isOperation, hf.2, NodeKind.isOperation] at hid
  have hmem : f ∈ above := htree.unshared.mem_above ⟨root, hroot, hdown⟩ hreaches hne hpath
  obtain ⟨top, -, hdescent⟩ := hpath
  have honly : ∀ p ∈ above, (t.node p).kind = .function → p = f := fun p hp hkind =>
    Tree.definition_above_unique h ⟨hdescent.lt_size p hp, hkind⟩ hf hleaf
      (hdescent.reaches_of_mem hp) hreaches
  rw [howner, foldl_keyBelow hf.2 above noFunction honly, if_pos hmem, key_eq_signature h hf]

/-- An operation outside all definitions belongs to none. -/
theorem owner_eq_noFunction (h : Tree.ofSource source = .ok t) (hid : id < t.size)
    (hoperation : (t.node id).isOperation = true)
    (houtside : ∀ f, t.IsDefinition f → ¬ t.Reaches f id) :
    (ofTree t .signature).owner id = noFunction := by
  have hreachable : t.Reachable id := by
    refine Tree.reachable_of_not_leaf h hid (fun hkind => ?_)
      (Node.not_leaf_of_isOperation hoperation)
    simp [Node.isOperation, hkind, NodeKind.isOperation] at hoperation
  obtain ⟨above, ⟨root, -, hdescent⟩, howner⟩ := owner_eq_foldl
    (Tree.ofTokens_isTree h) .signature hreachable hoperation
  rw [howner]
  refine foldl_keyBelow_outside above noFunction fun p hp hkind => ?_
  exact houtside p ⟨hdescent.lt_size p hp, hkind⟩ (hdescent.reaches_of_mem hp)

theorem signature_ne_noFunction (h : Tree.ofSource source = .ok t) (hf : t.IsDefinition f) :
    (t.node f).signature ≠ noFunction := by
  intro hsame
  have hname := Tree.nameOf_key h hf.isReference
  rw [key_eq_signature h hf, hsame, nameOf_noFunction] at hname
  have hidentifier := (Tree.reference_signature h hf.1 hf.isReference).1
  rw [← hname] at hidentifier
  exact hidentifier.paren_notMem (by decide)

theorem owner_eq_signature_iff (h : Tree.ofSource source = .ok t) (hid : id < t.size)
    (hoperation : (t.node id).isOperation = true) (hf : t.IsDefinition f) :
    (ofTree t .signature).owner id = (t.node f).signature ↔ t.Reaches f id := by
  refine ⟨fun howner => ?_, owner_eq_signature h hf hoperation⟩
  by_cases hany : ∃ g, t.IsDefinition g ∧ t.Reaches g id
  · obtain ⟨g, hg, hreaches⟩ := hany
    rw [owner_eq_signature h hg hoperation hreaches] at howner
    rwa [← Tree.definition_unique h hg hf howner]
  · have houtside : ∀ g, t.IsDefinition g → ¬ t.Reaches g id := fun g hg hreaches =>
      hany ⟨g, hg, hreaches⟩
    rw [owner_eq_noFunction h hid hoperation houtside] at howner
    exact absurd howner.symm (signature_ne_noFunction h hf)

end

end CallGraph

/-- In the tree of the given tokens functions can be told apart by their signatures: a key of the
call graph has at most one definition, and an operation belongs to the definition with which it was
read. -/
structure Tree.ToldApart (t : Tree) (tokens : List Token) : Prop where
  unique : ∀ f g, t.IsDefinition f → t.IsDefinition g →
    (t.node f).signature = (t.node g).signature → f = g
  signature : ∀ f, t.IsDefinition f → IsIdentifier (t.node f).name ∧ ∃ params : List Shape,
    (∀ p ∈ params, p.IsWritten) ∧ (t.node f).signature = signatureOf (t.node f).name params
  definition : ∀ key f, ((CallGraph.ofTree t .signature).info key).definition = some f ↔
    t.IsDefinition f ∧ (t.node f).signature = key
  inside : ∀ id < t.size, (t.node id).isOperation = true → ∀ f, t.IsDefinition f →
    ((CallGraph.ofTree t .signature).owner id = (t.node f).signature ↔ t.Reaches f id) ∧
    (t.Reaches f id ↔ ∃ k, Shader.MadeBy tokens k f ∧ Shader.MadeBy tokens k id)
  outside : ∀ id < t.size, (t.node id).isOperation = true →
    (∀ f, t.IsDefinition f → ¬ t.Reaches f id) →
    (CallGraph.ofTree t .signature).owner id = noFunction

/-- Functions are told apart by their signatures in every shader, for a signature determines the
name and the parameters. -/
theorem signatures_tell_apart {source : Bytes} {t : Tree} (h : Tree.ofSource source = .ok t) :
    t.ToldApart (tokenize source) ∧
    ∀ {name name' : String} {params params' : List Shape}, IsIdentifier name → IsIdentifier name' →
      (∀ p ∈ params, p.IsWritten) → (∀ p ∈ params', p.IsWritten) →
      signatureOf name params = signatureOf name' params' → name = name' ∧ params = params' := by
  refine ⟨⟨fun f g hf hg => Tree.definition_unique h hf hg,
    fun f hf => Tree.reference_signature h hf.1 hf.isReference,
    fun key f => CallGraph.definition_eq_some_iff h key,
    fun id hid hoperation f hf => ⟨?_, ?_⟩,
    fun id hid hoperation => ?_⟩, signatureOf_injective⟩
  · exact CallGraph.owner_eq_signature_iff h hid hoperation hf
  · exact Tree.reaches_definition_iff h hf (Node.not_leaf_of_isOperation hoperation)
  · exact CallGraph.owner_eq_noFunction h hid hoperation

/-- Overloads that differ in the length of an array and in a structure, with an operation outside
them. -/
def overloadedSums : Bytes :=
  Bytes.ofString "struct vec \x7bfloat x;\x7d;\nfloat g = 1.0 + 2.0;\n" ++
    Bytes.ofString "float f(float a[2]) \x7breturn a[0] + a[1];\x7d\n" ++
    Bytes.ofString "float f(float a[12]) \x7breturn a[0];\x7d\n" ++
    Bytes.ofString "float f(vec v) \x7breturn v.x + 1.0;\x7d"

theorem signatures_tell_apart_overloadedSums : ∃ t, Tree.ofSource overloadedSums = .ok t ∧
    (∃ f g, t.IsDefinition f ∧ t.IsDefinition g ∧ f ≠ g ∧ (t.node f).name = (t.node g).name) ∧
    t.ToldApart (tokenize overloadedSums) := by
  have hdefs : (Tree.ofSource overloadedSums).toOption.any (fun t => decide (∃ f < t.size,
      ∃ g < t.size, (t.node f).kind = .function ∧ (t.node g).kind = .function ∧ f ≠ g ∧
        (t.node f).name = (t.node g).name)) = true := by decide +kernel
  obtain ⟨t, h, hdefs⟩ := exists_ok_of_any hdefs
  obtain ⟨f, hf, g, hg, hkind, hkind', hne, hname⟩ := of_decide_eq_true hdefs
  exact ⟨t, h, ⟨f, g, ⟨hf, hkind⟩, ⟨hg, hkind'⟩, hne, hname⟩, (signatures_tell_apart h).1⟩

end ShaderCost
