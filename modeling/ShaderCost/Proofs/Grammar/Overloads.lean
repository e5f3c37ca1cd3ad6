import ShaderCost.Proofs.Grammar.DeclaredFunctions

/-! # Overloads

A call means the function whose parameters are exactly its arguments, or else the first that accepts
them; the candidates are the functions of its name whose headers stand before it (`Resolves`). While
an expression is read the table of declared functions does not change, so what the parser found in
its table when it made the node of a call is what the headers say (`Runs.call_resolves`).
-/

namespace ShaderCost

open ShaderCost.Expression

/-! ## Resolution -/

/-- There are as many arguments as parameters, and each can be assigned to its parameter. -/
def FunctionDecl.Takes (decl : FunctionDecl) (args : List Shape) : Prop :=
  List.Forall₂ (fun param arg => param.accepts arg = true) decl.params args

/-- Among the overloads, in the order of declaration, the one with the given signature is meant. -/
structure Resolves (overloads : List FunctionDecl) (args : List Shape) (signature : String) :
    Prop where
  declared : ∃ decl ∈ overloads, decl.signature = signature ∧ decl.Takes args
  exact : ∀ decl ∈ overloads, decl.params = args → decl.signature = signature
  earliest : (∀ decl ∈ overloads, decl.params ≠ args) →
    ∃ earlier decl later, overloads = earlier ++ decl :: later ∧ decl.signature = signature ∧
      decl.Takes args ∧ ∀ other ∈ earlier, ¬ other.Takes args

theorem takes_iff {decl : FunctionDecl} {args : List Shape} :
    decl.Takes args ↔ acceptsAll decl.params args = true := by
  unfold FunctionDecl.Takes acceptsAll
  rw [List.forall₂_iff_zip, Bool.and_eq_true, beq_iff_eq, List.all_eq_true]
  simp only [Prod.forall]

/-- The parser's choice is the one that is meant. -/
theorem Resolves.of_resolveOverload? {overloads : List FunctionDecl} {args : List Shape}
    {decl : FunctionDecl} (hsame : ∀ d ∈ overloads, d.signature = signatureOf decl.name d.params)
    (h : resolveOverload? overloads args = some decl) :
    Resolves overloads args decl.signature := by
  obtain ⟨hmem, haccepts⟩ := resolveOverload?_eq_some h
  refine ⟨⟨decl, hmem, rfl, takes_iff.2 haccepts⟩, fun d hd hparams => ?_, fun hnone => ?_⟩
  · unfold resolveOverload? at h
    split at h
    · next found hfound =>
      cases h
      have hexact : decl.params = args := by simpa using List.find?_some hfound
      rw [hsame d hd, hsame decl hmem, hparams, hexact]
    · next hnone =>
      exact absurd (by simpa using hparams) (List.find?_eq_none.1 hnone d hd)
  · have hexact : overloads.find? (·.params == args) = none := by
      rw [List.find?_eq_none]
      exact fun d hd => by simpa using hnone d hd
    unfold resolveOverload? at h
    rw [hexact] at h
    obtain ⟨_, earlier, later, hsplit, hearlier⟩ := List.find?_eq_some_iff_append.1 h
    refine ⟨earlier, decl, later, hsplit, rfl, takes_iff.2 haccepts, fun other hother htakes => ?_⟩
    have hnot := hearlier other hother
    rw [takes_iff.1 htakes] at hnot
    cases hnot

/-- Only what a look finds matters. -/
theorem resolveOverload?_congr {l l' : List FunctionDecl} (h : ∀ p, l.find? p = l'.find? p)
    (args : List Shape) : resolveOverload? l args = resolveOverload? l' args := by
  unfold resolveOverload?
  rw [h, h]

theorem resolveOverload?_map_bare (l : List FunctionDecl) (args : List Shape) :
    resolveOverload? (l.map FunctionDecl.bare) args =
      (resolveOverload? l args).map FunctionDecl.bare := by
  have hexact : (l.map FunctionDecl.bare).find? (·.params == args) =
      (l.find? (·.params == args)).map FunctionDecl.bare := List.find?_map
  have hall : (l.map FunctionDecl.bare).find? (fun d => acceptsAll d.params args) =
      (l.find? fun d => acceptsAll d.params args).map FunctionDecl.bare := List.find?_map
  unfold resolveOverload?
  rw [hexact, hall]
  cases l.find? (·.params == args) with
  | none => rfl
  | some d => rfl

/-- The parser chooses among the entries of its table that have the name. -/
theorem resolveOverload?_headings {s : ParserState} {name : String} {args : List Shape}
    {decl : FunctionDecl} (h : resolveOverload? (s.overloads name) args = some decl) :
    resolveOverload? (s.headings.filter (·.name == name)) args = some decl.bare := by
  have hlist : s.headings.filter (·.name == name) = (s.overloads name).map FunctionDecl.bare :=
    List.filter_map
  rw [hlist, resolveOverload?_map_bare, h, Option.map_some]

/-! ## The node of a call -/

theorem Makes.resolved {s : ParserState} {n : Node} (h : Makes s n) (hcall : n.isCall = true) :
    ∃ decl, resolveOverload? (s.overloads n.name) (n.children.map s.shape) = some decl ∧
      decl.name = n.name ∧ decl.signature = n.signature := by
  cases h with
  | @call name decl args line _ _ h =>
    obtain ⟨hmem, -⟩ := resolveOverload?_eq_some h
    have hname : decl.name = name := by simpa using (List.mem_filter.1 hmem).2
    refine ⟨decl, ?_, rfl, rfl⟩
    simp only
    rw [hname]
    exact h
  | _ => simp [Node.isCall, Node.kind, NodeForm.kind] at hcall

/-- A call that is read during a run below the top level means what the table said before. -/
theorem Runs.call_resolved {a b : ParserState} {held : List NodeId} {id : NodeId}
    (h : Runs a b held) (hid : ¬ a.Has id) (hid' : b.Has id)
    (hcall : (b.node id).isCall = true) :
    ∃ decl, resolveOverload? (a.headings.filter (·.name == (b.node id).name))
        ((b.node id).children.map b.shape) = some decl ∧
      decl.name = (b.node id).name ∧ decl.signature = (b.node id).signature := by
  obtain ⟨c, hac, hmade, hchildren, hcb⟩ := h.steps.made hid hid'
  obtain ⟨decl, hdecl, hname, hsignature⟩ := hmade.resolved hcall
  have hshapes : (b.node id).children.map c.shape = (b.node id).children.map b.shape :=
    List.map_congr_left fun child hchild => (hcb.grows.shape_eq (hchildren child hchild)).symm
  have hfound := resolveOverload?_headings hdecl
  rw [h.headings_during hac hcb, hshapes] at hfound
  exact ⟨decl.bare, hfound, hname, hsignature⟩

/-- The shapes of the arguments of a call. -/
def Tree.argShapes (t : Tree) (id : NodeId) : List Shape :=
  (t.children id).map fun c => (t.node c).shape

/-- What is found in the table is what the headers mean. -/
theorem Shader.resolves_headers {tokens : List Token} {k : Nat} {s : ParserState} {name : String}
    {args : List Shape} {decl : FunctionDecl} (hs : stateAt tokens k = some s)
    (hnamed : s.StructsNamed) (hname : decl.name = name)
    (h : resolveOverload? (s.headings.filter (·.name == name)) args = some decl) :
    Resolves ((headers tokens k).filter (·.name == name)) args decl.signature := by
  obtain ⟨hheaders, hfind⟩ := headings_find? hs hnamed
  refine .of_resolveOverload? (fun d hd => ?_) ?_
  · obtain ⟨hd, hsame⟩ := List.mem_filter.1 hd
    rw [hname, ← eq_of_beq hsame]
    exact congrArg FunctionDecl.signature (hheaders d hd).heading
  · rw [← h]
    refine resolveOverload?_congr (fun p => ?_) args
    rw [List.find?_filter, List.find?_filter, hfind]

theorem Runs.call_resolves {tokens : List Token} {k : Nat} {t : Tree} {s a b : ParserState}
    {held : List NodeId} {id : NodeId} (h : Runs a b held) (ht : t.IsTree) (hb : t.Includes b)
    (hid : ¬ a.Has id) (hid' : b.Has id) (hcall : (t.node id).isCall = true)
    (hs : Shader.stateAt tokens k = some s) (hnamed : s.StructsNamed)
    (htable : s.headings = a.headings) :
    Resolves ((Shader.headers tokens k).filter (·.name == (t.node id).name)) (t.argShapes id)
      (t.node id).signature := by
  have hargs : t.argShapes id = (b.node id).children.map b.shape := by
    unfold Tree.argShapes Tree.children
    rw [← hb.node_eq hid']
    refine List.map_congr_left fun child hchild => ?_
    exact congrArg Node.shape (hb.node_eq (Nat.lt_trans (ht.down id child hchild) hid'))
  rw [hargs]
  rw [hb.node_eq hid'] at hcall ⊢
  obtain ⟨decl, hfound, hname, hsignature⟩ := h.call_resolved hid hid' hcall
  rw [← htable] at hfound
  rw [← hsignature]
  exact Shader.resolves_headers hs hnamed hname hfound

/-- A call means one of the functions of its name whose headers stand before it: those of earlier
items and, where it stands in a body, the header of that body. -/
theorem calls_resolve {source : Bytes} {t : Tree} (h : Tree.ofSource source = .ok t) {id : NodeId}
    (hid : id < t.size) (hcall : (t.node id).isCall = true) :
    ∃ k, Shader.MadeBy (tokenize source) k id ∧
      (∀ header, Shader.headerAt (tokenize source) k = some header →
        ∃ f, (t.node f).kind = .function ∧ (t.node f).name = header.name ∧
          (t.node f).signature = header.signature ∧ t.Reaches f id) ∧
      Resolves ((Shader.headers (tokenize source) (k + 1)).filter (·.name == (t.node id).name))
        (t.argShapes id) (t.node id).signature := by
  have hleafy := Tree.ofTokens_leafy h
  have hkind : (t.node id).kind = .aggregate := by
    simpa using (Bool.and_eq_true_iff.1 hcall).1
  have hleaf : (t.node id).isLeaf = false := by simp [Node.isLeaf, hkind]
  obtain ⟨k, a, d, x, b, hat, hnew, hhas, hb, hnamed, -⟩ :=
    Tree.item_of_ne_sequence h hid (by simp [hkind])
  refine ⟨k, ⟨a, b, hat.before, hat.after, hnew, hhas⟩, ?_⟩
  rw [hat.header_eq]
  rcases hat.item.made hleafy hb hnew hhas hleaf with
    ⟨rfl, hrun⟩ | ⟨header, s₁, s₂, n, rfl, rfl, rfl, hdef, hwhere⟩
  · refine ⟨fun header hheader => ?_, ?_⟩
    · cases hheader
    · exact hrun.call_resolves hleafy.toIsTree hb hnew hhas hcall hat.after hnamed
        hrun.headings_eq
  · have hnode := Definition.node_eq hb
    obtain ⟨hnew₁, hhas₂⟩ : ¬ s₁.Has id ∧ s₂.Has id := by
      refine hwhere.resolve_left ?_
      rintro rfl
      rw [hnode, hdef.kind] at hkind
      cases hkind
    refine ⟨fun header' hheader => ?_, ?_⟩
    · cases hheader
      refine ⟨s₂.nodes.size, ?_, ?_, ?_, hdef.reaches hleafy hb hnew₁ hhas₂ hleaf⟩
      · rw [hnode, hdef.kind]
      · rw [hnode, hdef.name]
      · rw [hnode, hdef.signature]
    · obtain ⟨list, body, hbody, -⟩ := hdef.body
      exact hbody.call_resolves hleafy.toIsTree (hdef.includes_body hb).1 hnew₁ hhas₂ hcall
        hat.after hnamed hbody.headings_eq

/-- A call of a function that is only declared by then, one of the function in whose body it stands,
and one that no overload fits exactly. -/
def overloadedCalls : Bytes :=
  Bytes.ofString "float f(int n);\nfloat f(float x) \x7breturn f(1) + f(x);\x7d\n" ++
    Bytes.ofString "float f(int n) \x7breturn 1.0;\x7d\nvoid g(uint n) \x7bf(n);\x7d"

theorem calls_resolve_overloadedCalls : ∃ t, Tree.ofSource overloadedCalls = .ok t ∧
    ∃ id < t.size, (t.node id).isCall = true ∧ (t.node id).signature = "f(int)" ∧
      ∃ k, Shader.MadeBy (tokenize overloadedCalls) k id ∧
        (∀ header, Shader.headerAt (tokenize overloadedCalls) k = some header →
          ∃ f, (t.node f).kind = .function ∧ (t.node f).name = header.name ∧
            (t.node f).signature = header.signature ∧ t.Reaches f id) ∧
        Resolves ((Shader.headers (tokenize overloadedCalls) (k + 1)).filter
          (·.name == (t.node id).name)) (t.argShapes id) (t.node id).signature := by
  have hcalls : (Tree.ofSource overloadedCalls).toOption.any (fun t => decide (∃ id < t.size,
      (t.node id).isCall = true ∧ (t.node id).signature = "f(int)")) = true := by decide +kernel
  obtain ⟨t, h, hcalls⟩ := exists_ok_of_any hcalls
  obtain ⟨id, hid, hcall, hsignature⟩ := of_decide_eq_true hcalls
  exact ⟨t, h, id, hid, hcall, hsignature, calls_resolve h hid hcall⟩

end ShaderCost
