import ShaderCost.Proofs.Cost.Summation
import ShaderCost.Proofs.Grammar.ShaderLayout
import ShaderCost.Proofs.Token.Kinds

/-! # Costs and layout

The stages of the analysis copy the lines of nodes into their results and sum up by line at the end,
but decide nothing by them. So a tree and the tree without places have the same widths, multipliers,
owners and costs, and call graphs that differ only in lines (`CallGraph.Unplaced`). The sum over all
lines is a sum over the charged operations, however they are grouped.
-/

namespace ShaderCost

/-! ## Walks -/

namespace Tree

variable (t : Tree)

theorem node_unplaced (id : NodeId) : t.unplaced.node id = (t.node id).unplaced :=
  (getD_unplaced t.nodes id).symm

theorem children_unplaced (id : NodeId) : t.unplaced.children id = t.children id := by
  unfold children
  rw [node_unplaced]
  rfl

theorem size_unplaced : t.unplaced.size = t.size := Array.size_map

theorem sameLinks_unplaced : t.SameLinks t.unplaced :=
  ⟨rfl, t.size_unplaced, t.children_unplaced⟩

theorem postOrder_unplaced : t.unplaced.postOrder = t.postOrder := t.sameLinks_unplaced.postOrder

theorem walk_unplaced {σ : Type} (down : σ → NodeId → σ) (start : σ) :
    t.unplaced.walk down start = t.walk down start :=
  t.sameLinks_unplaced.walk down start

end Tree

/-! ## Widths and loops -/

theorem Widths.ofTree_unplaced (t : Tree) : Widths.ofTree t.unplaced = Widths.ofTree t := by
  have hselected : ∀ n : Node, selected? t.unplaced n.unplaced = selected? t n := by
    intro n
    unfold selected?
    simp only [t.node_unplaced]
    rfl
  have hbinary : ∀ (w : Widths) (n : Node), ofBinary t.unplaced w n.unplaced = ofBinary t w n := by
    intro w n
    unfold ofBinary
    simp only [hselected, t.node_unplaced]
    rfl
  have hrecord : record t.unplaced = record t := by
    funext w id
    unfold record ofNode?
    simp only [t.node_unplaced, hbinary]
    rfl
  unfold ofTree
  rw [t.postOrder_unplaced, hrecord]

theorem loopBound_unplaced (t : Tree) (parts : LoopParts) :
    loopBound t.unplaced parts = loopBound t parts := by
  unfold loopBound
  simp only [t.node_unplaced]
  rfl

section

variable {α : Type} [Tally α]

theorem Nesting.below_unplaced (t : Tree) (policy : NestingPolicy) :
    (below t.unplaced policy : Nesting α → NodeId → Nesting α) = below t policy := by
  funext s id
  unfold below
  simp only [t.node_unplaced, loopBound_unplaced]
  rfl

namespace LoopCosts

variable {loops loops' : LoopCosts α}

theorem multiplier_congr (h : loops'.multipliers = loops.multipliers) :
    loops'.multiplier = loops.multiplier := by
  funext id
  rw [multiplier, h, multiplier]

theorem record_unplaced (t : Tree) (policy : NestingPolicy) (visit : NodeId × Nesting α)
    (h : loops'.multipliers = loops.multipliers) :
    (record t.unplaced policy loops' visit).multipliers =
      (record t policy loops visit).multipliers := by
  obtain ⟨id, s⟩ := visit
  have hform : (t.node id).unplaced.form = (t.node id).form := rfl
  have hop : (t.node id).unplaced.isOperation = (t.node id).isOperation := rfl
  unfold record
  simp only [t.node_unplaced, hform, hop]
  split
  · exact h
  · split
    · exact congrArg (fun table => table.insert id s.multiplier) h
    · exact h

theorem ofTree_unplaced (t : Tree) (policy : NestingPolicy) :
    (ofTree t.unplaced policy : LoopCosts α).multipliers =
      (ofTree t policy : LoopCosts α).multipliers := by
  unfold ofTree
  rw [t.walk_unplaced, Nesting.below_unplaced]
  exact List.foldl_rel (r := fun (loops' loops : LoopCosts α) =>
    loops'.multipliers = loops.multipliers) rfl
    fun visit _ _ _ h => record_unplaced t policy visit h

end LoopCosts

/-! ## The call graph -/

/-- A call site without its place. -/
def CallSite.unplaced (site : CallSite) : CallSite := { site with line := 0 }

/-- A function without the places of its definition and of its call sites. -/
def FunctionInfo.unplaced (info : FunctionInfo) : FunctionInfo :=
  { info with line := 0, callSites := info.callSites.map CallSite.unplaced }

/-- `g'` is `g` without places. -/
structure CallGraph.Unplaced (g g' : CallGraph) : Prop where
  functions : Image FunctionInfo.unplaced g.functions g'.functions
  callers : g'.callers = g.callers
  owners : g'.owners = g.owners

namespace CallGraph.Unplaced

variable {g g' : CallGraph}

theorem info (h : g.Unplaced g') (key : String) : g'.info key = (g.info key).unplaced :=
  h.functions.getD key { name := key }

theorem define (h : g.Unplaced g') (key : String) (id : NodeId) (n : Node) :
    (g.define key id n).Unplaced (g'.define key id n.unplaced) := by
  refine ⟨?_, h.callers, h.owners⟩
  unfold CallGraph.define
  rw [h.info]
  exact h.functions.insert key _

theorem enterCallee (h : g.Unplaced g') (callee name : String) : Unplaced
    { g with functions := g.functions.insert callee { g.info callee with name } }
    { g' with functions := g'.functions.insert callee { g'.info callee with name } } := by
  refine ⟨?_, h.callers, h.owners⟩
  rw [h.info]
  exact h.functions.insert callee _

theorem enterSite (h : g.Unplaced g') (caller : String) (site : CallSite) : Unplaced
    { g with
      functions := g.functions.insert caller
        { g.info caller with callSites := (g.info caller).callSites ++ [site] }
      callers :=
        if (g.info caller).callSites.isEmpty then g.callers ++ [caller] else g.callers }
    { g' with
      functions := g'.functions.insert caller
        { g'.info caller with callSites := (g'.info caller).callSites ++ [site.unplaced] }
      callers :=
        if (g'.info caller).callSites.isEmpty then g'.callers ++ [caller] else g'.callers } := by
  rw [h.info, h.callers, h.owners]
  have hsites : (g.info caller).unplaced.callSites ++ [site.unplaced] =
      ((g.info caller).callSites ++ [site]).map CallSite.unplaced := by
    rw [List.map_append]
    rfl
  have hempty : (g.info caller).unplaced.callSites.isEmpty = (g.info caller).callSites.isEmpty :=
    List.isEmpty_map
  rw [hsites, hempty]
  exact ⟨h.functions.insert caller _, rfl, rfl⟩

theorem record (h : g.Unplaced g') (t : Tree) (identity : FunctionIdentity)
    (visit : NodeId × String) :
    (CallGraph.record t identity g visit).Unplaced
      (CallGraph.record t.unplaced identity g' visit) := by
  obtain ⟨id, key⟩ := visit
  have hkey : identity.key (t.node id).unplaced = identity.key (t.node id) := rfl
  have hkind : (t.node id).unplaced.kind = (t.node id).kind := rfl
  have hcall : (t.node id).unplaced.isCall = (t.node id).isCall := rfl
  have hop : (t.node id).unplaced.isOperation = (t.node id).isOperation := rfl
  have howned : ∀ {g g' : CallGraph}, g.Unplaced g' → Unplaced
      (if (t.node id).isOperation then { g with owners := g.owners.insert id key } else g)
      (if (t.node id).isOperation then { g' with owners := g'.owners.insert id key } else g') := by
    intro g g' h
    split
    · exact ⟨h.functions, h.callers, by rw [h.owners]⟩
    · exact h
  unfold CallGraph.record
  simp only [t.node_unplaced, hkey, hkind, hcall, hop]
  refine howned ?_
  split
  · exact h.define _ id (t.node id)
  · split
    · exact (h.enterCallee _ _).enterSite key ⟨_, id, _⟩
    · exact h

theorem ofTree (t : Tree) (identity : FunctionIdentity) :
    (CallGraph.ofTree t identity).Unplaced (CallGraph.ofTree t.unplaced identity) := by
  have hbelow : keyBelow t.unplaced identity = keyBelow t identity := by
    funext key id
    unfold keyBelow
    rw [t.node_unplaced]
    rfl
  unfold CallGraph.ofTree
  rw [t.walk_unplaced, hbelow]
  exact List.foldl_rel (r := Unplaced) ⟨.empty, rfl, rfl⟩ fun visit _ _ _ h =>
    h.record t identity visit

/-! What the later stages look at. -/

theorem callSites (h : g.Unplaced g') (key : String) :
    g'.callSites key = (g.callSites key).map CallSite.unplaced := by
  rw [CallGraph.callSites, h.info, CallGraph.callSites]
  rfl

theorem callees (h : g.Unplaced g') (key : String) : g'.callees key = g.callees key := by
  rw [CallGraph.callees, h.callSites, List.map_map, CallGraph.callees]
  rfl

theorem isEmpty_callSites (info : FunctionInfo) :
    info.unplaced.callSites.isEmpty = info.callSites.isEmpty :=
  List.isEmpty_map

theorem callersOf (h : g.Unplaced g') :
    Resolution.callersOf g'.functions.toList = Resolution.callersOf g.functions.toList := by
  unfold Resolution.callersOf
  rw [h.functions.toList, List.filter_map, List.map_map]
  simp only [Function.comp_def, isEmpty_callSites]

theorem leavesOf (h : g.Unplaced g') :
    Resolution.leavesOf g'.functions.toList = Resolution.leavesOf g.functions.toList := by
  unfold Resolution.leavesOf
  rw [h.functions.toList, List.filter_map, List.map_map]
  simp only [Function.comp_def, isEmpty_callSites]

theorem calledLeaves (h : g.Unplaced g') :
    calledLeaves g' g'.functions.toList = calledLeaves g g.functions.toList := by
  unfold ShaderCost.calledLeaves
  simp only [h.functions.toList, List.flatMap_map, h.callSites, List.isEmpty_map,
    FunctionInfo.unplaced, List.map_map]
  rfl

end CallGraph.Unplaced

/-! ## Resolution and counts -/

section

variable {g g' : CallGraph} (h : g.Unplaced g') {loops loops' : LoopCosts α}
  (hloops : loops'.multipliers = loops.multipliers)

include h

theorem settle_unplaced :
    (Resolution.settle g' : Resolution α → String → Resolution α) = Resolution.settle g := by
  funext r caller
  unfold Resolution.settle Resolution.isReady
  rw [h.callees]

theorem rounds_unplaced (callers : List String) (limit : Nat) :
    (Resolution.rounds g' callers limit : Resolution α → Resolution α) =
      Resolution.rounds g callers limit := by
  induction limit with
  | zero => rfl
  | succ limit ih =>
    funext r
    unfold Resolution.rounds
    rw [settle_unplaced h, ih]

include hloops in
theorem Resolution.ofGraph_unplaced (widths : Widths) :
    Resolution.ofGraph g' widths loops' = Resolution.ofGraph g widths loops := by
  have hplace : placeCost widths loops' = placeCost widths loops := by
    funext id
    rw [placeCost, LoopCosts.multiplier_congr hloops, placeCost]
  have hstart : start g' widths loops' = start g widths loops := by
    unfold start rawCosts
    simp only [Listing.list_stored, h.leavesOf, h.functions.keys, h.owners, hplace]
  unfold ofGraph
  simp only [Listing.list_stored, h.callersOf, rounds_unplaced h, hstart]

omit [Tally α] in
theorem Resolution.failure?_unplaced (r : Resolution α) (mode : RecursionMode) :
    r.failure? g' mode = r.failure? g mode := by
  have hsize : g'.functions.size = g.functions.size := by
    rw [← Std.TreeMap.length_keys, ← Std.TreeMap.length_keys, h.functions.keys]
  have hunresolved : r.unresolved g' = r.unresolved g := by
    unfold unresolved
    rw [Listing.list_stored, Listing.list_stored, h.callersOf]
  unfold failure? Cycle.find
  simp only [hunresolved, h.callees, hsize]

omit [Tally α] in
theorem processingOrder_unplaced (r : Resolution α) :
    processingOrder g' r = processingOrder g r := by
  unfold processingOrder
  rw [Listing.list_stored, Listing.list_stored, h.calledLeaves, h.callers]

include hloops in
theorem Invocations.ofGraph_unplaced (r : Resolution α) :
    Invocations.ofGraph g' loops' r = Invocations.ofGraph g loops r := by
  have hprocess : process g' loops' = process g loops := by
    funext counts key
    unfold process
    rw [h.functions key, LoopCosts.multiplier_congr hloops]
    cases g.functions[key]? with
    | none => rfl
    | some info => exact List.foldl_map
  unfold ofGraph
  rw [processingOrder_unplaced h, hprocess]

end

/-! ## Runs -/

namespace CostRun

/-- Runs with the same results, apart from lines: widths, multipliers, owners, all of the resolution
(raw costs, costs, settled functions and their order), failures and counts. -/
structure Alike (run run' : CostRun α) : Prop where
  widths : run'.widths = run.widths
  multipliers : run'.loops.multipliers = run.loops.multipliers
  owners : run'.graph.owners = run.graph.owners
  resolution : run'.resolution = run.resolution
  failure : run'.failure = run.failure
  counts : run'.counts = run.counts

omit [Tally α] in
theorem Alike.of_unplaced {run run₁ run' : CostRun α} (h : run.Alike run₁) (h' : run'.Alike run₁) :
    run.Alike run' :=
  ⟨h'.widths.symm.trans h.widths, h'.multipliers.symm.trans h.multipliers,
    h'.owners.symm.trans h.owners, h'.resolution.symm.trans h.resolution,
    h'.failure.symm.trans h.failure, h'.counts.symm.trans h.counts⟩

theorem ofTree_lines_of_failure {options : CostOptions} {t : Tree} {e : RecursionError}
    (h : (ofTree options t : CostRun α).failure = some e) :
    (ofTree options t : CostRun α).lines = ∅ := by
  rw [ofTree_failure, ofTree_resolution, ofTree_graph] at h
  unfold ofTree
  simp only [h]

theorem ofTree_unplaced (options : CostOptions) (t : Tree) :
    (ofTree options t : CostRun α).Alike (ofTree options t.unplaced) := by
  have hgraph := CallGraph.Unplaced.ofTree t options.identity
  have hloops := LoopCosts.ofTree_unplaced (α := α) t options.nesting
  have hresolution := Resolution.ofGraph_unplaced hgraph hloops (Widths.ofTree t)
  unfold ofTree
  simp only [Widths.ofTree_unplaced, hresolution, Resolution.failure?_unplaced hgraph]
  split
  · exact ⟨rfl, hloops, hgraph.owners, rfl, rfl, rfl⟩
  · exact ⟨rfl, hloops, hgraph.owners, rfl, rfl, Invocations.ofGraph_unplaced hgraph hloops _⟩

end CostRun

end

namespace CostRun

theorem charges_unplaced {run run' : CostRun Nat} (h : run.Alike run') (t : Tree) :
    run'.charges t.unplaced = run.charges t := by
  have hcharge : run'.charge = run.charge := by
    funext id
    unfold charge CallGraph.owner
    rw [h.widths, LoopCosts.multiplier_congr h.multipliers, h.counts, h.owners]
  unfold charges
  simp only [t.postOrder_unplaced, t.node_unplaced, hcharge]
  rfl

theorem total_ideal_unplaced (options : CostOptions) (t : Tree) :
    LineTable.total (ofTree options t.unplaced : CostRun Nat).lines.toList =
      LineTable.total (ofTree options t : CostRun Nat).lines.toList := by
  have h : (ofTree options t : CostRun Nat).Alike (ofTree options t.unplaced) :=
    ofTree_unplaced options t
  cases hfailure : (ofTree options t : CostRun Nat).failure with
  | none =>
    rw [total_lines rfl (h.failure.trans hfailure), total_lines rfl hfailure, charges_unplaced h]
  | some e =>
    rw [ofTree_lines_of_failure (h.failure.trans hfailure), ofTree_lines_of_failure hfailure]

/-- The sum over all lines does not depend on how they are divided. -/
theorem total_unplaced (options : CostOptions) (t : Tree) :
    LineTable.total (ofTree options t.unplaced : CostRun Int64).lines.toList =
      LineTable.total (ofTree options t : CostRun Int64).lines.toList := by
  have hwords : ∀ t : Tree, LineTable.total (ofTree options t : CostRun Int64).lines.toList =
      Saturating.ofNat (LineTable.total (ofTree options t : CostRun Nat).lines.toList) := fun t =>
    LineTable.total_image Saturating.ofNat_hom (ofTree_related Saturating.ofNat_hom options t).lines
  rw [hwords, hwords, total_ideal_unplaced]

theorem ofTree_alike {t t' : Tree} (h : t'.unplaced = t.unplaced) (options : CostOptions) :
    (ofTree options t : CostRun Int64).Alike (ofTree options t') ∧
      LineTable.total (ofTree options t' : CostRun Int64).lines.toList =
        LineTable.total (ofTree options t : CostRun Int64).lines.toList := by
  refine ⟨(ofTree_unplaced options t).of_unplaced ?_, ?_⟩
  · rw [← h]
    exact ofTree_unplaced options t'
  · rw [← total_unplaced, h, total_unplaced]

end CostRun

theorem Tree.node_alike {t t' : Tree} (h : t'.unplaced = t.unplaced) (id : NodeId) :
    { t'.node id with line := (t.node id).line } = t.node id := by
  have hnode : (t'.node id).unplaced = (t.node id).unplaced := by
    rw [← t'.node_unplaced, h, t.node_unplaced]
  exact (congrArg (fun n : Node => { n with line := (t.node id).line }) hnode :)

/-- **Layout does not matter.** Two sources whose tokens agree in kind and value are both refused,
with the same message, or both read. Then the arenas are the same but for lines, and under any
options so are the analyses, with the same cost in all. -/
theorem layout_independence {source source' : Bytes}
    (h : (tokenize source').map Token.shown = (tokenize source).map Token.shown) :
    match Tree.ofSource source, Tree.ofSource source' with
    | .ok t, .ok t' =>
      t'.size = t.size ∧ t'.root = t.root ∧
        (∀ id, { t'.node id with line := (t.node id).line } = t.node id) ∧
        ∀ options : CostOptions,
          let run : CostRun Int64 := .ofTree options t
          let run' : CostRun Int64 := .ofTree options t'
          run.Alike run' ∧ LineTable.total run'.lines.toList = LineTable.total run.lines.toList
    | .error e, .error e' => e'.message = e.message
    | _, _ => False := by
  have halike := Tree.ofTokens_alike (map_lexeme_eq_of_shown h)
  unfold Tree.ofSource
  revert halike
  generalize Tree.ofTokens (tokenize source) = outcome
  generalize Tree.ofTokens (tokenize source') = outcome'
  intro halike
  cases outcome with
  | error e =>
    cases outcome' with
    | error e' => exact congrArg Complaint.message halike
    | ok t' => exact halike.elim
  | ok t =>
    cases outcome' with
    | error e' => exact halike.elim
    | ok t' =>
      refine ⟨?_, ?_, Tree.node_alike halike, CostRun.ofTree_alike halike⟩
      · rw [← t'.size_unplaced, halike, t.size_unplaced]
      · exact (congrArg Tree.root halike :)

/-- A function that is called, on one line. -/
def compactLayout : Bytes := Bytes.ofString "int f() {return 1 + 1;} void main() {f();}"

/-- The same with comments and line breaks. -/
def spreadLayout : Bytes :=
  Bytes.ofString "int f() \x7b // two\n return 1\n + 1;\x7d\nvoid main() /* none */ \x7b\nf();\x7d"

/-- The tokens stand on different lines, and the costs are the same in all. -/
theorem layout_independence_spreadLayout :
    (tokenize spreadLayout).map Token.line ≠ (tokenize compactLayout).map Token.line ∧
    ∃ t t', Tree.ofSource compactLayout = .ok t ∧ Tree.ofSource spreadLayout = .ok t' ∧
      ∀ options : CostOptions,
        LineTable.total (CostRun.ofTree options t' : CostRun Int64).lines.toList =
          LineTable.total (CostRun.ofTree options t : CostRun Int64).lines.toList := by
  have hshown : (tokenize spreadLayout).map Token.shown =
      (tokenize compactLayout).map Token.shown := by
    refine map_shown_eq_of_lexeme ?_
    decide +kernel
  have hlines : (tokenize spreadLayout).map Token.line ≠
      (tokenize compactLayout).map Token.line := by decide +kernel
  have hread : (Tree.ofSource compactLayout).isOk := by decide +kernel
  have hread' : (Tree.ofSource spreadLayout).isOk := by decide +kernel
  -- with the sources as variables, no later step evaluates a parse
  generalize compactLayout = source, spreadLayout = source' at *
  obtain ⟨t, ht⟩ := Tree.exists_of_isOk hread
  obtain ⟨t', ht'⟩ := Tree.exists_of_isOk hread'
  have h := layout_independence hshown
  rw [ht, ht'] at h
  exact ⟨hlines, t, t', ht, ht', fun options => (h.2.2.2 options).2⟩

end ShaderCost
