import ShaderCost.Proofs.Cost.Monotonicity
import ShaderCost.Proofs.Cost.Roots
import ShaderCost.Proofs.Grammar.FunctionNames

/-! # Coarser identities of functions

A shader can be analysed with functions told apart by their signatures or only by their names. The
second identity is coarser: its keys are found in those of the first (`Coarsens`). Nodes then belong
to the image of the function they belonged to, and calls become calls between images. So

* a circle of calls stays a circle, and where the coarse graph has none the fine graph has none;
* what calls a function calls its image, with the same loops around the call. The image may be
  called from elsewhere too, so it counts as often or more (`CostRun.count_le_count`), and with it
  the operations and the lines;
* the raw cost of a name is what the functions of that name cost (`CostRun.raw_eq_sum`).
-/

namespace ShaderCost

/-- Keys of the identity `coarse` are found by `φ` in those of the identity `fine`. -/
structure Coarsens (t : Tree) (φ : String → String) (fine coarse : FunctionIdentity) : Prop where
  outside : φ noFunction = noFunction
  key : ∀ id, (t.node id).isReference = true → φ (fine.key (t.node id)) = coarse.key (t.node id)

theorem Tree.coarsens {source : Bytes} {t : Tree} (h : Tree.ofSource source = .ok t) :
    Coarsens t nameOf .signature .name where
  outside := nameOf_noFunction
  key _ href := Tree.nameOf_key h href

/-! ## Visits -/

namespace CallGraph

variable {t : Tree} {identity : FunctionIdentity}

/-- A key that is inherited comes from outside or from a definition that is visited. -/
theorem walkFrom_inherited (depth : Nat) (key : String) (id : NodeId) :
    ∀ v ∈ t.walkFrom (keyBelow t identity) depth key id, v.2 = key ∨
      ∃ u ∈ t.walkFrom (keyBelow t identity) depth key id,
        (t.node u.1).isReference = true ∧ identity.key (t.node u.1) = v.2 := by
  induction depth generalizing key id with
  | zero => intro v hv; cases hv
  | succ depth ih =>
    intro v hv
    rcases List.mem_cons.1 hv with rfl | hv
    · exact Or.inl rfl
    obtain ⟨c, hc, hv⟩ := List.mem_flatMap.1 hv
    have hsub : ∀ u ∈ t.walkFrom (keyBelow t identity) depth (keyBelow t identity key id) c,
        u ∈ t.walkFrom (keyBelow t identity) (depth + 1) key id := fun u hu =>
      List.mem_cons_of_mem _ (List.mem_flatMap.2 ⟨c, hc, hu⟩)
    rcases ih _ c v hv with heq | ⟨u, hu, href, hkey⟩
    · by_cases hfunction : (t.node id).kind = .function
      · refine Or.inr ⟨(id, key), List.mem_cons_self, ?_, ?_⟩
        · simp [Node.isReference, hfunction]
        · simp [heq, keyBelow, hfunction]
      · simp [heq, keyBelow, hfunction]
    · exact Or.inr ⟨u, hsub u hu, href, hkey⟩

theorem visits_inherited : ∀ v ∈ visits t identity, v.2 = noFunction ∨
    ∃ u ∈ visits t identity,
      (t.node u.1).isReference = true ∧ identity.key (t.node u.1) = v.2 := by
  unfold visits Tree.walk
  cases t.root with
  | none => intro v hv; cases hv
  | some root => exact walkFrom_inherited t.size noFunction root

/-- Owners are what the visits say. -/
theorem mem_visits_of_mem_owners {e : NodeId × String}
    (h : e ∈ (ofTree t identity).owners.toList) : e ∈ visits t identity := by
  rw [Std.TreeMap.mem_toList_iff_getElem?_eq_some] at h
  revert e
  refine List.foldlRecOn (motive := fun g : CallGraph => ∀ {e : NodeId × String},
    g.owners[e.1]? = some e.2 → e ∈ visits t identity) _ _ ?_ ?_
  · intro e h
    simp at h
  · intro g ih visit hvisit e h
    rw [owners_record] at h
    split at h
    · rw [Std.TreeMap.getElem?_insert] at h
      split at h
      · next heq =>
        obtain rfl : visit = e :=
          Prod.ext (Std.LawfulEqOrd.compare_eq_iff_eq.1 heq) (Option.some.inj h)
        exact hvisit
      · exact ih h
    · exact ih h

/-! ## Names -/

theorem info_define (g : CallGraph) (key : String) (id : NodeId) (n : Node) (k : String) :
    ((g.define key id n).info k).name = (if key = k then n.name else (g.info k).name) ∧
      ((g.define key id n).info k).definition =
        if key = k then some id else (g.info k).definition := by
  unfold define info
  simp only [Std.TreeMap.getD_insert, Std.LawfulEqOrd.compare_eq_iff_eq]
  split <;> exact ⟨rfl, rfl⟩

theorem info_addCall (g : CallGraph) (caller callee : String) (id : NodeId) (n : Node)
    (k : String) : ((g.addCall caller callee id n).info k).name =
        (if callee = k then n.name else (g.info k).name) ∧
      ((g.addCall caller callee id n).info k).definition = (g.info k).definition := by
  unfold addCall info
  simp only [Std.TreeMap.getD_insert, Std.LawfulEqOrd.compare_eq_iff_eq]
  by_cases hcaller : caller = k
  · subst hcaller
    by_cases hcallee : callee = caller
    · simp [hcallee]
    · simp [hcallee]
  · by_cases hcallee : callee = k
    · simp [hcaller, hcallee]
    · simp [hcaller, hcallee]

theorem name_record (g : CallGraph) (visit : NodeId × String) (k : String) :
    ((record t identity g visit).info k).name =
      if (t.node visit.1).isReference = true ∧ identity.key (t.node visit.1) = k then
        (t.node visit.1).name
      else (g.info k).name := by
  obtain ⟨g', hg', hfunctions, -⟩ := record_cases t identity g visit
  have hinfo : (record t identity g visit).info k = g'.info k := by
    unfold info
    rw [hfunctions]
  rw [hinfo]
  rcases hg' with ⟨hfunction, rfl⟩ | ⟨hcall, rfl⟩ | ⟨hother, rfl⟩
  · simp [info_define, Node.isReference, hfunction]
  · simp [info_addCall, Node.isReference, hcall]
  · simp [hother]

/-- Where the names of functions are found in their keys, so are those of owners. -/
theorem name_owner {φ : String → String} (h : Coarsens t φ identity .name)
    {e : NodeId × String} (he : e ∈ (ofTree t identity).owners.toList) :
    ((ofTree t identity).info e.2).name = φ e.2 := by
  have hfold : ∀ (visits : List (NodeId × String)) (g : CallGraph) (k : String),
      (g.info k).name = φ k ∨ (∃ u ∈ visits, (t.node u.1).isReference = true ∧
        identity.key (t.node u.1) = k) →
      ((visits.foldl (record t identity) g).info k).name = φ k := by
    intro visits
    induction visits with
    | nil => intro g k hk; simpa using hk
    | cons v visits ih =>
      intro g k hk
      rw [List.foldl_cons]
      apply ih
      rw [name_record]
      by_cases hv : (t.node v.1).isReference = true ∧ identity.key (t.node v.1) = k
      · rw [if_pos hv, ← hv.2, h.key v.1 hv.1]
        exact Or.inl rfl
      · rw [if_neg hv]
        refine hk.imp_right ?_
        rintro ⟨u, hu, href⟩
        rcases List.mem_cons.1 hu with rfl | hu
        · exact absurd href hv
        · exact ⟨u, hu, href⟩
  apply hfold
  rcases visits_inherited e (mem_visits_of_mem_owners he) with houtside | hreferenced
  · left
    rw [houtside, h.outside]
    exact congrArg FunctionInfo.name Std.TreeMap.getD_emptyc
  · exact Or.inr hreferenced

/-! ## Images -/

variable {φ : String → String} {fine coarse : FunctionIdentity} (h : Coarsens t φ fine coarse)

include h

theorem visits_coarsens :
    visits t coarse = (visits t fine).map fun v => (v.1, φ v.2) := by
  have hbelow : ∀ key id, keyBelow t coarse (φ key) id = φ (keyBelow t fine key id) := by
    intro key id
    unfold keyBelow
    by_cases hfunction : (t.node id).kind = .function
    · simp [hfunction, h.key id (by simp [Node.isReference, hfunction])]
    · simp [hfunction]
  have hwalk := (Tree.SameLinks.refl t).walk_map hbelow noFunction
  rwa [h.outside] at hwalk

theorem callVisits_coarsens :
    callVisits t coarse = (callVisits t fine).map fun v => (v.1, φ v.2) := by
  unfold callVisits
  rw [visits_coarsens h, List.filter_map]
  rfl

theorem key_of_mem_callVisits {v : NodeId × String} (hv : v ∈ callVisits t fine) :
    φ (fine.key (t.node v.1)) = coarse.key (t.node v.1) := by
  apply h.key
  simp [Node.isReference, (List.mem_filter.1 hv).2]

/-- Calls become calls between images. -/
theorem calls_coarsens {a b : String} (hcalls : (ofTree t fine).Calls a b) :
    (ofTree t coarse).Calls (φ a) (φ b) := by
  obtain ⟨v, hv, rfl, rfl⟩ := calls_ofTree.1 hcalls
  rw [calls_ofTree, callVisits_coarsens h]
  exact ⟨(v.1, φ v.2), List.mem_map_of_mem hv, rfl, (key_of_mem_callVisits h hv).symm⟩

/-- A circle of calls becomes a circle of calls. -/
theorem acyclic_of_coarsens (hcoarse : ¬ ∃ c, Relation.TransGen (ofTree t coarse).Calls c c) :
    ¬ ∃ c, Relation.TransGen (ofTree t fine).Calls c c := by
  rintro ⟨c, hc⟩
  exact hcoarse ⟨φ c, hc.lift φ fun _ _ => calls_coarsens h⟩

theorem owners_coarsens : Image φ (ofTree t fine).owners (ofTree t coarse).owners := by
  have hrel : Image φ ((visits t fine).foldl (record t fine) {}).owners
      (((visits t fine).map fun v => (v.1, φ v.2)).foldl (record t coarse) {}).owners := by
    rw [List.foldl_map]
    refine List.foldl_rel (r := fun g g' : CallGraph => Image φ g.owners g'.owners) .empty
      fun v _ g g' hg => ?_
    rw [owners_record, owners_record]
    split
    · exact hg.insert v.1 v.2
    · exact hg
  rw [← visits_coarsens h] at hrel
  exact hrel

theorem owner_coarsens (id : NodeId) :
    (ofTree t coarse).owner id = φ ((ofTree t fine).owner id) := by
  unfold owner
  rw [← (owners_coarsens h).getD id noFunction, h.outside]

end CallGraph

/-! ## Counts -/

namespace CallGraph

variable {t : Tree} {identity : FunctionIdentity}

/-- A sum over visits, caller by caller. -/
theorem sum_callers_of_visits {keys : Finset String} {visits : List (NodeId × String)}
    (hkeys : ∀ v ∈ visits, v.2 ∈ keys) (amount : NodeId × String → Nat) :
    ∑ k ∈ keys, ((visits.filter (·.2 == k)).map amount).sum = (visits.map amount).sum := by
  induction visits with
  | nil => simp
  | cons v visits ih =>
    obtain ⟨hv, hvisits⟩ := List.forall_mem_cons.1 hkeys
    have hstep : ∀ k, (((v :: visits).filter (·.2 == k)).map amount).sum =
        (if v.2 = k then amount v else 0) + ((visits.filter (·.2 == k)).map amount).sum := by
      intro k
      by_cases hk : v.2 = k
      · simp [hk]
      · simp [hk]
    simp only [hstep, Finset.sum_add_distrib, ih hvisits, Finset.sum_ite_eq, hv, if_true,
      List.map_cons, List.sum_cons]

/-- A sum over the call sites of a function is one over the calls of it that are visited. -/
theorem sum_sitesTo_ofTree (f : String) (amount : String → NodeId → Nat) :
    (((ofTree t identity).sitesTo f).map fun s => amount s.1 s.2.node).sum =
      (((callVisits t identity).filter fun v => identity.key (t.node v.1) == f).map fun v =>
        amount v.2 v.1).sum := by
  have hfrom : ∀ k, (((ofTree t identity).sitesFrom k f).map fun s => amount k s.node).sum =
      ((((callVisits t identity).filter fun v => identity.key (t.node v.1) == f).filter
        (·.2 == k)).map fun v => amount v.2 v.1).sum := by
    intro k
    rw [sitesFrom, callSites_ofTree, List.filter_map, List.map_map, List.filter_filter,
      List.filter_filter]
    simp only [Bool.and_comm, siteOf, Function.comp_def]
    congr 1
    apply List.map_congr_left
    intro v hv
    simp only [List.mem_filter, Bool.and_eq_true, beq_iff_eq] at hv
    rw [hv.2.1]
  rw [sum_sitesTo _ f fun k s => amount k s.node, ← List.sum_toFinset _ Std.TreeMap.nodup_keys]
  simp only [hfrom]
  apply sum_callers_of_visits
  intro v hv
  rw [List.mem_toFinset, Std.TreeMap.mem_keys]
  have hcalls : (ofTree t identity).Calls v.2 (identity.key (t.node v.1)) :=
    calls_ofTree.2 ⟨v, (List.mem_filter.1 hv).1, rfl, rfl⟩
  exact hcalls.caller_mem

end CallGraph

/-- A sum grows with its terms, and with the choice of them. -/
theorem sum_filter_le {ι : Type} {p q : ι → Bool} {a b : ι → Nat} {l : List ι}
    (h : ∀ i ∈ l, p i = true → q i = true ∧ a i ≤ b i) :
    ((l.filter p).map a).sum ≤ ((l.filter q).map b).sum := by
  induction l with
  | nil => exact Nat.le_refl 0
  | cons i l ih =>
    have hrest := ih fun j hj => h j (List.mem_cons_of_mem i hj)
    by_cases hp : p i = true
    · obtain ⟨hq, hle⟩ := h i List.mem_cons_self hp
      simp only [List.filter_cons_of_pos hp, List.filter_cons_of_pos hq, List.map_cons,
        List.sum_cons]
      exact Nat.add_le_add hle hrest
    · rw [List.filter_cons_of_neg hp]
      by_cases hq : q i = true
      · rw [List.filter_cons_of_pos hq, List.map_cons, List.sum_cons]
        exact Nat.le_add_left_of_le hrest
      · rwa [List.filter_cons_of_neg hq]

namespace CostRun

section

variable {t : Tree} {options : CostOptions} {run : CostRun Nat}

/-- How often a function counts, call by call. -/
theorem count_eq_visits (hrun : run = .ofTree options t)
    (hall : run.resolution.unresolved run.graph = []) (k : String) :
    run.counts.count k = (if run.graph.sitesTo k = [] then 1 else 0) +
      (((CallGraph.callVisits t options.identity).filter fun v =>
        options.identity.key (t.node v.1) == k).map fun v =>
          run.loops.multiplier v.1 * run.counts.count v.2).sum := by
  rw [count_eq hrun hall, ← CallGraph.sum_sitesTo_ofTree k fun caller id =>
    run.loops.multiplier id * run.counts.count caller, hrun, ofTree_graph]

/-- Without circles every function counts at least once. -/
theorem count_pos (hrun : run = .ofTree options t)
    (hacyclic : ¬ ∃ c, Relation.TransGen run.graph.Calls c c) (k : String) :
    0 < run.counts.count k := by
  have hall := (unresolved_eq_nil_iff hrun).2 hacyclic
  induction k using (CallGraph.wellFounded_calls hacyclic).induction with
  | _ k ih =>
    obtain ⟨hone, hsum⟩ := counts_ideal hrun hall k
    by_cases hroot : run.graph.sitesTo k = []
    · rw [hone hroot]
      exact Nat.one_pos
    · rw [hsum hroot]
      apply List.sum_pos
      · intro x hx
        obtain ⟨⟨caller, site⟩, hs, rfl⟩ := List.mem_map.1 hx
        obtain ⟨hrecorded, hcallee⟩ := List.mem_filter.1 hs
        have hcalls : run.graph.Calls caller k :=
          List.mem_map.2 ⟨site, CallGraph.mem_recorded.1 hrecorded, eq_of_beq hcallee⟩
        exact Nat.mul_pos (site_multiplier_pos hrun hrecorded) (ih caller hcalls)
      · simpa using hroot

end

variable {t : Tree} {φ : String → String} {options options' : CostOptions} {run run' : CostRun Nat}
  (hrun : run = .ofTree options t) (hrun' : run' = .ofTree options' t)
  (h : Coarsens t φ options.identity options'.identity)

include hrun hrun' h

theorem acyclic_of_coarsens (hacyclic : ¬ ∃ c, Relation.TransGen run'.graph.Calls c c) :
    ¬ ∃ c, Relation.TransGen run.graph.Calls c c := by
  rw [hrun', ofTree_graph] at hacyclic
  rw [hrun, ofTree_graph]
  exact CallGraph.acyclic_of_coarsens h hacyclic

variable (hnesting : options'.nesting = options.nesting)

include hnesting

/-- The image of a function counts as often or more. By induction over the calls: whoever calls the
function calls its image, from an image that counts as often or more. -/
theorem count_le_count (hacyclic : ¬ ∃ c, Relation.TransGen run'.graph.Calls c c) (k : String) :
    run.counts.count k ≤ run'.counts.count (φ k) := by
  have hgraph : run.graph = .ofTree t options.identity := by rw [hrun, ofTree_graph]
  have hloops : run'.loops = run.loops := by
    rw [hrun, hrun', ofTree_loops, ofTree_loops, hnesting]
  have hfine := acyclic_of_coarsens hrun hrun' h hacyclic
  have hall := (unresolved_eq_nil_iff hrun).2 hfine
  have hall' := (unresolved_eq_nil_iff hrun').2 hacyclic
  induction k using (CallGraph.wellFounded_calls hfine).induction with
  | _ k ih =>
    by_cases hroot : run.graph.sitesTo k = []
    · rw [(counts_ideal hrun hall k).1 hroot]
      exact count_pos hrun' hacyclic (φ k)
    · rw [count_eq_visits hrun hall, if_neg hroot, Nat.zero_add, count_eq_visits hrun' hall',
        CallGraph.callVisits_coarsens h, List.filter_map, List.map_map, hloops]
      apply Nat.le_add_left_of_le
      apply sum_filter_le
      intro v hv hk
      have hkey : options.identity.key (t.node v.1) = k := eq_of_beq hk
      have hcalls : run.graph.Calls v.2 k := by
        rw [hgraph]
        exact CallGraph.calls_ofTree.2 ⟨v, hv, rfl, hkey⟩
      constructor
      · rw [Function.comp_apply, ← CallGraph.key_of_mem_callVisits h hv, hkey]
        exact beq_self_eq_true _
      · exact Nat.mul_le_mul_left _ (ih v.2 hcalls)

theorem lines_le_lines (hacyclic : ¬ ∃ c, Relation.TransGen run'.graph.Calls c c)
    (hfailure : run.failure = none) (hfailure' : run'.failure = none) :
    Entrywise (· ≤ ·) run.lines run'.lines := by
  have hcount := count_le_count hrun hrun' h hnesting hacyclic
  subst hrun hrun'
  rw [ofTree_lines hfailure, ofTree_lines hfailure', hnesting]
  refine LineTable.ofTree_entrywise Tally.le_respects t fun id => ?_
  apply Nat.mul_le_mul_left
  rw [CallGraph.owner_coarsens h]
  exact hcount _

/-- The raw cost under a name is what the functions of that name cost. -/
theorem raw_eq_sum (hname : options'.identity = .name) (f : String) :
    run'.resolution.raw.getD f 0 = ((run.resolution.raw.keys.filter fun k =>
      (run.graph.info k).name == f).map (run.resolution.raw.getD · 0)).sum := by
  subst hrun hrun'
  rw [← weighted_single, ← weighted_filter, ofTree_resolution, ofTree_resolution,
    Resolution.ofGraph_raw, Resolution.ofGraph_raw, weighted_rawCosts, weighted_rawCosts,
    (CallGraph.owners_coarsens h).toList, List.map_map, hnesting, ofTree_graph]
  congr 1
  apply List.map_congr_left
  intro e he
  rw [hname] at h
  rw [CallGraph.name_owner h he]
  rfl

end CostRun

/-- **Names over-approximate signatures.** For every source that is read and every nesting policy:
if the analysis that tells functions apart by their names succeeds, then so does the one that tells
them apart by their signatures, with the same lines, each at most as costly. In either case the raw
cost of a name is what the functions of that name cost together, cut off at the cap. -/
theorem names_overapproximate_signatures {source : Bytes} {t : Tree}
    (hsource : Tree.ofSource source = .ok t) (policy : NestingPolicy) :
    let byName : CostRun Int64 :=
      .ofTree { nesting := policy, identity := .name, recursion := .error } t
    let bySignature : CostRun Int64 :=
      .ofTree { nesting := policy, identity := .signature, recursion := .error } t
    (byName.failure = none → bySignature.failure = none ∧
      bySignature.lines.keys = byName.lines.keys ∧
      Entrywise (· ≤ ·) bySignature.lines byName.lines) ∧
    ∀ f, (byName.resolution.raw.getD f 0).toInt = min Saturating.cap.toInt
      ((bySignature.resolution.raw.keys.filter fun s =>
        (bySignature.graph.info s).name == f).map fun s =>
          (bySignature.resolution.raw.getD s 0).toInt).sum := by
  intro byName bySignature
  have hcoarsens := Tree.coarsens hsource
  obtain ⟨names, hnames⟩ : ∃ run : CostRun Nat,
      run = .ofTree { nesting := policy, identity := .name, recursion := .error } t := ⟨_, rfl⟩
  obtain ⟨signatures, hsignatures⟩ : ∃ run : CostRun Nat,
      run = .ofTree { nesting := policy, identity := .signature, recursion := .error } t :=
    ⟨_, rfl⟩
  have hrelN : names.Related Saturating.ofNat byName := by
    rw [hnames]
    exact CostRun.ofTree_related Saturating.ofNat_hom _ t
  have hrelS : signatures.Related Saturating.ofNat bySignature := by
    rw [hsignatures]
    exact CostRun.ofTree_related Saturating.ofNat_hom _ t
  constructor
  · intro hsuccess
    have hfailure : names.failure = none := hrelN.failure ▸ hsuccess
    have hacyclic := (CostRun.failure_eq_none_iff hnames rfl).1 hfailure
    have hfailure' : signatures.failure = none := (CostRun.failure_eq_none_iff hsignatures rfl).2
      (CostRun.acyclic_of_coarsens hsignatures hnames hcoarsens hacyclic)
    have hlines := CostRun.lines_le_lines hsignatures hnames hcoarsens rfl hacyclic hfailure'
      hfailure
    have hwords := hlines.words_le hrelS.lines hrelN.lines
    exact ⟨hrelS.failure.trans hfailure', hwords.keys.symm, hwords⟩
  · intro f
    have hraw := CostRun.raw_eq_sum hsignatures hnames hcoarsens rfl rfl f
    have hword : ∀ k, bySignature.resolution.raw.getD k 0 =
        Saturating.ofNat (signatures.resolution.raw.getD k 0) := fun k =>
      hrelS.resolution.raw.getD k 0
    have hword' : byName.resolution.raw.getD f 0 =
        Saturating.ofNat (names.resolution.raw.getD f 0) := hrelN.resolution.raw.getD f 0
    simp only [hword, hword', hraw, hrelS.resolution.raw.keys, hrelS.graph]
    exact (Saturating.Agrees.sum fun k _ => .ofNat _).toInt_ofNat

/-- Two functions of one name, one of them called in a loop. -/
def overloadInLoop : Bytes :=
  Bytes.ofString ("float f(float x) {return x * x;}\nfloat f(int n) {return 1.0 / 3.0;}\n" ++
    "void main() {f(2); for (int i = 0; i < 3; i++) {f(3.0);}}")

/-- By their names both run four times; by their signatures three times and once. -/
theorem names_overapproximate_overloadInLoop : ∃ t, Tree.ofSource overloadInLoop = .ok t ∧
    let byName : CostRun Int64 :=
      .ofTree { nesting := .additive, identity := .name, recursion := .error } t
    let bySignature : CostRun Int64 :=
      .ofTree { nesting := .additive, identity := .signature, recursion := .error } t
    byName.failure = none ∧ byName.lines.toList = [(1, 4), (2, 4), (3, 3)] ∧
      bySignature.lines.toList = [(1, 3), (2, 1), (3, 3)] ∧
      Entrywise (· ≤ ·) bySignature.lines byName.lines ∧
      bySignature.resolution.raw.toList = [("f(float)", 1), ("f(int)", 1), ("main()", 3)] ∧
      (byName.resolution.raw.getD "f" 0).toInt = 2 := by
  let t : Tree := (Tree.ofSource overloadInLoop).toOption.getD .empty
  let byName : CostRun Int64 :=
    .ofTree { nesting := .additive, identity := .name, recursion := .error } t
  let bySignature : CostRun Int64 :=
    .ofTree { nesting := .additive, identity := .signature, recursion := .error } t
  have heval : (Tree.ofSource overloadInLoop).isOk = true ∧ byName.failure = none ∧
      byName.lines.toList = [(1, 4), (2, 4), (3, 3)] ∧
      bySignature.lines.toList = [(1, 3), (2, 1), (3, 3)] ∧
      bySignature.resolution.raw.toList = [("f(float)", 1), ("f(int)", 1), ("main()", 3)] ∧
      ((bySignature.resolution.raw.keys.filter fun s =>
        (bySignature.graph.info s).name == "f").map fun s =>
          (bySignature.resolution.raw.getD s 0).toInt).sum = 2 := by
    simp only [byName, bySignature, CostRun.ofTree, Resolution.ofGraph, Resolution.unresolved,
      Resolution.failure?, Resolution.callersOf, Invocations.ofGraph, processingOrder,
      calledLeaves, sortKeys_eq_insertionSort]
    decide +kernel
  obtain ⟨hok, hfailure, hlinesN, hlinesS, hraw, hsum⟩ := heval
  have hsource : Tree.ofSource overloadInLoop = .ok t := Tree.ofSource_of_isOk hok
  obtain ⟨hsuccess, hcosts⟩ := names_overapproximate_signatures hsource .additive
  refine ⟨t, hsource, hfailure, hlinesN, hlinesS, (hsuccess hfailure).2.2, hraw, ?_⟩
  rw [hcosts "f", hsum]
  decide

end ShaderCost
