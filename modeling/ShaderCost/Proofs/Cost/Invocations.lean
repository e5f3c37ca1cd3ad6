import Mathlib.Algebra.BigOperators.Group.Finset.Basic
import ShaderCost.Proofs.Cost.ProcessingOrder

/-! # Counts solve the call equations

A function is processed once, after all its callers. `PassedOn g loops done counts` says where the
counts stand when the callers of `done` are through: whatever one of them calls has received the
multiplier of each call site times the count of its caller, and nothing else; everything else still
counts as one. The counts on the right are those at the end, for a caller that is through has
nothing more to receive.

`CostRun.counts_ideal` is the outcome in natural numbers, `counts_solve_call_equations` in words.
-/

namespace ShaderCost

namespace CallGraph

/-! ## Recorded call sites -/

/-- All call sites, each with the function it belongs to. -/
def recorded (g : CallGraph) : List (String × CallSite) :=
  g.functions.toList.flatMap fun e => e.2.callSites.map fun site => (e.1, site)

/-- The call sites of all callers of a function. -/
def sitesTo (g : CallGraph) (f : String) : List (String × CallSite) :=
  g.recorded.filter fun s => s.2.callee == f

/-- The call sites of one caller of a function. -/
def sitesFrom (g : CallGraph) (k f : String) : List CallSite :=
  (g.callSites k).filter fun site => site.callee == f

variable {g : CallGraph}

theorem sitesFrom_eq_nil {k f : String} (h : ¬ g.Calls k f) : g.sitesFrom k f = [] := by
  unfold sitesFrom
  rw [List.filter_eq_nil_iff]
  intro site hsite hf
  exact h (List.mem_map.2 ⟨site, hsite, by simpa using hf⟩)

theorem mem_recorded {k : String} {site : CallSite} :
    (k, site) ∈ g.recorded ↔ site ∈ g.callSites k := by
  unfold recorded
  rw [List.mem_flatMap]
  constructor
  · rintro ⟨e, he, hsite⟩
    obtain ⟨site', hsite', heq⟩ := List.mem_map.1 hsite
    cases heq
    rwa [callSites_of_mem_toList he]
  · intro hsite
    have hmem := mem_functions_of_callSites (List.ne_nil_of_mem hsite)
    obtain ⟨info, he⟩ := mem_functions_iff_mem_toList.1 hmem
    rw [callSites_of_mem_toList he] at hsite
    exact ⟨(k, info), he, List.mem_map.2 ⟨site, hsite, rfl⟩⟩

theorem sitesTo_eq_nil_iff {f : String} : g.sitesTo f = [] ↔ ∀ a, ¬ g.Calls a f := by
  unfold sitesTo
  rw [List.filter_eq_nil_iff]
  constructor
  · intro h a ha
    obtain ⟨site, hsite, rfl⟩ := List.mem_map.1 ha
    exact h (a, site) (mem_recorded.2 hsite) (beq_self_eq_true _)
  · rintro h ⟨a, site⟩ hsite hf
    exact h a (List.mem_map.2 ⟨site, mem_recorded.1 hsite, eq_of_beq hf⟩)

/-- A sum over the call sites of a function, caller by caller. -/
theorem sum_sitesTo (g : CallGraph) (f : String) (amount : String → CallSite → Nat) :
    ((g.sitesTo f).map fun s => amount s.1 s.2).sum =
      (g.functions.keys.map fun k => ((g.sitesFrom k f).map (amount k)).sum).sum := by
  have hentry : ∀ e ∈ g.functions.toList, g.callSites e.1 = e.2.callSites := fun _ he =>
    callSites_of_mem_toList he
  unfold sitesTo recorded
  rw [← Std.TreeMap.map_fst_toList_eq_keys, List.map_map]
  generalize g.functions.toList = entries at hentry
  induction entries with
  | nil => rfl
  | cons e entries ih =>
    have he := hentry e List.mem_cons_self
    rw [List.flatMap_cons, List.filter_append, List.map_append, List.sum_append,
      ih fun e' he' => hentry e' (List.mem_cons_of_mem e he'), List.map_cons, List.sum_cons,
      List.filter_map, List.map_map]
    congr 1
    simp only [Function.comp_apply, sitesFrom, he]
    rfl

/-- The same sum over keys that include all callers. -/
theorem sum_sitesTo_eq {keys : List String} (hnodup : keys.Nodup)
    (hmem : ∀ k ∈ keys, k ∈ g.functions) (hcallers : ∀ k, g.callSites k ≠ [] → k ∈ keys)
    (f : String) (amount : String → CallSite → Nat) :
    ((g.sitesTo f).map fun s => amount s.1 s.2).sum =
      (keys.map fun k => ((g.sitesFrom k f).map (amount k)).sum).sum := by
  have hsub : keys.toFinset ⊆ g.functions.keys.toFinset := by
    intro k hk
    rw [List.mem_toFinset] at hk ⊢
    exact Std.TreeMap.mem_keys.2 (hmem k hk)
  rw [sum_sitesTo, ← List.sum_toFinset _ hnodup, ← List.sum_toFinset _ Std.TreeMap.nodup_keys]
  refine (Finset.sum_subset hsub fun k _ hk => ?_).symm
  have hnil : g.callSites k = [] := by
    by_contra hne
    exact hk (List.mem_toFinset.2 (hcallers k hne))
  rw [sitesFrom, hnil]
  rfl

end CallGraph

namespace Invocations

variable {g : CallGraph} {loops : LoopCosts Nat} {counts : Invocations Nat}

/-! ## One step -/

/-- What a caller passes on to a function it calls. -/
def share (g : CallGraph) (loops : LoopCosts Nat) (counts : Invocations Nat) (f k : String) : Nat :=
  ((g.sitesFrom k f).map fun site => loops.multiplier site.node * counts.count k).sum

/-- Where the counts stand when the callers of `done` are through. -/
structure PassedOn (g : CallGraph) (loops : LoopCosts Nat) (done : List String)
    (counts : Invocations Nat) : Prop where
  called : ∀ f, (∃ k ∈ done, g.Calls k f) →
    counts[f]? = some ((done.map (share g loops counts f)).sum)
  uncalled : ∀ f, (∀ k ∈ done, ¬ g.Calls k f) → f ∉ done → counts[f]? = none
  first : ∀ f, (∀ k ∈ done, ¬ g.Calls k f) → counts.count f = 1

/-- What is not through yet has received its shares and nothing else. -/
theorem PassedOn.received {done : List String} (h : PassedOn g loops done counts) (f : String)
    (hf : f ∉ done) : counts.getD f 0 = (done.map (share g loops counts f)).sum := by
  rw [Std.TreeMap.getD_eq_getD_getElem?]
  by_cases hcalled : ∃ k ∈ done, g.Calls k f
  · rw [h.called f hcalled]
    rfl
  · have hno : ∀ k ∈ done, ¬ g.Calls k f := fun k hk hc => hcalled ⟨k, hk, hc⟩
    rw [h.uncalled f hno hf]
    refine (List.sum_eq_zero fun x hx => ?_).symm
    obtain ⟨k, hk, rfl⟩ := List.mem_map.1 hx
    rw [share, CallGraph.sitesFrom_eq_nil (hno k hk)]
    rfl

/-- The counts after a function with an entry is processed. -/
theorem getElem?_process (loops : LoopCosts Nat) (counts : Invocations Nat) {key : String}
    (hmem : key ∈ g.functions) (f : String) :
    (process g loops counts key)[f]? =
      if g.Calls key f then
        some ((counts.insert key (counts.count key)).getD f 0 + share g loops counts f key)
      else (counts.insert key (counts.count key))[f]? := by
  obtain ⟨info, hinfo⟩ := CallGraph.mem_functions_iff.1 hmem
  have hsites := CallGraph.callSites_of_getElem? hinfo
  unfold process
  rw [hinfo]
  simp only [Tally.mul_nat]
  rw [FunctionTable.getElem?_foldl_add CallSite.callee
    (fun site => loops.multiplier site.node * counts.count key), ← hsites]
  rfl

/-- A caller that comes after all callers of its own, and before all that it calls, is through with
one step. -/
theorem process_passedOn {done : List String} (h : PassedOn g loops done counts) {key : String}
    (hmem : key ∈ g.functions) (hcallees : ∀ c, g.Calls key c → c ∉ key :: done) :
    PassedOn g loops (key :: done) (process g loops counts key) := by
  have hget := getElem?_process loops counts hmem
  -- what is through, and the caller itself, keeps its count
  have hkeep : ∀ k ∈ key :: done, (process g loops counts key).count k = counts.count k := by
    intro k hk
    have hnot : ¬ g.Calls key k := fun hc => hcallees k hc hk
    unfold count
    rw [Std.TreeMap.getD_eq_getD_getElem?, hget, if_neg hnot, ← Std.TreeMap.getD_eq_getD_getElem?,
      Std.TreeMap.getD_insert]
    split
    · next heq => rw [← Std.LawfulEqOrd.compare_eq_iff_eq.1 heq]; rfl
    · rfl
  have hshare : ∀ f, ∀ k ∈ key :: done,
      share g loops (process g loops counts key) f k = share g loops counts f k := by
    intro f k hk
    unfold share
    rw [hkeep k hk]
  have hsum : ∀ f, ((key :: done).map (share g loops (process g loops counts key) f)).sum =
      share g loops counts f key + (done.map (share g loops counts f)).sum := by
    intro f
    rw [List.map_congr_left (hshare f), List.map_cons, List.sum_cons]
  have hinsert : ∀ f, f ≠ key → (counts.insert key (counts.count key))[f]? = counts[f]? := by
    intro f hf
    rw [Std.TreeMap.getElem?_insert, if_neg]
    rw [Std.LawfulEqOrd.compare_eq_iff_eq]
    exact hf.symm
  refine ⟨fun f hf => ?_, fun f hf hnew => ?_, fun f hf => ?_⟩
  · rw [hsum, hget]
    by_cases hkf : g.Calls key f
    · obtain ⟨hne, hnot⟩ := not_or.1 (mt List.mem_cons.2 (hcallees f hkf))
      rw [if_pos hkf, Std.TreeMap.getD_eq_getD_getElem?, hinsert f hne,
        ← Std.TreeMap.getD_eq_getD_getElem?, h.received f hnot, Nat.add_comm]
    · have hdone : ∃ k ∈ done, g.Calls k f := by
        obtain ⟨k, hk, hkf'⟩ := hf
        rcases List.mem_cons.1 hk with rfl | hk
        · exact absurd hkf' hkf
        · exact ⟨k, hk, hkf'⟩
      have hzero : share g loops counts f key = 0 := by
        rw [share, CallGraph.sitesFrom_eq_nil hkf]
        rfl
      rw [if_neg hkf, hzero, Nat.zero_add, ← h.called f hdone]
      by_cases hne : f = key
      · subst hne
        rw [Std.TreeMap.getElem?_insert_self, count, Std.TreeMap.getD_eq_getD_getElem?,
          h.called f hdone]
        rfl
      · exact hinsert f hne
  · obtain ⟨hne, hnot⟩ := not_or.1 (mt List.mem_cons.2 hnew)
    rw [hget, if_neg (hf key List.mem_cons_self), hinsert f hne]
    exact h.uncalled f (fun k hk => hf k (List.mem_cons_of_mem key hk)) hnot
  · have hold := h.first f fun k hk => hf k (List.mem_cons_of_mem key hk)
    unfold count at hold ⊢
    rw [Std.TreeMap.getD_eq_getD_getElem?, hget, if_neg (hf key List.mem_cons_self)]
    by_cases hne : f = key
    · subst hne
      rw [Std.TreeMap.getElem?_insert_self, count, hold]
      rfl
    · rw [hinsert f hne, ← Std.TreeMap.getD_eq_getD_getElem?, hold]

/-! ## All callers -/

theorem empty_passedOn (g : CallGraph) (loops : LoopCosts Nat) : PassedOn g loops [] ∅ := by
  refine ⟨?_, fun f _ _ => Std.TreeMap.getElem?_emptyc, fun f _ => Std.TreeMap.getD_emptyc⟩
  rintro f ⟨k, hk, -⟩
  cases hk

/-- Processed backwards, the callers of a schedule pass on all counts. The induction is on what
comes later in the schedule and is therefore through. -/
theorem foldr_process_passedOn (loops : LoopCosts Nat) {order : List String}
    (h : g.Schedule order) :
    ∀ later earlier : List String, order = earlier ++ later →
      PassedOn g loops later (later.foldr (fun key counts => process g loops counts key) ∅) := by
  intro later
  induction later with
  | nil => intro _ _; exact empty_passedOn g loops
  | cons key later ih =>
    intro earlier heq
    have hmem : key ∈ order := heq ▸ List.mem_append_right _ List.mem_cons_self
    have hnodup := heq ▸ h.nodup
    refine process_passedOn (ih (earlier ++ [key]) (by rw [heq, List.append_assoc]; rfl))
      (CallGraph.mem_functions_of_callSites (h.caller hmem)) fun c hc hlate => ?_
    rcases h.callee_before heq hc with hnil | hearly
    · refine h.caller (k := c) ?_ hnil
      exact heq ▸ List.mem_append_right _ hlate
    · exact (List.disjoint_of_nodup_append hnodup) hearly hlate

/-- A function without call sites passes nothing on. -/
theorem count_process_leaf {key : String} (hnil : g.callSites key = []) (f : String) :
    (process g loops counts key).count f = counts.count f := by
  unfold process
  split
  · rfl
  · next info hinfo =>
    rw [← CallGraph.callSites_of_getElem? hinfo, hnil, List.foldl_nil]
    unfold count
    rw [Std.TreeMap.getD_insert]
    split
    · next heq => rw [Std.LawfulEqOrd.compare_eq_iff_eq.1 heq]
    · rfl

/-- The counts at the end are those when all callers are through. -/
theorem count_ofGraph {r : Resolution Nat} (hg : g.WellFormed) (hr : r.Sound g)
    (hall : r.unresolved g = []) (loops : LoopCosts Nat) (f : String) :
    (ofGraph g loops r).count f =
      (r.order.foldr (fun key counts => process g loops counts key)
        ∅ : Invocations Nat).count f := by
  unfold ofGraph
  rw [processingOrder_of_resolved hg hr hall, List.foldl_reverse, List.foldr_append]
  generalize r.order.foldr _ _ = counts
  have hleaves : ∀ key ∈ calledLeaves g g.functions.toList, g.callSites key = [] := fun key hkey =>
    (CallGraph.mem_calledLeaves.1 hkey).1
  generalize calledLeaves g g.functions.toList = leaves at hleaves
  induction leaves with
  | nil => rfl
  | cons key leaves ih =>
    rw [List.foldr_cons, count_process_leaf (hleaves key List.mem_cons_self)]
    exact ih fun k hk => hleaves k (List.mem_cons_of_mem key hk)

/-- A function that nobody calls counts once. -/
theorem count_of_uncalled {r : Resolution Nat} (hg : g.WellFormed) (hr : r.Sound g)
    (hall : r.unresolved g = []) (loops : LoopCosts Nat) {f : String} (hf : ∀ a, ¬ g.Calls a f) :
    (ofGraph g loops r).count f = 1 := by
  rw [count_ofGraph hg hr hall]
  exact (foldr_process_passedOn loops hr.schedule r.order [] rfl).first f fun a _ => hf a

/-- Any other counts as often as its call sites run. -/
theorem count_of_called {r : Resolution Nat} (hg : g.WellFormed) (hr : r.Sound g)
    (hall : r.unresolved g = []) (loops : LoopCosts Nat) {f : String} (hf : ∃ a, g.Calls a f) :
    (ofGraph g loops r).count f = ((g.sitesTo f).map fun s =>
      loops.multiplier s.2.node * (ofGraph g loops r).count s.1).sum := by
  obtain ⟨a, ha⟩ := hf
  have hmem := hr.mem_order hall
  have hcalled := (foldr_process_passedOn loops hr.schedule r.order [] rfl).called f
    ⟨a, (hmem a).2 fun hnil => CallGraph.callSites_eq_nil_iff.1 hnil f ha, ha⟩
  have hcounts := count_ofGraph hg hr hall loops
  rw [CallGraph.sum_sitesTo_eq hr.schedule.nodup
    (fun k hk => CallGraph.mem_functions_of_callSites ((hmem k).1 hk)) (fun k => (hmem k).2) f
    fun k site => loops.multiplier site.node * (ofGraph g loops r).count k]
  simp only [hcounts]
  rw [count, Std.TreeMap.getD_eq_getD_getElem?, hcalled]
  rfl

end Invocations

theorem Resolution.failure?_of_resolved {α : Type} {g : CallGraph} {r : Resolution α}
    (h : r.unresolved g = []) (mode : RecursionMode) : r.failure? g mode = none := by
  unfold Resolution.failure?
  rw [h]
  rfl

/-- Everything settles where no function is on a circle. -/
theorem CostRun.unresolved_eq_nil_iff {α : Type} [Tally α] {options : CostOptions} {t : Tree}
    {run : CostRun α} (hrun : run = .ofTree options t) :
    run.resolution.unresolved run.graph = [] ↔ ¬ ∃ c, Relation.TransGen run.graph.Calls c c := by
  have hiff : run.resolution.unresolved run.graph ≠ [] ↔
      ∃ c, Relation.TransGen run.graph.Calls c c := by
    rw [hrun, ofTree_graph, ofTree_resolution]
    exact Resolution.ofGraph_unresolved_ne_nil_iff (CallGraph.ofTree_wellFormed t options.identity)
  rw [← hiff, ne_eq, not_not]

/-- Where circles are an error, the analysis succeeds if there are none. -/
theorem CostRun.failure_eq_none_iff {α : Type} [Tally α] {options : CostOptions} {t : Tree}
    {run : CostRun α} (hrun : run = .ofTree options t) (hmode : options.recursion = .error) :
    run.failure = none ↔ ¬ ∃ c, Relation.TransGen run.graph.Calls c c := by
  rw [← unresolved_eq_nil_iff hrun, hrun, ofTree_failure, ← hrun, hmode,
    ← Option.not_isSome_iff_eq_none, Resolution.failure?_error_isSome, ne_eq, not_not]

/-- The call equations in natural numbers. -/
theorem CostRun.counts_ideal {options : CostOptions} {t : Tree} {run : CostRun Nat}
    (hrun : run = .ofTree options t) (hall : run.resolution.unresolved run.graph = [])
    (f : String) :
    (run.graph.sitesTo f = [] → run.counts.count f = 1) ∧
      (run.graph.sitesTo f ≠ [] → run.counts.count f = ((run.graph.sitesTo f).map fun s =>
        run.loops.multiplier s.2.node * run.counts.count s.1).sum) := by
  have hg : run.graph.WellFormed := by
    rw [hrun, ofTree_graph]
    exact CallGraph.ofTree_wellFormed t options.identity
  have hr : run.resolution.Sound run.graph := by
    rw [hrun, ofTree_graph, ofTree_resolution]
    exact Resolution.ofGraph_sound _ _ _
  have hfailure : run.failure = none := by
    rw [hrun, ofTree_failure, ← hrun]
    exact Resolution.failure?_of_resolved hall _
  have hcounts : run.counts = .ofGraph run.graph run.loops run.resolution := by
    rw [hrun, ofTree_counts (hrun ▸ hfailure), ofTree_graph, ofTree_loops]
  rw [hcounts]
  refine ⟨fun h => ?_, fun h => ?_⟩
  · exact Invocations.count_of_uncalled hg hr hall _ (CallGraph.sitesTo_eq_nil_iff.1 h)
  · rw [ne_eq, CallGraph.sitesTo_eq_nil_iff] at h
    exact Invocations.count_of_called hg hr hall _ (by simpa using h)

/-- **Counts solve the call equations.** Where nothing stays unsettled, a function that no call site
names counts once, and any other counts as often as its call sites run: each as often as its loops
say for one run of the caller, times the count of the caller, cut off at the cap. -/
theorem counts_solve_call_equations (options : CostOptions) (t : Tree) :
    let run : CostRun Int64 := .ofTree options t
    run.resolution.unresolved run.graph = [] → ∀ f : String,
      (run.graph.sitesTo f = [] → run.counts.count f = 1) ∧
      (run.graph.sitesTo f ≠ [] → (run.counts.count f).toInt = min Saturating.cap.toInt
        ((run.graph.sitesTo f).map fun s =>
          (run.loops.multiplier s.2.node).toInt * (run.counts.count s.1).toInt).sum) := by
  intro run hall f
  have hrel : (CostRun.ofTree options t : CostRun Nat).Related Saturating.ofNat run :=
    CostRun.ofTree_related Saturating.ofNat_hom options t
  obtain ⟨hone, hsum⟩ := CostRun.counts_ideal rfl (by
    unfold Resolution.unresolved
    rw [← hrel.graph, ← hrel.resolution.isResolved]
    exact hall) f
  have hcount := Invocations.count_image Saturating.ofNat_hom hrel.counts
  have hmultiplier := hrel.loops.multiplier Saturating.ofNat_hom
  rw [hrel.graph]
  refine ⟨fun h => ?_, fun h => ?_⟩
  · rw [hcount, hone h]
    rfl
  · simp only [hcount, hmultiplier]
    rw [hsum h]
    exact (Saturating.Agrees.sum fun s _ => (Saturating.Agrees.ofNat _).mul (.ofNat _)).toInt_ofNat

/-- A function that runs three times in a loop, once after it and once in another function. -/
def sharedCallee : Tree where
  root := some 11
  nodes := #[
    { form := .aggregate, op := .call, name := "tap" },
    { form := .function, name := "blur", operands := [0] },
    { form := .symbol, name := "i" },
    { form := .constant (.int 3) },
    { form := .binary, op := .lessThan, operands := [2, 3] },
    { form := .aggregate, op := .call, name := "tap" },
    { form := .loop ⟨some 4, some 5, none, false⟩ },
    { form := .aggregate, op := .call, name := "tap" },
    { form := .aggregate, op := .call, name := "blur" },
    { form := .function, name := "main", operands := [6, 7, 8] },
    { form := .function, name := "tap" },
    { form := .sequence, operands := [10, 1, 9] }]

theorem counts_sharedCallee :
    let run : CostRun Int64 := .ofTree {} sharedCallee
    run.resolution.unresolved run.graph = [] ∧
      run.counts.count "main" = 1 ∧ (run.counts.count "tap").toInt = 5 := by
  intro run
  have hall : run.resolution.unresolved run.graph = [] := by
    simp only [run, CostRun.ofTree_graph, CostRun.ofTree_resolution, Resolution.unresolved,
      Resolution.ofGraph, Resolution.callersOf, sortKeys_eq_insertionSort]
    decide +kernel
  have hsites : run.graph.sitesTo "main" = [] ∧
      run.graph.sitesTo "blur" = [("main", ⟨"blur", 8, 0⟩)] ∧
      run.graph.sitesTo "tap" =
        [("blur", ⟨"tap", 0, 0⟩), ("main", ⟨"tap", 5, 0⟩), ("main", ⟨"tap", 7, 0⟩)] := by
    simp only [run, CostRun.ofTree_graph]
    decide +kernel
  obtain ⟨hsmain, hsblur, hstap⟩ := hsites
  have hloops : run.loops.multiplier 0 = 1 ∧ run.loops.multiplier 5 = 3 ∧
      run.loops.multiplier 7 = 1 ∧ run.loops.multiplier 8 = 1 := by
    simp only [run, CostRun.ofTree_loops]
    decide +kernel
  obtain ⟨h0, h5, h7, h8⟩ := hloops
  have heq := counts_solve_call_equations {} sharedCallee hall
  have hmain : run.counts.count "main" = 1 := (heq "main").1 hsmain
  have hblur : (run.counts.count "blur").toInt = 1 := by
    rw [(heq "blur").2 (by rw [hsblur]; exact List.cons_ne_nil _ _), hsblur]
    change min _ [(run.loops.multiplier 8).toInt * (run.counts.count "main").toInt].sum = 1
    rw [h8, hmain]
    decide
  refine ⟨hall, hmain, ?_⟩
  rw [(heq "tap").2 (by rw [hstap]; exact List.cons_ne_nil _ _), hstap]
  change min _ [(run.loops.multiplier 0).toInt * (run.counts.count "blur").toInt,
    (run.loops.multiplier 5).toInt * (run.counts.count "main").toInt,
    (run.loops.multiplier 7).toInt * (run.counts.count "main").toInt].sum = 5
  rw [h0, h5, h7, hmain, hblur]
  decide

end ShaderCost
