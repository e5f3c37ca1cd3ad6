import ShaderCost.Proofs.Cost.Invocations

/-! # Counts beside a circle of calls

Where a circle of calls is tolerated, the callers that never settled are processed in descending
order of their keys, whatever they call. A count is passed on too early when a caller of the
function is still to come: the function has then started from one, and what the caller adds comes
on top.

For one function `f` this is exact. Let no caller of `f` be passed on too early (`InTime`), which
for a caller that runs into a circle means that its own callers have greater keys. Then `f` counts
as often as its call sites run, and once more when none of its callers comes before it
(`count_ofGraph_of_inTime`, in words `counts_beside_circle`). So the call equation holds when some
caller comes before `f`, and the count is too great by one when there are callers but none of them
does (`count_chainIntoCircle`).
-/

namespace ShaderCost

theorem Resolution.Sound.not_reachesCircle {α : Type} {g : CallGraph} {r : Resolution α}
    (h : r.Sound g) {key : String} (hkey : r.isResolved key = true) : ¬ g.ReachesCircle key := by
  rcases (h.resolved key).1 hkey with ⟨-, hnil⟩ | horder
  · intro hcircle
    obtain ⟨b, hb, -⟩ := hcircle.exists_callee
    exact CallGraph.callSites_eq_nil_iff.1 hnil b hb
  · exact h.schedule.not_reachesCircle horder

/-- A function with one call site has one caller. -/
theorem CallGraph.calls_iff_eq {g : CallGraph} {f caller : String} {site : CallSite}
    (h : g.sitesTo f = [(caller, site)]) (k : String) : g.Calls k f ↔ k = caller := by
  have hmem : g.Calls k f ↔ ∃ site, (k, site) ∈ g.sitesTo f := by
    simp only [sitesTo, List.mem_filter, mem_recorded, beq_iff_eq]
    exact List.mem_map
  rw [hmem, h]
  simp

namespace Invocations

variable {g : CallGraph} {loops : LoopCosts Nat}

/-! ## One step -/

/-- A function that is not called keeps its count, also when it is processed itself. -/
theorem count_process_of_not_calls {key f : String} (h : ¬ g.Calls key f)
    (counts : Invocations Nat) : (process g loops counts key).count f = counts.count f := by
  by_cases hmem : key ∈ g.functions
  · unfold count
    rw [Std.TreeMap.getD_eq_getD_getElem?, getElem?_process loops counts hmem, if_neg h,
      ← Std.TreeMap.getD_eq_getD_getElem?, Std.TreeMap.getD_insert]
    split
    · next heq => rw [← Std.LawfulEqOrd.compare_eq_iff_eq.1 heq]; rfl
    · rfl
  · have hnone : g.functions[key]? = none := Std.TreeMap.getElem?_eq_none hmem
    simp only [process, hnone]

/-- What one step does to the entry of another function. -/
theorem getElem?_process_of_ne (loops : LoopCosts Nat) (counts : Invocations Nat) {key f : String}
    (hmem : key ∈ g.functions) (hne : f ≠ key) : (process g loops counts key)[f]? =
      if g.Calls key f then some (counts.getD f 0 + share g loops counts f key)
      else counts[f]? := by
  have hcmp : compare key f ≠ .eq := by
    rw [ne_eq, Std.LawfulEqOrd.compare_eq_iff_eq]
    exact hne.symm
  rw [getElem?_process loops counts hmem, Std.TreeMap.getD_insert, Std.TreeMap.getElem?_insert]
  simp only [hcmp, if_false]

/-! ## Many steps -/

/-- The counts after the functions of a list are processed, the last of them first. -/
def after (g : CallGraph) (loops : LoopCosts Nat) (keys : List String)
    (counts : Invocations Nat) : Invocations Nat :=
  keys.foldr (fun key counts => process g loops counts key) counts

theorem after_append (earlier later : List String) (counts : Invocations Nat) :
    after g loops (earlier ++ later) counts =
      after g loops earlier (after g loops later counts) := by
  simp [after]

theorem count_after_of_not_calls {keys : List String} {f : String}
    (h : ∀ k ∈ keys, ¬ g.Calls k f) (counts : Invocations Nat) :
    (after g loops keys counts).count f = counts.count f := by
  induction keys with
  | nil => rfl
  | cons k keys ih =>
    have hk := h k List.mem_cons_self
    have hkeys := ih fun k' hk' => h k' (List.mem_cons_of_mem k hk')
    exact (count_process_of_not_calls hk _).trans hkeys

/-- A function that is not processed itself receives the shares of those that are. The shares are
given by final counts, which requires that no caller of the function is passed on too early. -/
theorem after_received (counts final : Invocations Nat) {keys : List String} {f : String}
    (hf : f ∉ keys) (hmem : ∀ k ∈ keys, k ∈ g.functions)
    (hfinal : ∀ earlier later k, keys = earlier ++ k :: later → g.Calls k f →
      (after g loops later counts).count k = final.count k) :
    (after g loops keys counts).getD f 0 =
        counts.getD f 0 + (keys.map (share g loops final f)).sum ∧
      (f ∈ after g loops keys counts ↔ f ∈ counts ∨ ∃ k ∈ keys, g.Calls k f) := by
  induction keys with
  | nil => simp [after]
  | cons k keys ih =>
    obtain ⟨hne, hf⟩ := not_or.1 (mt List.mem_cons.2 hf)
    obtain ⟨hget, hin⟩ := ih hf (fun k' hk' => hmem k' (List.mem_cons_of_mem k hk'))
      fun earlier later k' heq => hfinal (k :: earlier) later k' (by rw [heq]; rfl)
    have hstep := getElem?_process_of_ne loops (after g loops keys counts)
      (hmem k List.mem_cons_self) hne
    change (process g loops (after g loops keys counts) k).getD f 0 = _ ∧
      (f ∈ process g loops (after g loops keys counts) k ↔ _)
    rw [Std.TreeMap.getD_eq_getD_getElem?, Std.TreeMap.mem_iff_isSome_getElem?, hstep,
      List.map_cons, List.sum_cons]
    by_cases hcalls : g.Calls k f
    · have hshare : share g loops (after g loops keys counts) f k = share g loops final f k := by
        unfold share
        rw [hfinal [] keys k rfl hcalls]
      have hcaller : ∃ k' ∈ k :: keys, g.Calls k' f := ⟨k, List.mem_cons_self, hcalls⟩
      simp only [if_pos hcalls, Option.getD_some, Option.isSome_some, hget, hshare, hcaller,
        or_true]
      exact ⟨by omega, trivial⟩
    · have hzero : share g loops final f k = 0 := by
        rw [share, CallGraph.sitesFrom_eq_nil hcalls]
        rfl
      rw [if_neg hcalls, ← Std.TreeMap.getD_eq_getD_getElem?,
        ← Std.TreeMap.mem_iff_isSome_getElem?, hget, hin, hzero]
      simp [hcalls]

/-! ## One function -/

theorem count_eq_getD_of_mem {counts : Invocations Nat} {f : String} (h : f ∈ counts) :
    counts.count f = counts.getD f 0 := by
  obtain ⟨n, hn⟩ := Option.isSome_iff_exists.1 (Std.TreeMap.mem_iff_isSome_getElem?.1 h)
  simp only [count, Std.TreeMap.getD_eq_getD_getElem?, hn, Option.getD_some]

/-- A function between those processed after it, `earlier`, and those processed before it,
`later`. -/
theorem count_after_split {earlier later : List String} {f : String} {final : Invocations Nat}
    (hearlier : f ∉ earlier) (hlater : f ∉ later) (hself : ¬ g.Calls f f)
    (hmem : ∀ k ∈ earlier ++ f :: later, k ∈ g.functions)
    (hfinal : ∀ xs ys k, earlier ++ f :: later = xs ++ k :: ys → g.Calls k f →
      (after g loops ys ∅).count k = final.count k) :
    (after g loops (earlier ++ f :: later) ∅).count f =
      ((earlier ++ f :: later).map (share g loops final f)).sum +
        if ∃ k ∈ later, g.Calls k f then 0 else 1 := by
  have hf : f ∈ g.functions := hmem f (by simp)
  -- what has come in when its turn comes
  obtain ⟨hin, hcalled⟩ := after_received ∅ final hlater
    (fun k hk => hmem k (by simp [hk]))
    fun xs ys k heq => hfinal (earlier ++ f :: xs) ys k (by rw [heq]; simp)
  have hown : (after g loops later ∅).count f = (later.map (share g loops final f)).sum +
      if ∃ k ∈ later, g.Calls k f then 0 else 1 := by
    by_cases h : ∃ k ∈ later, g.Calls k f
    · rw [if_pos h, count_eq_getD_of_mem (hcalled.2 (Or.inr h)), hin]
      simp
    · have hnot : f ∉ after g loops later ∅ := by
        rw [hcalled]
        simpa using h
      have hzero : (later.map (share g loops final f)).sum = 0 := by
        rw [Std.TreeMap.getD_eq_fallback hnot, Std.TreeMap.getD_emptyc, Nat.zero_add] at hin
        exact hin.symm
      rw [if_neg h, hzero, count, Std.TreeMap.getD_eq_fallback hnot]
      rfl
  -- its turn, after which it has an entry
  have hturn : (after g loops (f :: later) ∅)[f]? = some ((after g loops later ∅).count f) := by
    change (process g loops (after g loops later ∅) f)[f]? = _
    rw [getElem?_process loops _ hf, if_neg hself, Std.TreeMap.getElem?_insert_self]
  have hentry : f ∈ after g loops (f :: later) ∅ := by
    rw [Std.TreeMap.mem_iff_isSome_getElem?, hturn]
    rfl
  -- what comes in afterwards
  obtain ⟨hrest, hstays⟩ := after_received (after g loops (f :: later) ∅) final hearlier
    (fun k hk => hmem k (by simp [hk])) fun xs ys k heq hk => by
      rw [← after_append]
      exact hfinal xs (ys ++ f :: later) k (by rw [heq]; simp) hk
  have hself0 : share g loops final f f = 0 := by
    rw [share, CallGraph.sitesFrom_eq_nil hself]
    rfl
  rw [after_append, count_eq_getD_of_mem (hstays.2 (Or.inl hentry)), hrest,
    Std.TreeMap.getD_eq_getD_getElem?, hturn, Option.getD_some, hown]
  simp only [List.map_append, List.map_cons, List.sum_append, List.sum_cons, hself0]
  omega

/-! ## All callers -/

variable {r : Resolution Nat} {f : String}

/-- No caller of `f` that never settled is passed on before one of its own callers. -/
def InTime (g : CallGraph) (r : Resolution Nat) (f : String) : Prop :=
  ∀ k a, g.Calls k f → g.Calls a k → r.isResolved k = false → k < a

/-- Some caller of `f` is processed before it. -/
def HasEarlyCaller (g : CallGraph) (r : Resolution Nat) (f : String) : Prop :=
  ∃ k, g.Calls k f ∧ (r.isResolved f = false → f < k)

theorem InTime.not_calls_self (h : InTime g r f) (hr : r.Sound g) {k : String}
    (hk : g.Calls k f) : ¬ g.Calls k k := by
  intro hkk
  cases hres : r.isResolved k with
  | true => exact hr.not_reachesCircle hres ⟨k, .refl, .single hkk⟩
  | false => exact lt_irrefl k (h k k hk hkk hres)

/-- What is processed from a caller of `f` on does not call it. -/
theorem InTime.not_calls (h : InTime g r f) (hg : g.WellFormed) (hl : g.ListsCallers)
    (hr : r.Sound g) {k : String} (hk : g.Calls k f) {xs ys : List String}
    (heq : processingOrder g r = xs ++ k :: ys) : ∀ x ∈ xs ++ [k], ¬ g.Calls x k := by
  intro x hx hxk
  rcases List.mem_append.1 hx with hx | hx
  · have hpair := heq ▸ processingOrder_pairwise hg hl hr
    obtain ⟨hsettled, hleft⟩ := (List.pairwise_append.1 hpair).2.2 x hx k List.mem_cons_self
    cases hres : r.isResolved x with
    | true => exact hsettled hres hxk
    | false =>
      obtain ⟨hk', hlt⟩ := hleft hres
      exact lt_asymm hlt (h k x hk hxk hk')
  · rw [List.mem_singleton.1 hx] at hxk
    exact h.not_calls_self hr hk hxk

/-- A caller that is processed before `f` stands behind it in the order. -/
theorem hasEarlyCaller_iff (hg : g.WellFormed) (hl : g.ListsCallers) (hr : r.Sound g)
    (hself : ¬ g.Calls f f) {earlier later : List String}
    (heq : processingOrder g r = earlier ++ f :: later) :
    HasEarlyCaller g r f ↔ ∃ k ∈ later, g.Calls k f := by
  have hpair := heq ▸ processingOrder_pairwise hg hl hr
  obtain ⟨-, hrest, hcross⟩ := List.pairwise_append.1 hpair
  constructor
  · rintro ⟨k, hk, hlt⟩
    have hmem : k ∈ processingOrder g r := (mem_processingOrder hg hl hr).2
      (Or.inl fun hnil => CallGraph.callSites_eq_nil_iff.1 hnil f hk)
    rw [heq, List.mem_append, List.mem_cons] at hmem
    rcases hmem with hmem | rfl | hmem
    · obtain ⟨hsettled, hleft⟩ := hcross k hmem f List.mem_cons_self
      cases hres : r.isResolved k with
      | true => exact absurd hk (hsettled hres)
      | false =>
        obtain ⟨hf, hkf⟩ := hleft hres
        exact absurd (hlt hf) (lt_asymm hkf)
    · exact absurd hk hself
    · exact ⟨k, hmem, hk⟩
  · rintro ⟨k, hmem, hk⟩
    exact ⟨k, hk, fun hf => (((List.pairwise_cons.1 hrest).1 k hmem).2 hf).2⟩

theorem ofGraph_eq_after (g : CallGraph) (loops : LoopCosts Nat) (r : Resolution Nat) :
    ofGraph g loops r = after g loops (processingOrder g r) ∅ := by
  rw [ofGraph, List.foldl_reverse, after]

theorem count_ofGraph_of_uncalled (hf : ∀ a, ¬ g.Calls a f) : (ofGraph g loops r).count f = 1 := by
  rw [ofGraph_eq_after, count_after_of_not_calls fun k _ => hf k]
  exact Std.TreeMap.getD_emptyc

/-- The counts of all callers that are passed on in time reach `f`, on top of the one it starts from
unless a caller is processed before it. -/
theorem count_ofGraph_of_inTime (hg : g.WellFormed) (hl : g.ListsCallers) (hr : r.Sound g)
    (h : InTime g r f) (hf : ∃ a, g.Calls a f) :
    ∃ start, (ofGraph g loops r).count f = ((g.sitesTo f).map fun s =>
        loops.multiplier s.2.node * (ofGraph g loops r).count s.1).sum + start ∧
      (HasEarlyCaller g r f → start = 0) ∧ (¬ HasEarlyCaller g r f → start = 1) := by
  have hmem : ∀ k ∈ processingOrder g r, k ∈ g.functions := by
    intro k hk
    rcases (mem_processingOrder hg hl hr).1 hk with hsites | ⟨a, ha⟩
    · exact CallGraph.mem_functions_of_callSites hsites
    · exact hg.callee_mem ha
  have hcallers : ∀ k, g.callSites k ≠ [] → k ∈ processingOrder g r := fun k hk =>
    (mem_processingOrder hg hl hr).2 (Or.inl hk)
  have hnodup := nodup_processingOrder hr
  have hself : ¬ g.Calls f f := fun hff => h.not_calls_self hr hff hff
  have hin : f ∈ processingOrder g r := (mem_processingOrder hg hl hr).2 (Or.inr hf)
  obtain ⟨earlier, later, heq⟩ := List.append_of_mem hin
  rw [CallGraph.sum_sitesTo_eq hnodup hmem hcallers f fun k site =>
    loops.multiplier site.node * (ofGraph g loops r).count k, hasEarlyCaller_iff hg hl hr hself heq]
  have hfinal : ∀ xs ys k, processingOrder g r = xs ++ k :: ys → g.Calls k f →
      (after g loops ys ∅).count k = (ofGraph g loops r).count k := by
    intro xs ys k hsplit hk
    have hquiet := h.not_calls hg hl hr hk hsplit
    rw [ofGraph_eq_after, hsplit, List.append_cons, after_append, count_after_of_not_calls hquiet]
  rw [heq] at hnodup hmem hfinal
  have hsides := List.nodup_append'.1 hnodup
  have hcount := count_after_split (fun hf' => hsides.2.2 hf' List.mem_cons_self)
    (List.nodup_cons.1 hsides.2.1).1 hself hmem hfinal
  rw [← heq, ← ofGraph_eq_after] at hcount
  refine ⟨_, hcount, fun hlater => if_pos hlater, fun hlater => if_neg hlater⟩

end Invocations

/-! ## Runs that keep going -/

section

variable {nesting : NestingPolicy} {identity : FunctionIdentity} {t : Tree}

theorem CostRun.counts_keep {run : CostRun Nat}
    (hrun : run = .ofTree { nesting, identity, recursion := .keep } t) :
    run.counts = .ofGraph run.graph run.loops run.resolution := by
  have hfailure : run.failure = none := by
    rw [hrun, ofTree_failure]
    exact Resolution.failure?_keep
  rw [hrun, ofTree_counts (hrun ▸ hfailure), ofTree_graph, ofTree_loops]

/-- What calls something runs into a circle exactly when it never settles. -/
theorem CostRun.isResolved_eq_false_iff {run : CostRun Nat} {options : CostOptions}
    (hrun : run = .ofTree options t) {key : String} (hmem : key ∈ run.graph.functions) :
    run.resolution.isResolved key = false ↔ run.graph.ReachesCircle key := by
  subst hrun
  rw [ofTree_graph] at hmem ⊢
  rw [ofTree_resolution, ← Bool.not_eq_true, Resolution.ofGraph_isResolved_iff
    (CallGraph.ofTree_wellFormed t options.identity)]
  simp [hmem]

/-- The call equation of a function whose callers are passed on in time, in natural numbers. -/
theorem CostRun.count_keep_ideal {run : CostRun Nat}
    (hrun : run = .ofTree { nesting, identity, recursion := .keep } t) {f : String}
    (htime : ∀ k a, run.graph.Calls k f → run.graph.Calls a k → run.graph.ReachesCircle k → k < a)
    (hsites : run.graph.sitesTo f ≠ []) :
    ∃ start, run.counts.count f = ((run.graph.sitesTo f).map fun s =>
        run.loops.multiplier s.2.node * run.counts.count s.1).sum + start ∧
      ((∃ k, run.graph.Calls k f ∧ (run.graph.ReachesCircle f → f < k)) → start = 0) ∧
      ((¬ ∃ k, run.graph.Calls k f ∧ (run.graph.ReachesCircle f → f < k)) → start = 1) := by
  have hg : run.graph.WellFormed := by
    rw [hrun, ofTree_graph]
    exact CallGraph.ofTree_wellFormed t identity
  have hl : run.graph.ListsCallers := by
    rw [hrun, ofTree_graph]
    exact CallGraph.ofTree_listsCallers t identity
  have hr : run.resolution.Sound run.graph := by
    rw [hrun, ofTree_graph, ofTree_resolution]
    exact Resolution.ofGraph_sound _ _ _
  have hcalled : ∃ a, run.graph.Calls a f := by
    rw [ne_eq, CallGraph.sitesTo_eq_nil_iff] at hsites
    simpa using hsites
  have hinTime : Invocations.InTime run.graph run.resolution f := fun k a hk ha hres =>
    htime k a hk ha ((isResolved_eq_false_iff hrun hk.caller_mem).1 hres)
  have hearly : Invocations.HasEarlyCaller run.graph run.resolution f ↔
      ∃ k, run.graph.Calls k f ∧ (run.graph.ReachesCircle f → f < k) := by
    obtain ⟨a, ha⟩ := hcalled
    unfold Invocations.HasEarlyCaller
    rw [isResolved_eq_false_iff hrun (hg.callee_mem ha)]
  rw [← hearly, counts_keep hrun]
  exact Invocations.count_ofGraph_of_inTime hg hl hr hinTime hcalled

/-- The same in words, cut off at the cap. -/
theorem CostRun.count_keep {run : CostRun Int64}
    (hrun : run = .ofTree { nesting, identity, recursion := .keep } t) {f : String}
    (htime : ∀ k a, run.graph.Calls k f → run.graph.Calls a k → run.graph.ReachesCircle k → k < a)
    (hsites : run.graph.sitesTo f ≠ []) :
    ∃ start : Nat, (run.counts.count f).toInt = min Saturating.cap.toInt
        (((run.graph.sitesTo f).map fun s =>
          (run.loops.multiplier s.2.node).toInt * (run.counts.count s.1).toInt).sum + start) ∧
      ((∃ k, run.graph.Calls k f ∧ (run.graph.ReachesCircle f → f < k)) → start = 0) ∧
      ((¬ ∃ k, run.graph.Calls k f ∧ (run.graph.ReachesCircle f → f < k)) → start = 1) := by
  have hrel : (CostRun.ofTree { nesting, identity, recursion := .keep } t : CostRun Nat).Related
      Saturating.ofNat run := hrun ▸ CostRun.ofTree_related Saturating.ofNat_hom _ t
  have hcount := Invocations.count_image Saturating.ofNat_hom hrel.counts
  have hmultiplier := hrel.loops.multiplier Saturating.ofNat_hom
  rw [hrel.graph] at htime hsites ⊢
  obtain ⟨start, heq, hstart⟩ := count_keep_ideal rfl htime hsites
  refine ⟨start, ?_, hstart⟩
  simp only [hcount, hmultiplier]
  rw [heq]
  exact ((Saturating.Agrees.sum fun s _ => (Saturating.Agrees.ofNat _).mul (.ofNat _)).add
    (.natCast start)).toInt_ofNat

theorem CostRun.count_keep_of_uncalled {run : CostRun Int64}
    (hrun : run = .ofTree { nesting, identity, recursion := .keep } t) {f : String}
    (hsites : run.graph.sitesTo f = []) : run.counts.count f = 1 := by
  have hrel : (CostRun.ofTree { nesting, identity, recursion := .keep } t : CostRun Nat).Related
      Saturating.ofNat run := hrun ▸ CostRun.ofTree_related Saturating.ofNat_hom _ t
  rw [hrel.graph, CallGraph.sitesTo_eq_nil_iff] at hsites
  rw [Invocations.count_image Saturating.ofNat_hom hrel.counts, counts_keep rfl,
    Invocations.count_ofGraph_of_uncalled hsites]
  rfl

/-- **Counts beside a circle.** Where circles of calls are tolerated, a function that no call site
names counts once. Let every caller of `f` that runs into a circle have a smaller key than its own
callers. Then `f` counts as often as its call sites run, cut off at the cap, if `f` settles or some
caller has a greater key than `f`, and once more otherwise. -/
theorem counts_beside_circle (nesting : NestingPolicy) (identity : FunctionIdentity) (t : Tree)
    (f : String) :
    let run : CostRun Int64 := .ofTree { nesting, identity, recursion := .keep } t
    let called : Int := ((run.graph.sitesTo f).map fun s =>
      (run.loops.multiplier s.2.node).toInt * (run.counts.count s.1).toInt).sum
    let early := ∃ k, run.graph.Calls k f ∧ (run.graph.ReachesCircle f → f < k)
    (∀ k a, run.graph.Calls k f → run.graph.Calls a k → run.graph.ReachesCircle k → k < a) →
      (run.graph.sitesTo f = [] → run.counts.count f = 1) ∧
      (run.graph.sitesTo f ≠ [] → early →
        (run.counts.count f).toInt = min Saturating.cap.toInt called) ∧
      (run.graph.sitesTo f ≠ [] → ¬ early →
        (run.counts.count f).toInt = min Saturating.cap.toInt (called + 1)) := by
  intro run called early htime
  refine ⟨CostRun.count_keep_of_uncalled rfl, fun hsites hearly => ?_, fun hsites hearly => ?_⟩
  · obtain ⟨start, hcount, hzero, -⟩ := CostRun.count_keep rfl htime hsites
    rw [hcount, hzero hearly, Nat.cast_zero, add_zero]
  · obtain ⟨start, hcount, -, hone⟩ := CostRun.count_keep rfl htime hsites
    rw [hcount, hone hearly, Nat.cast_one]

end

/-- A walk of three steps, where each step takes a sample and then spins for ever. The keys descend
from callers to callees. -/
def spinningWalk : Tree where
  root := some 11
  nodes := #[
    { form := .aggregate, op := .call, name := "spin" },
    { form := .function, name := "spin", operands := [0] },
    { form := .aggregate, op := .call, name := "noise" },
    { form := .aggregate, op := .call, name := "spin" },
    { form := .function, name := "step", operands := [2, 3] },
    { form := .symbol, name := "i" },
    { form := .constant (.int 3) },
    { form := .binary, op := .lessThan, operands := [5, 6] },
    { form := .aggregate, op := .call, name := "step" },
    { form := .loop ⟨some 7, some 8, none, false⟩ },
    { form := .function, name := "walk", operands := [9] },
    { form := .sequence, operands := [1, 4, 10] }]

theorem counts_spinningWalk :
    let run : CostRun Int64 := .ofTree { recursion := .keep } spinningWalk
    run.graph.ReachesCircle "step" ∧
      (∀ k a, run.graph.Calls k "noise" → run.graph.Calls a k → run.graph.ReachesCircle k → k < a) ∧
      (run.counts.count "step").toInt = 3 ∧ (run.counts.count "noise").toInt = 3 := by
  intro run
  have hcalls : run.graph.Calls "step" "spin" ∧ run.graph.Calls "spin" "spin" := by
    simp only [run, CostRun.ofTree_graph]
    decide +kernel
  have hsites : run.graph.sitesTo "walk" = [] ∧
      run.graph.sitesTo "step" = [("walk", ⟨"step", 8, 0⟩)] ∧
      run.graph.sitesTo "noise" = [("step", ⟨"noise", 2, 0⟩)] := by
    simp only [run, CostRun.ofTree_graph]
    decide +kernel
  obtain ⟨hwalk, hstep, hnoise⟩ := hsites
  have hloops : run.loops.multiplier 2 = 1 ∧ run.loops.multiplier 8 = 3 := by
    simp only [run, CostRun.ofTree_loops]
    decide +kernel
  have hnobody := CallGraph.sitesTo_eq_nil_iff.1 hwalk
  have hcircle : run.graph.ReachesCircle "step" := ⟨"spin", .single hcalls.1, .single hcalls.2⟩
  have hcountWalk : run.counts.count "walk" = 1 := by
    refine (counts_beside_circle .additive .name spinningWalk "walk" fun k a hk => ?_).1 hwalk
    exact absurd hk (hnobody k)
  have hcountStep : (run.counts.count "step").toInt = 3 := by
    have heq := (counts_beside_circle .additive .name spinningWalk "step" fun k a hk ha => by
      rw [CallGraph.calls_iff_eq hstep] at hk
      exact absurd (hk ▸ ha) (hnobody a)).2.1 (by rw [hstep]; exact List.cons_ne_nil _ _)
      ⟨"walk", (CallGraph.calls_iff_eq hstep _).2 rfl, fun _ => by decide⟩
    rw [heq, hstep]
    change min _ [(run.loops.multiplier 8).toInt * (run.counts.count "walk").toInt].sum = 3
    rw [hloops.2, hcountWalk]
    decide
  have htime : ∀ k a, run.graph.Calls k "noise" → run.graph.Calls a k →
      run.graph.ReachesCircle k → k < a := by
    intro k a hk ha _
    obtain rfl := (CallGraph.calls_iff_eq hnoise k).1 hk
    obtain rfl := (CallGraph.calls_iff_eq hstep a).1 ha
    decide
  refine ⟨hcircle, htime, hcountStep, ?_⟩
  have heq := (counts_beside_circle .additive .name spinningWalk "noise" htime).2.1
    (by rw [hnoise]; exact List.cons_ne_nil _ _)
    ⟨"step", (CallGraph.calls_iff_eq hnoise _).2 rfl, fun hreach => ?_⟩
  · rw [heq, hnoise]
    change min _ [(run.loops.multiplier 2).toInt * (run.counts.count "step").toInt].sum = 3
    rw [hloops.1, hcountStep]
    decide
  · decide

/-- A chain of calls that ends in a circle. The keys ascend from callers to callees, so that each
caller is passed on too early. -/
def chainIntoCircle : Tree where
  root := some 6
  nodes := #[
    { form := .aggregate, op := .call, name := "c" },
    { form := .function, name := "c", operands := [0] },
    { form := .aggregate, op := .call, name := "c" },
    { form := .function, name := "b", operands := [2] },
    { form := .aggregate, op := .call, name := "b" },
    { form := .function, name := "a", operands := [4] },
    { form := .sequence, operands := [1, 3, 5] }]

/-- No function that leads to `b` lies on a circle, and its only caller counts once, yet `b` counts
twice. -/
theorem count_chainIntoCircle :
    let run : CostRun Int64 := .ofTree { recursion := .keep } chainIntoCircle
    (∃ c, Relation.TransGen run.graph.Calls c c) ∧
      (∀ k, Relation.ReflTransGen run.graph.Calls k "b" → ¬ Relation.TransGen run.graph.Calls k k) ∧
      run.graph.sitesTo "b" = [("a", ⟨"b", 4, 0⟩)] ∧ run.loops.multiplier 4 = 1 ∧
      run.counts.count "a" = 1 ∧ run.counts.count "b" = 2 := by
  intro run
  have hcalls : run.graph.Calls "b" "c" ∧ run.graph.Calls "c" "c" := by
    simp only [run, CostRun.ofTree_graph]
    decide +kernel
  have hsites : run.graph.sitesTo "a" = [] ∧ run.graph.sitesTo "b" = [("a", ⟨"b", 4, 0⟩)] := by
    simp only [run, CostRun.ofTree_graph]
    decide +kernel
  have hloops : run.loops.multiplier 4 = 1 := by
    simp only [run, CostRun.ofTree_loops]
    decide +kernel
  obtain ⟨ha, hb⟩ := hsites
  have hnobody := CallGraph.sitesTo_eq_nil_iff.1 ha
  have honly := CallGraph.calls_iff_eq hb
  have hcount := CostRun.count_keep_of_uncalled rfl ha
  refine ⟨⟨"c", .single hcalls.2⟩, fun k hk hcircle => ?_, hb, hloops, hcount, ?_⟩
  · have hfirst : ∀ x, Relation.ReflTransGen run.graph.Calls x "a" → x = "a" := by
      intro x hx
      rcases hx.cases_tail with heq | ⟨y, -, hy⟩
      · exact heq.symm
      · exact absurd hy (hnobody y)
    obtain ⟨y, hky, hyk⟩ := Relation.TransGen.tail'_iff.1 hcircle
    rcases hk.cases_tail with rfl | ⟨c, hkc, hcb⟩
    · obtain rfl := (honly y).1 hyk
      exact absurd (hfirst "b" hky) (by decide)
    · obtain rfl := (honly c).1 hcb
      obtain rfl := hfirst k hkc
      exact hnobody y hyk
  · have hlate : ¬ ∃ k, run.graph.Calls k "b" ∧ (run.graph.ReachesCircle "b" → "b" < k) := by
      rintro ⟨k, hk, hlt⟩
      obtain rfl := (honly k).1 hk
      exact absurd (hlt ⟨"c", .single hcalls.1, .single hcalls.2⟩) (by decide)
    have htime : ∀ k a, run.graph.Calls k "b" → run.graph.Calls a k →
        run.graph.ReachesCircle k → k < a := by
      intro k a hk hak
      obtain rfl := (honly k).1 hk
      exact absurd hak (hnobody a)
    obtain ⟨start, heq, -, hone⟩ :=
      CostRun.count_keep rfl htime (by rw [hb]; exact List.cons_ne_nil _ _)
    rw [hone hlate, hb] at heq
    refine Int64.toInt_inj.1 (heq.trans ?_)
    change min _ ([(run.loops.multiplier 4).toInt * (run.counts.count "a").toInt].sum + 1) = 2
    rw [hloops, hcount]
    decide

end ShaderCost
