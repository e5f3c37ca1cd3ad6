import Mathlib.Data.List.Chain
import ShaderCost.Proofs.Cost.ProcessingOrder

/-! # The circle that is reported

When costs do not settle, a depth-first search names a circle of calls. Every function that has not
settled calls another one (`ofGraph_stuck`), so the search never turns back: the first callee it
looks at is on the path already, which closes a circle, or is new, for as long as nothing has been
left again all functions that were met are on the path (`searchBelow_found`). A path without
repetitions is not longer than the list of functions, so the depth that is allowed for suffices, and
the first function the search starts from leads to a circle (`find_eq_close`).

What is reported is the end of such a path (`Trail`), from the first occurrence of the callee on.
-/

namespace ShaderCost

namespace Cycle

variable {next : String → List String} {keys : List String}

/-- A path on which each function goes on to the next, none of them twice, through listed functions
only. -/
structure Trail (next : String → List String) (keys : List String) (path : List String) : Prop where
  chain : path.IsChain fun a b => b ∈ next a
  nodup : path.Nodup
  listed : path ⊆ keys

namespace Trail

variable {path : List String} {key callee : String}

theorem single (hkey : key ∈ keys) : Trail next keys [key] :=
  ⟨.singleton key, List.nodup_singleton key, by simpa using hkey⟩

theorem length_le (h : Trail next keys path) : path.length ≤ keys.length :=
  (List.subperm_of_subset h.nodup h.listed).length_le

/-- A path goes on to a listed function that is not on it. -/
theorem concat (h : Trail next keys (path ++ [key])) (hcallee : callee ∈ next key)
    (hlisted : callee ∈ keys) (hnew : callee ∉ path ++ [key]) :
    Trail next keys (path ++ [key] ++ [callee]) := by
  refine ⟨h.chain.append (.singleton callee) ?_, ?_, ?_⟩
  · intro a ha b hb
    rw [List.getLast?_concat, Option.mem_some_iff] at ha
    rw [List.head?_singleton, Option.mem_some_iff] at hb
    rwa [← ha, ← hb]
  · have hconcat := h.nodup.concat hnew
    rwa [List.concat_eq_append] at hconcat
  · exact List.append_subset.2 ⟨h.listed, by simpa using hlisted⟩

end Trail

/-- A closed way along `next` that meets no function twice before it is back. -/
structure IsCircle (next : String → List String) (circle : List String) : Prop where
  length : 2 ≤ circle.length
  closed : circle.head? = circle.getLast?
  nodup : circle.dropLast.Nodup
  chain : circle.IsChain fun a b => b ∈ next a

/-- Closing a path takes it from the first occurrence of the function on. -/
theorem close_eq {earlier later : List String} {key : String} (h : key ∉ earlier) :
    close (earlier ++ key :: later) key = key :: later ++ [key] := by
  have hpassed : ∀ k ∈ earlier, (k != key) = true := by
    intro k hk
    simp only [bne_iff_ne]
    rintro rfl
    exact h hk
  unfold close
  rw [List.dropWhile_append_of_pos hpassed, List.dropWhile_cons_of_neg (by simp)]

theorem close_subset {path : List String} {key : String} (h : key ∈ path) :
    close path key ⊆ path :=
  List.append_subset.2 ⟨List.dropWhile_subset _, by simpa using h⟩

/-- A path whose last function goes on to one of the path is closed to a circle. -/
theorem Trail.close_isCircle {path : List String} {key callee : String}
    (h : Trail next keys (path ++ [key])) (hcallee : callee ∈ next key)
    (hmem : callee ∈ path ++ [key]) : IsCircle next (close (path ++ [key]) callee) := by
  obtain ⟨earlier, later, hsplit, hfirst⟩ := List.eq_append_cons_of_mem hmem
  rw [hsplit, close_eq hfirst]
  have hsuffix : callee :: later <:+ path ++ [key] := ⟨earlier, hsplit.symm⟩
  have hlast : (callee :: later).getLast? = some key := by
    have hpath : (path ++ [key]).getLast? = some key := List.getLast?_concat
    rw [hsplit, List.getLast?_append_of_ne_nil _ (List.cons_ne_nil callee later)] at hpath
    exact hpath
  refine ⟨by simp, ?_, ?_, (h.chain.suffix hsuffix).append (.singleton callee) ?_⟩
  · rw [List.getLast?_concat]
    rfl
  · rw [List.dropLast_concat]
    exact h.nodup.sublist hsuffix.sublist
  · intro a ha b hb
    rw [hlast, Option.mem_some_iff] at ha
    rw [List.head?_singleton, Option.mem_some_iff] at hb
    rwa [← ha, ← hb]

/-! ## The search -/

/-- What a search that succeeds hands out: a circle of listed functions, cut out of a path that
holds its start. -/
structure Closes (next : String → List String) (keys circle : List String) : Prop where
  isCircle : IsCircle next circle
  listed : circle ⊆ keys
  cut : ∃ path key, key ∈ path ∧ circle = close path key

/-- How the search below a function goes through its callees. Once a circle is found the others are
passed over; a callee on the path closes a circle, and one that is new is searched below. -/
theorem searchBelow_visits (next : String → List String) (depth : Nat) (path : List String)
    (s : Search) (key : String) : ∃ visit : Search → String → Search,
      searchBelow next (depth + 1) path s key =
        (next key).foldl visit { s with visited := s.visited.insert key } ∧
      (∀ s callee, s.found.isSome = true → visit s callee = s) ∧
      (∀ s callee, s.found = none → callee ∈ path ++ [key] →
        visit s callee = { s with found := some (close (path ++ [key]) callee) }) ∧
      (∀ s callee, s.found = none → callee ∉ path ++ [key] → s.visited.contains callee = false →
        visit s callee = searchBelow next depth (path ++ [key]) s callee) := by
  refine ⟨_, rfl, fun s callee hs => ?_, fun s callee hs hmem => ?_,
    fun s callee hs hmem hnew => ?_⟩
  · obtain ⟨circle, hcircle⟩ := Option.isSome_iff_exists.1 hs
    simp only [hcircle]
  · simp only [hs, List.contains_iff_mem, hmem, if_true]
  · simp only [hs, List.contains_iff_mem, hmem, if_false, hnew, Bool.false_eq_true]

/-- Where every listed function goes on to listed functions, the search below a path comes back with
a circle. As long as none is found no function is left again, so all that were met are on the
path. -/
theorem searchBelow_found (hnext : ∀ key ∈ keys, next key ≠ [] ∧ next key ⊆ keys) {depth : Nat}
    {path : List String} {s : Search} {key : String} (hpath : Trail next keys (path ++ [key]))
    (hdepth : keys.length ≤ depth + path.length) (hnone : s.found = none)
    (hvisited : ∀ k, s.visited.contains k = true → k ∈ path) :
    ∃ circle, (searchBelow next depth path s key).found = some circle ∧
      Closes next keys circle := by
  induction depth generalizing path s key with
  | zero =>
    have hle := hpath.length_le
    rw [List.length_append, List.length_singleton] at hle
    omega
  | succ depth ih =>
    obtain ⟨hne, hlisted⟩ := hnext key (hpath.listed (by simp))
    obtain ⟨callee, others, hcallees⟩ := List.exists_cons_of_ne_nil hne
    have hcallee : callee ∈ next key := hcallees ▸ List.mem_cons_self
    obtain ⟨visit, heq, hpass, hclose, hbelow⟩ := searchBelow_visits next depth path s key
    obtain ⟨circle, hfound, hcircle⟩ : ∃ circle,
        (visit { s with visited := s.visited.insert key } callee).found = some circle ∧
          Closes next keys circle := by
      by_cases hmem : callee ∈ path ++ [key]
      · rw [hclose { s with visited := s.visited.insert key } callee hnone hmem]
        refine ⟨_, rfl, hpath.close_isCircle hcallee hmem, ?_, _, callee, hmem, rfl⟩
        exact List.Subset.trans (close_subset hmem) hpath.listed
      · have hmet : ∀ k, (s.visited.insert key).contains k = true → k ∈ path ++ [key] := by
          intro k hk
          rw [Std.TreeSet.contains_insert, Bool.or_eq_true, beq_iff_eq,
            Std.LawfulEqOrd.compare_eq_iff_eq] at hk
          rcases hk with rfl | hk
          · exact List.mem_append_right _ List.mem_cons_self
          · exact List.mem_append_left _ (hvisited k hk)
        have hnew : (s.visited.insert key).contains callee = false := by
          rw [← Bool.not_eq_true]
          exact fun hk => hmem (hmet callee hk)
        rw [hbelow { s with visited := s.visited.insert key } callee hnone hmem hnew]
        refine ih (hpath.concat hcallee (hlisted hcallee) hmem) ?_ hnone hmet
        rw [List.length_append, List.length_singleton]
        omega
    have hrest : others.foldl visit (visit { s with visited := s.visited.insert key } callee) =
        visit { s with visited := s.visited.insert key } callee :=
      List.foldl_fixed' (fun other => hpass _ other (by rw [hfound]; rfl)) others
    refine ⟨circle, ?_, hcircle⟩
    rw [heq, hcallees, List.foldl_cons, hrest, hfound]

/-- The unsettled functions that a function calls. -/
def nextOf (g : CallGraph) (isResolved : String → Bool) (key : String) : List String :=
  (g.callees key).filter fun callee => !isResolved callee

/-- How the search goes through the functions it may start from. -/
theorem find_visits (g : CallGraph) (isResolved : String → Bool) (unresolved : List String) :
    ∃ visit : Search → String → Search,
      find g isResolved unresolved = (unresolved.foldl visit {}).found.getD unresolved ∧
      (∀ s key, s.found.isSome = true → visit s key = s) ∧
      (∀ s key, s.found = none → s.visited.contains key = false →
        visit s key = searchBelow (nextOf g isResolved) (g.functions.size + 1) [] s key) := by
  refine ⟨_, rfl, fun s key hs => ?_, fun s key hs hnew => ?_⟩
  · obtain ⟨circle, hcircle⟩ := Option.isSome_iff_exists.1 hs
    simp only [hcircle]
  · simp only [hs, hnew, Bool.false_eq_true, if_false]
    rfl

/-- The search finds its circle below the first function that it starts from. -/
theorem find_closes {g : CallGraph} {isResolved : String → Bool} {unresolved : List String}
    (hne : unresolved ≠ []) (hsize : unresolved.length ≤ g.functions.size)
    (hnext : ∀ key ∈ unresolved,
      nextOf g isResolved key ≠ [] ∧ nextOf g isResolved key ⊆ unresolved) :
    Closes (nextOf g isResolved) unresolved (find g isResolved unresolved) := by
  obtain ⟨visit, heq, hpass, hbelow⟩ := find_visits g isResolved unresolved
  obtain ⟨first, others, rfl⟩ := List.exists_cons_of_ne_nil hne
  obtain ⟨circle, hfound, hcircle⟩ : ∃ circle,
      (searchBelow (nextOf g isResolved) (g.functions.size + 1) [] {} first).found = some circle ∧
        Closes (nextOf g isResolved) (first :: others) circle :=
    searchBelow_found hnext (.single List.mem_cons_self) (Nat.le_succ_of_le hsize) rfl (by simp)
  rw [← hbelow {} first rfl Std.TreeSet.contains_emptyc] at hfound
  have hrest : others.foldl visit (visit {} first) = visit {} first :=
    List.foldl_fixed' (fun other => hpass _ other (by rw [hfound]; rfl)) others
  rw [heq, List.foldl_cons, hrest, hfound]
  exact hcircle

end Cycle

namespace Resolution

section

variable {α : Type} [Tally α] {g : CallGraph} {widths : Widths} {loops : LoopCosts α}

omit [Tally α] in
theorem length_unresolved_le (r : Resolution α) (g : CallGraph) :
    (r.unresolved g).length ≤ g.functions.size := by
  refine (List.length_filter_le _ _).trans ?_
  unfold callersOf sortKeys
  rw [List.length_mergeSort, List.length_map, ← Std.TreeMap.length_toList]
  exact List.length_filter_le _ _

/-- What has not settled in the end goes on to functions that have not settled either. -/
theorem ofGraph_nextOf (hg : g.WellFormed) {key : String}
    (hkey : key ∈ (ofGraph g widths loops).unresolved g) :
    Cycle.nextOf g (ofGraph g widths loops).isResolved key ≠ [] ∧
      Cycle.nextOf g (ofGraph g widths loops).isResolved key ⊆
        (ofGraph g widths loops).unresolved g := by
  have hunresolved : ∀ {k}, k ∈ g.functions → (ofGraph g widths loops).isResolved k = false →
      k ∈ (ofGraph g widths loops).unresolved g := by
    intro k hk hres
    obtain ⟨c, hc, -, -⟩ := ofGraph_stuck hg hk hres
    exact mem_unresolved.2 ⟨fun hnil => CallGraph.callSites_eq_nil_iff.1 hnil c hc, hres⟩
  obtain ⟨hsites, hres⟩ := mem_unresolved.1 hkey
  constructor
  · obtain ⟨c, hc, -, hcr⟩ := ofGraph_stuck hg (CallGraph.mem_functions_of_callSites hsites) hres
    exact List.ne_nil_of_mem (List.mem_filter.2 ⟨hc, by rw [hcr]; rfl⟩)
  · intro c hc
    obtain ⟨hcalls, hcr⟩ := List.mem_filter.1 hc
    exact hunresolved (hg.callee_mem hcalls) (by simpa using hcr)

omit [Tally α] in
theorem failure?_eq_some {r : Resolution α} {mode : RecursionMode} {e : RecursionError}
    (h : r.failure? g mode = some e) :
    r.unresolved g ≠ [] ∧ e.cycle = Cycle.find g r.isResolved (r.unresolved g) := by
  unfold failure? at h
  simp only [Bool.or_eq_true, List.isEmpty_iff] at h
  split at h
  · cases h
  · next hne =>
    cases h
    exact ⟨fun hnil => hne (Or.inl hnil), rfl⟩

end

end Resolution

/-- **The reported circle is real.** A run that fails names functions that call each other in a
circle: the first is also the last, none of the others occurs twice, each has a call site for the
one behind it, and none has settled. It is cut out of the path of the search at a function that the
path holds. -/
theorem reported_circle_real (options : CostOptions) (t : Tree) {e : RecursionError}
    (h : (CostRun.ofTree options t : CostRun Int64).failure = some e) :
    let run : CostRun Int64 := .ofTree options t
    2 ≤ e.cycle.length ∧ e.cycle.head? = e.cycle.getLast? ∧ e.cycle.dropLast.Nodup ∧
      e.cycle.IsChain (fun a b => ∃ site ∈ run.graph.callSites a, site.callee = b) ∧
      (∀ key ∈ e.cycle, run.resolution.isResolved key = false) ∧
      ∃ path key, key ∈ path ∧ e.cycle = Cycle.close path key := by
  intro run
  have hg : run.graph.WellFormed := by
    rw [CostRun.ofTree_graph]
    exact CallGraph.ofTree_wellFormed t options.identity
  have hr : run.resolution = .ofGraph run.graph (.ofTree t) (.ofTree t options.nesting) := by
    rw [CostRun.ofTree_resolution, CostRun.ofTree_graph]
  rw [CostRun.ofTree_failure] at h
  obtain ⟨hne, hcycle⟩ := Resolution.failure?_eq_some h
  have hnext := fun key (hkey : key ∈ run.resolution.unresolved run.graph) =>
    Resolution.ofGraph_nextOf hg (hr ▸ hkey)
  rw [← hr] at hnext
  obtain ⟨hcircle, hlisted, hcut⟩ :=
    Cycle.find_closes hne (Resolution.length_unresolved_le _ _) hnext
  rw [← hcycle] at hcircle hlisted hcut
  refine ⟨hcircle.length, hcircle.closed, hcircle.nodup, hcircle.chain.imp fun a b hab => ?_,
    fun key hkey => (Resolution.mem_unresolved.1 (hlisted hkey)).2, hcut⟩
  exact List.mem_map.1 (List.mem_of_mem_filter hab)

/-- The search starts outside the circle, comes past a function that has settled, and meets two
circles, of which the reported one turns back to the second function of the path. -/
def circleBehindEntry : Tree where
  root := some 11
  nodes := #[
    { form := .aggregate, op := .call, name := "leaf" },
    { form := .aggregate, op := .call, name := "down" },
    { form := .function, name := "back", operands := [0, 1] },
    { form := .aggregate, op := .call, name := "back" },
    { form := .aggregate, op := .call, name := "down" },
    { form := .function, name := "down", operands := [3, 4] },
    { form := .aggregate, op := .call, name := "leaf" },
    { form := .aggregate, op := .call, name := "down" },
    { form := .function, name := "apex", operands := [6, 7] },
    { form := .binary, op := .add },
    { form := .function, name := "leaf", operands := [9] },
    { form := .sequence, operands := [2, 5, 8, 10] }]

theorem reported_circle_circleBehindEntry :
    let run : CostRun Int64 := .ofTree {} circleBehindEntry
    run.failure = some ⟨["down", "back", "down"]⟩ ∧
      ["down", "back"].Nodup ∧
      ["down", "back", "down"].IsChain
        (fun a b => ∃ site ∈ run.graph.callSites a, site.callee = b) ∧
      ∀ key ∈ ["down", "back", "down"], run.resolution.isResolved key = false := by
  intro run
  have h : run.failure = some ⟨["down", "back", "down"]⟩ := by
    simp only [run, CostRun.ofTree_failure, CostRun.ofTree_resolution, CostRun.ofTree_graph,
      Resolution.failure?, Resolution.unresolved, Resolution.ofGraph, Resolution.callersOf,
      sortKeys_eq_insertionSort]
    decide +kernel
  obtain ⟨-, -, hnodup, hchain, hunsettled, -⟩ := reported_circle_real {} circleBehindEntry h
  exact ⟨h, hnodup, hchain, hunsettled⟩

end ShaderCost
