import Mathlib.Data.List.Basic
import Mathlib.Logic.Function.Iterate
import ShaderCost.Proofs.Cost.CallGraph
import ShaderCost.Proofs.Cost.Exactness

/-! # Which functions settle, and at what cost

The callers that have settled form a `Schedule`: each comes after all callers that it calls.
Settling one more keeps this (`settle_sound`), so nothing that settles reaches a circle of calls. A
round in which nothing settles leaves everything as it was (`round_eq_self`), and every other round
makes the schedule longer, which holds no caller twice: so the iteration always ends by such a
round, never by its limit (`rounds_stops`). What is left then always calls something that is left,
and so reaches a circle (`ofGraph_isResolved_iff`).

A caller takes over costs that no longer change: what it calls has settled, and only a caller that
settles has its own cost changed. In natural numbers the cost of a settled function is therefore its
raw cost and the costs of all it calls (`Balanced`); in words, the same cut off at the cap.
-/

namespace ShaderCost

namespace CallGraph

variable {g : CallGraph}

/-! ## Entries -/

theorem callSites_of_getElem? {key : String} {info : FunctionInfo}
    (h : g.functions[key]? = some info) : g.callSites key = info.callSites := by
  unfold callSites CallGraph.info
  rw [Std.TreeMap.getD_eq_getD_getElem?, h]
  rfl

theorem mem_functions_iff {key : String} :
    key ∈ g.functions ↔ ∃ info, g.functions[key]? = some info := by
  rw [Std.TreeMap.mem_iff_isSome_getElem?, Option.isSome_iff_exists]

theorem callSites_of_mem_toList {e : String × FunctionInfo} (he : e ∈ g.functions.toList) :
    g.callSites e.1 = e.2.callSites :=
  callSites_of_getElem? (Std.TreeMap.mem_toList_iff_getElem?_eq_some.1 he)

theorem mem_functions_iff_mem_toList {key : String} :
    key ∈ g.functions ↔ ∃ info, (key, info) ∈ g.functions.toList := by
  simp only [mem_functions_iff, Std.TreeMap.mem_toList_iff_getElem?_eq_some]

theorem mem_callersOf {key : String} :
    key ∈ Resolution.callersOf g.functions.toList ↔ g.callSites key ≠ [] := by
  unfold Resolution.callersOf sortKeys
  rw [List.mem_mergeSort, List.mem_map]
  constructor
  · rintro ⟨e, he, rfl⟩
    obtain ⟨he, hne⟩ := List.mem_filter.1 he
    rw [callSites_of_mem_toList he]
    simpa using hne
  · intro hne
    obtain ⟨info, he⟩ := mem_functions_iff_mem_toList.1 (mem_functions_of_callSites hne)
    rw [callSites_of_mem_toList he] at hne
    exact ⟨(key, info), List.mem_filter.2 ⟨he, by simpa using hne⟩, rfl⟩

theorem mem_leavesOf {key : String} :
    key ∈ Resolution.leavesOf g.functions.toList ↔ key ∈ g.functions ∧ g.callSites key = [] := by
  unfold Resolution.leavesOf
  rw [List.mem_map]
  constructor
  · rintro ⟨e, he, rfl⟩
    obtain ⟨he, hnil⟩ := List.mem_filter.1 he
    refine ⟨mem_functions_iff_mem_toList.2 ⟨e.2, he⟩, ?_⟩
    rw [callSites_of_mem_toList he]
    simpa using hnil
  · rintro ⟨hmem, hnil⟩
    obtain ⟨info, he⟩ := mem_functions_iff_mem_toList.1 hmem
    rw [callSites_of_mem_toList he] at hnil
    exact ⟨(key, info), List.mem_filter.2 ⟨he, by simpa using hnil⟩, rfl⟩

/-! ## Schedules -/

/-- Callers, each after all callers that it calls. -/
inductive Schedule (g : CallGraph) : List String → Prop where
  | nil : Schedule g []
  | snoc {done : List String} {caller : String} (h : Schedule g done) (hnew : caller ∉ done)
      (hcaller : g.callSites caller ≠ [])
      (hready : ∀ callee, g.Calls caller callee → g.callSites callee = [] ∨ callee ∈ done) :
      Schedule g (done ++ [caller])

namespace Schedule

variable {done : List String}

theorem nodup (h : g.Schedule done) : done.Nodup := by
  induction h with
  | nil => exact List.nodup_nil
  | snoc _ hnew _ _ ih =>
    rw [← List.concat_eq_append]
    exact ih.concat hnew

theorem caller (h : g.Schedule done) {k : String} (hk : k ∈ done) : g.callSites k ≠ [] := by
  induction h with
  | nil => cases hk
  | snoc _ _ hcaller _ ih =>
    rcases List.mem_append.1 hk with hk | hk
    · exact ih hk
    · rwa [List.mem_singleton.1 hk]

theorem callee (h : g.Schedule done) {k c : String} (hk : k ∈ done) (hkc : g.Calls k c) :
    g.callSites c = [] ∨ c ∈ done := by
  induction h with
  | nil => cases hk
  | snoc _ _ _ hready ih =>
    rcases List.mem_append.1 hk with hk | hk
    · exact (ih hk).imp_right (List.mem_append_left _)
    · rw [List.mem_singleton.1 hk] at hkc
      exact (hready c hkc).imp_right (List.mem_append_left _)

theorem not_reachesCircle (h : g.Schedule done) {k : String} (hk : k ∈ done) :
    ¬ g.ReachesCircle k := by
  induction h generalizing k with
  | nil => cases hk
  | snoc _ _ _ hready ih =>
    rcases List.mem_append.1 hk with hk | hk
    · exact ih hk
    · rw [List.mem_singleton.1 hk]
      intro hcircle
      obtain ⟨c, hcalls, hc⟩ := hcircle.exists_callee
      rcases hready c hcalls with hleaf | hdone
      · obtain ⟨d, hcd, -⟩ := hc.exists_callee
        exact callSites_eq_nil_iff.1 hleaf d hcd
      · exact ih hdone hc

end Schedule

end CallGraph

namespace Resolution

section

variable {α : Type} [Tally α] {g : CallGraph} {r : Resolution α}

/-! ## One step -/

/-- Adds the cost of a callee to that of a caller. -/
def takeCost (caller : String) (costs : FunctionTable α) (callee : String) : FunctionTable α :=
  costs.add caller (costs.getD callee Tally.zero)

/-- The state once `caller` has settled. -/
def settled (g : CallGraph) (r : Resolution α) (caller : String) : Resolution α :=
  { r with
    costs := (g.callees caller).foldl (takeCost caller) r.costs
    resolved := r.resolved.insert caller
    order := r.order ++ [caller] }

/-- A caller stays as it is, because it has settled before or cannot settle yet, or it settles. -/
theorem settle_cases (g : CallGraph) (r : Resolution α) (caller : String) :
    (settle g r caller = r ∧
      (r.isResolved caller = true ∨ ∃ c, g.Calls caller c ∧ r.isResolved c = false)) ∨
    (settle g r caller = settled g r caller ∧ r.isResolved caller = false ∧
      ∀ c, g.Calls caller c → r.isResolved c = true) := by
  unfold settle
  cases hres : r.isResolved caller with
  | true => exact Or.inl ⟨rfl, Or.inl rfl⟩
  | false =>
    cases hready : r.isReady g caller with
    | true => exact Or.inr ⟨rfl, rfl, List.all_eq_true.1 hready⟩
    | false =>
      obtain ⟨c, hc, hcr⟩ := List.all_eq_false.1 hready
      exact Or.inl ⟨rfl, Or.inr ⟨c, hc, Bool.not_eq_true _ ▸ hcr⟩⟩

theorem isResolved_settled {caller key : String} :
    (settled g r caller).isResolved key = true ↔ key = caller ∨ r.isResolved key = true := by
  unfold settled isResolved
  rw [Std.TreeSet.contains_insert, Bool.or_eq_true, beq_iff_eq, Std.LawfulEqOrd.compare_eq_iff_eq,
    eq_comm]

/-! ## Soundness -/

/-- The settled functions are those without call sites and the callers of a schedule. -/
structure Sound (g : CallGraph) (r : Resolution α) : Prop where
  schedule : g.Schedule r.order
  resolved : ∀ key, r.isResolved key = true ↔
    (key ∈ g.functions ∧ g.callSites key = []) ∨ key ∈ r.order

theorem settle_sound (h : r.Sound g) {caller : String} (hcaller : g.callSites caller ≠ []) :
    (settle g r caller).Sound g := by
  rcases settle_cases g r caller with ⟨heq, -⟩ | ⟨heq, hnew, hready⟩
  · rwa [heq]
  · rw [heq]
    refine ⟨h.schedule.snoc ?_ hcaller fun c hc => ?_, fun key => ?_⟩
    · intro hmem
      rw [(h.resolved caller).2 (Or.inr hmem)] at hnew
      cases hnew
    · exact ((h.resolved c).1 (hready c hc)).imp_left And.right
    · rw [isResolved_settled, h.resolved key]
      simp only [settled, List.mem_append, List.mem_singleton]
      tauto

theorem mem_foldl_insert {key : String} (keys : List String) (s : Std.TreeSet String) :
    (keys.foldl (·.insert ·) s).contains key = true ↔ key ∈ keys ∨ s.contains key = true := by
  induction keys generalizing s with
  | nil => simp
  | cons k keys ih =>
    rw [List.foldl_cons, ih, Std.TreeSet.contains_insert, Bool.or_eq_true, beq_iff_eq,
      Std.LawfulEqOrd.compare_eq_iff_eq, List.mem_cons, eq_comm]
    tauto

theorem start_sound (g : CallGraph) (widths : Widths) (loops : LoopCosts α) :
    (start g widths loops).Sound g := by
  refine ⟨.nil, fun key => ?_⟩
  unfold start isResolved
  rw [mem_foldl_insert, Listing.list_stored, CallGraph.mem_leavesOf]
  simp

/-! ## Rounds -/

theorem length_le_settle (g : CallGraph) (r : Resolution α) (caller : String) :
    r.order.length ≤ (settle g r caller).order.length := by
  rcases settle_cases g r caller with ⟨heq, -⟩ | ⟨heq, -⟩
  · rw [heq]
  · rw [heq]
    simp [settled]

theorem length_le_round (g : CallGraph) (callers : List String) (r : Resolution α) :
    r.order.length ≤ (callers.foldl (settle g) r).order.length := by
  induction callers generalizing r with
  | nil => rfl
  | cons caller callers ih => exact (length_le_settle g r caller).trans (ih _)

/-- A round that does not lengthen the order settles nothing at all. -/
theorem round_eq_self {callers : List String}
    (h : (callers.foldl (settle g) r).order.length = r.order.length) :
    ∀ caller ∈ callers, settle g r caller = r := by
  induction callers with
  | nil => intro caller hc; cases hc
  | cons first callers ih =>
    rw [List.foldl_cons] at h
    have hfirst : settle g r first = r := by
      rcases settle_cases g r first with ⟨heq, -⟩ | ⟨heq, -⟩
      · exact heq
      · have hle := length_le_round g callers (settle g r first)
        rw [h, heq] at hle
        simp only [settled, List.length_append, List.length_singleton] at hle
        omega
    rw [hfirst] at h
    intro caller hc
    rcases List.mem_cons.1 hc with rfl | hc
    · exact hfirst
    · exact ih h caller hc

theorem foldl_settle_eq_self {callers : List String}
    (h : ∀ caller ∈ callers, settle g r caller = r) : callers.foldl (settle g) r = r := by
  induction callers with
  | nil => rfl
  | cons first callers ih =>
    rw [List.foldl_cons, h first List.mem_cons_self]
    exact ih fun caller hc => h caller (List.mem_cons_of_mem first hc)

theorem round_sound (h : r.Sound g) {callers : List String}
    (hcallers : ∀ caller ∈ callers, g.callSites caller ≠ []) :
    (callers.foldl (settle g) r).Sound g :=
  List.foldlRecOn _ _ h fun _ hr caller hc => settle_sound hr (hcallers caller hc)

omit [Tally α] in
theorem Sound.length_le (h : r.Sound g) :
    r.order.length ≤ (callersOf g.functions.toList).length :=
  (List.subperm_of_subset h.schedule.nodup fun _ hk =>
    CallGraph.mem_callersOf.2 (h.schedule.caller hk)).length_le

omit [Tally α] in
/-- What a settled function calls has settled. -/
theorem Sound.callee (h : r.Sound g) (hg : g.WellFormed) {key c : String}
    (hkey : r.isResolved key = true) (hc : g.Calls key c) : r.isResolved c = true := by
  rw [h.resolved]
  rcases (h.resolved key).1 hkey with ⟨-, hnil⟩ | hmem
  · exact absurd hc (CallGraph.callSites_eq_nil_iff.1 hnil c)
  · exact (h.schedule.callee hmem hc).imp_left fun hnil => ⟨hg.callee_mem hc, hnil⟩

/-- Rounds end because nothing is left to settle. Every round before the last settles a caller, and
there are no more of these than the limit allows for. -/
theorem rounds_stops {callers : List String} (hcallers : callers = callersOf g.functions.toList) :
    ∀ (limit : Nat) {r : Resolution α}, r.Sound g → callers.length ≤ limit + r.order.length →
      ∃ passes ≤ limit, rounds g callers (limit + 1) r = (callers.foldl (settle g))^[passes] r ∧
        ∀ caller ∈ callers,
          settle g (rounds g callers (limit + 1) r) caller = rounds g callers (limit + 1) r := by
  have hsites : ∀ caller ∈ callers, g.callSites caller ≠ [] := fun caller hc =>
    CallGraph.mem_callersOf.1 (hcallers ▸ hc)
  intro limit
  induction limit with
  | zero =>
    intro r h hlimit
    have hround := (round_sound h hsites).length_le
    have hle := length_le_round g callers r
    rw [← hcallers] at hround
    have hlen : (callers.foldl (settle g) r).order.length = r.order.length := by omega
    have hself := round_eq_self hlen
    have heq : rounds g callers (0 + 1) r = r := by
      simp only [rounds, hlen, BEq.rfl, ↓reduceIte]
      exact foldl_settle_eq_self hself
    rw [heq]
    exact ⟨0, Nat.le_refl 0, rfl, hself⟩
  | succ limit ih =>
    intro r h hlimit
    by_cases hlen : (callers.foldl (settle g) r).order.length = r.order.length
    · have hself := round_eq_self hlen
      have heq : rounds g callers (limit + 1 + 1) r = r := by
        rw [rounds]
        simp only [hlen, BEq.rfl, ↓reduceIte]
        exact foldl_settle_eq_self hself
      rw [heq]
      exact ⟨0, Nat.zero_le _, rfl, hself⟩
    · have hle := length_le_round g callers r
      obtain ⟨passes, hpasses, heq, hself⟩ := ih (round_sound h hsites) (by omega)
      have hgo : rounds g callers (limit + 1 + 1) r =
          rounds g callers (limit + 1) (callers.foldl (settle g) r) := by
        rw [rounds]
        simp only [beq_iff_eq, hlen, ↓reduceIte]
      rw [hgo]
      exact ⟨passes + 1, by omega, heq, hself⟩

theorem iterate_round_sound (h : r.Sound g) (passes : Nat) :
    (((callersOf g.functions.toList).foldl (settle g))^[passes] r).Sound g := by
  induction passes with
  | zero => exact h
  | succ passes ih =>
    rw [Function.iterate_succ_apply']
    exact round_sound ih fun caller hc => CallGraph.mem_callersOf.1 hc

/-! ## The result -/

variable {widths : Widths} {loops : LoopCosts α}

theorem ofGraph_stops (g : CallGraph) (widths : Widths) (loops : LoopCosts α) :
    ∃ passes ≤ (callersOf g.functions.toList).length,
      ofGraph g widths loops =
        ((callersOf g.functions.toList).foldl (settle g))^[passes] (start g widths loops) ∧
      ∀ caller ∈ callersOf g.functions.toList,
        settle g (ofGraph g widths loops) caller = ofGraph g widths loops :=
  rounds_stops rfl _ (start_sound g widths loops) (Nat.le_add_right _ _)

theorem ofGraph_sound (g : CallGraph) (widths : Widths) (loops : LoopCosts α) :
    (ofGraph g widths loops).Sound g := by
  obtain ⟨passes, -, heq, -⟩ := ofGraph_stops g widths loops
  rw [heq]
  exact iterate_round_sound (start_sound g widths loops) passes

/-- Settling changes no raw cost. -/
theorem ofGraph_raw (g : CallGraph) (widths : Widths) (loops : LoopCosts α) :
    (ofGraph g widths loops).raw = rawCosts widths loops g.functions.keys g.owners.toList := by
  have hsettle : ∀ (r : Resolution α) (caller : String), (settle g r caller).raw = r.raw := by
    intro r caller
    rcases settle_cases g r caller with ⟨heq, -⟩ | ⟨heq, -⟩
    · rw [heq]
    · rw [heq]; rfl
  have hround : ∀ (callers : List String) (r : Resolution α),
      (callers.foldl (settle g) r).raw = r.raw := fun callers r =>
    List.foldlRecOn (motive := fun r' : Resolution α => r'.raw = r.raw) _ _ rfl
      fun r' hr' caller _ => (hsettle r' caller).trans hr'
  obtain ⟨passes, -, heq, -⟩ := ofGraph_stops g widths loops
  rw [heq]
  clear heq
  induction passes with
  | zero => rfl
  | succ passes ih => rw [Function.iterate_succ_apply', hround, ih]

/-- What has not settled in the end calls something that has not settled. -/
theorem ofGraph_stuck (hg : g.WellFormed) {key : String} (hmem : key ∈ g.functions)
    (hkey : (ofGraph g widths loops).isResolved key = false) :
    ∃ c, g.Calls key c ∧ c ∈ g.functions ∧ (ofGraph g widths loops).isResolved c = false := by
  have hsound := ofGraph_sound g widths loops
  have hcaller : g.callSites key ≠ [] := by
    intro hnil
    rw [(hsound.resolved key).2 (Or.inl ⟨hmem, hnil⟩)] at hkey
    cases hkey
  obtain ⟨-, -, -, hself⟩ := ofGraph_stops g widths loops
  have hkept := hself key (CallGraph.mem_callersOf.2 hcaller)
  rcases settle_cases g (ofGraph g widths loops) key with ⟨-, hres | ⟨c, hc, hcr⟩⟩ | ⟨heq, -⟩
  · rw [hres] at hkey
    cases hkey
  · exact ⟨c, hc, hg.callee_mem hc, hcr⟩
  · -- a settled caller would make the order longer
    have hlen := congrArg (fun r => r.order.length) (hkept.symm.trans heq)
    simp [settled] at hlen

/-- The functions that settle are those from which no circle of calls can be reached. -/
theorem ofGraph_isResolved_iff (hg : g.WellFormed) (key : String) :
    (ofGraph g widths loops).isResolved key = true ↔ key ∈ g.functions ∧ ¬ g.ReachesCircle key := by
  have hsound := ofGraph_sound g widths loops
  constructor
  · intro hkey
    rcases (hsound.resolved key).1 hkey with ⟨hmem, hnil⟩ | hmem
    · refine ⟨hmem, fun hcircle => ?_⟩
      obtain ⟨c, hc, -⟩ := hcircle.exists_callee
      exact CallGraph.callSites_eq_nil_iff.1 hnil c hc
    · exact ⟨CallGraph.mem_functions_of_callSites (hsound.schedule.caller hmem),
        hsound.schedule.not_reachesCircle hmem⟩
  · rintro ⟨hmem, hno⟩
    by_contra hkey
    refine hno (CallGraph.reachesCircle_of_stuck (P := fun k => k ∈ g.functions ∧
      (ofGraph g widths loops).isResolved k = false) (fun _ hk => hk.1) (fun k hk => ?_)
      ⟨hmem, Bool.not_eq_true _ ▸ hkey⟩)
    exact ofGraph_stuck hg hk.1 hk.2

omit [Tally α] in
theorem mem_unresolved {key : String} :
    key ∈ r.unresolved g ↔ g.callSites key ≠ [] ∧ r.isResolved key = false := by
  unfold unresolved
  rw [List.mem_filter, Listing.list_stored, CallGraph.mem_callersOf, Bool.not_eq_true']

/-- Something stays unsettled exactly when there is a circle of calls. -/
theorem ofGraph_unresolved_ne_nil_iff (hg : g.WellFormed) :
    (ofGraph g widths loops).unresolved g ≠ [] ↔ ∃ c, Relation.TransGen g.Calls c c := by
  constructor
  · intro hne
    obtain ⟨key, hkey⟩ := List.exists_mem_of_ne_nil _ hne
    obtain ⟨hsites, hres⟩ := mem_unresolved.1 hkey
    have hmem := CallGraph.mem_functions_of_callSites hsites
    have hcircle : g.ReachesCircle key := by
      by_contra hno
      rw [(ofGraph_isResolved_iff hg key).2 ⟨hmem, hno⟩] at hres
      cases hres
    obtain ⟨c, -, hc⟩ := hcircle
    exact ⟨c, hc⟩
  · rintro ⟨c, hc⟩
    obtain ⟨d, hcd, -⟩ := Relation.TransGen.head'_iff.1 hc
    refine List.ne_nil_of_mem (a := c) (mem_unresolved.2
      ⟨fun hnil => CallGraph.callSites_eq_nil_iff.1 hnil d hcd, ?_⟩)
    rw [← Bool.not_eq_true, ofGraph_isResolved_iff hg]
    exact fun h => h.2 ⟨c, .refl, hc⟩

omit [Tally α] in
theorem failure?_error_isSome : (r.failure? g .error).isSome = true ↔ r.unresolved g ≠ [] := by
  unfold failure?
  cases r.unresolved g <;> simp

omit [Tally α] in
theorem failure?_keep : r.failure? g .keep = none := by
  unfold failure?
  simp

end

/-! ## Costs in natural numbers -/

section

variable {g : CallGraph} {r : Resolution Nat}

/-- A caller that is not among the callees takes over their costs as they were before. -/
theorem foldl_takeCost_eq {caller : String} {callees : List String} (hnot : caller ∉ callees)
    (costs : FunctionTable Nat) : callees.foldl (takeCost caller) costs =
      callees.foldl (fun table c => table.add caller (costs.getD c 0)) costs := by
  refine (List.foldl_rel (r := fun table table' : FunctionTable Nat => table = table' ∧
    ∀ c ∈ callees, table.getD c 0 = costs.getD c 0) ⟨rfl, fun _ _ => rfl⟩ ?_).1
  rintro callee hcallee table _ ⟨rfl, hkeep⟩
  refine ⟨?_, fun c hc => ?_⟩
  · exact congrArg _ (hkeep callee hcallee)
  · have hne : caller ≠ c := by
      rintro rfl
      exact hnot hc
    rw [takeCost, FunctionTable.add, Std.TreeMap.getD_insert, if_neg, hkeep c hc]
    rwa [Std.LawfulEqOrd.compare_eq_iff_eq]

/-- Taking over costs adds them all to those of the caller and changes no other cost. -/
theorem getElem?_foldl_takeCost {caller : String} {callees : List String} (hnot : caller ∉ callees)
    (hne : callees ≠ []) (costs : FunctionTable Nat) (key : String) :
    (callees.foldl (takeCost caller) costs)[key]? =
      if caller = key then some (costs.getD key 0 + (callees.map fun c => costs.getD c 0).sum)
      else costs[key]? := by
  rw [foldl_takeCost_eq hnot, FunctionTable.getElem?_foldl_add]
  by_cases hkey : caller = key
  · obtain ⟨c, hc⟩ := List.exists_mem_of_ne_nil _ hne
    have hall : callees.filter (fun _ => caller == key) = callees :=
      List.filter_eq_self.2 fun _ _ => by simpa using hkey
    rw [if_pos hkey, if_pos (List.mem_map.2 ⟨c, hc, hkey⟩), hall]
  · rw [if_neg hkey, if_neg]
    intro hmem
    obtain ⟨c, -, hc⟩ := List.mem_map.1 hmem
    exact hkey hc

/-- A settled function costs its own text and all that it calls, any other its own text. -/
structure Balanced (g : CallGraph) (r : Resolution Nat) : Prop where
  settled : ∀ key, r.isResolved key = true →
    r.costs.getD key 0 = r.raw.getD key 0 + ((g.callees key).map fun c => r.costs.getD c 0).sum
  unsettled : ∀ key, r.isResolved key = false → r.costs[key]? = r.raw[key]?
  entry : ∀ key, key ∈ r.raw → key ∈ r.costs

theorem settle_balanced (hg : g.WellFormed) (hs : r.Sound g) (h : r.Balanced g) {caller : String}
    (hcaller : g.callSites caller ≠ []) : (settle g r caller).Balanced g := by
  rcases settle_cases g r caller with ⟨heq, -⟩ | ⟨heq, hnew, hready⟩
  · rwa [heq]
  rw [heq]
  have hnot : caller ∉ g.callees caller := fun hself => by
    rw [hready caller hself] at hnew
    cases hnew
  have hcallees : g.callees caller ≠ [] := fun hnil => hcaller (List.map_eq_nil_iff.1 hnil)
  have hget := getElem?_foldl_takeCost hnot hcallees r.costs
  -- no settled function has its cost changed
  have hkeep : ∀ c, r.isResolved c = true →
      (settled g r caller).costs.getD c 0 = r.costs.getD c 0 := by
    intro c hc
    have hne : caller ≠ c := by
      rintro rfl
      rw [hc] at hnew
      cases hnew
    rw [Std.TreeMap.getD_eq_getD_getElem?, Std.TreeMap.getD_eq_getD_getElem?]
    exact congrArg (·.getD 0) ((hget c).trans (if_neg hne))
  refine ⟨fun key hkey => ?_, fun key hkey => ?_, fun key hkey => ?_⟩
  · rcases isResolved_settled.1 hkey with rfl | hkey
    · have hown : (settled g r key).costs.getD key 0 =
          r.costs.getD key 0 + ((g.callees key).map fun c => r.costs.getD c 0).sum := by
        rw [Std.TreeMap.getD_eq_getD_getElem?]
        exact congrArg (·.getD 0) ((hget key).trans (if_pos rfl))
      rw [hown, Std.TreeMap.getD_eq_getD_getElem?, h.unsettled key hnew,
        ← Std.TreeMap.getD_eq_getD_getElem?]
      congr 2
      exact List.map_congr_left fun c hc => (hkeep c (hready c hc)).symm
    · rw [hkeep key hkey, h.settled key hkey]
      congr 2
      exact List.map_congr_left fun c hc => (hkeep c (hs.callee hg hkey hc)).symm
  · have hne : caller ≠ key := by
      rintro rfl
      rw [isResolved_settled.2 (Or.inl rfl)] at hkey
      cases hkey
    have hold : r.isResolved key = false := by
      rw [← Bool.not_eq_true] at hkey ⊢
      exact fun hr => hkey (isResolved_settled.2 (Or.inr hr))
    exact ((hget key).trans (if_neg hne)).trans (h.unsettled key hold)
  · have hold := h.entry key hkey
    rw [Std.TreeMap.mem_iff_isSome_getElem?] at hold ⊢
    refine (congrArg Option.isSome (hget key)).trans ?_
    split
    · rfl
    · exact hold

theorem start_balanced (g : CallGraph) (widths : Widths) (loops : LoopCosts Nat) :
    (start g widths loops).Balanced g := by
  refine ⟨fun key hkey => ?_, fun _ _ => rfl, fun _ hkey => hkey⟩
  rcases ((start_sound g widths loops).resolved key).1 hkey with ⟨-, hnil⟩ | hmem
  · unfold CallGraph.callees
    rw [hnil]
    rfl
  · cases hmem

theorem iterate_round_balanced (hg : g.WellFormed) (hs : r.Sound g) (h : r.Balanced g)
    (passes : Nat) :
    (((callersOf g.functions.toList).foldl (settle g))^[passes] r).Balanced g := by
  induction passes with
  | zero => exact h
  | succ passes ih =>
    rw [Function.iterate_succ_apply']
    refine (List.foldlRecOn (motive := fun r : Resolution Nat => r.Sound g ∧ r.Balanced g) _ _
      ⟨iterate_round_sound hs passes, ih⟩ fun r hr caller hc => ?_).2
    have hcaller := CallGraph.mem_callersOf.1 hc
    exact ⟨settle_sound hr.1 hcaller, settle_balanced hg hr.1 hr.2 hcaller⟩

theorem ofGraph_balanced (hg : g.WellFormed) (widths : Widths) (loops : LoopCosts Nat) :
    (ofGraph g widths loops).Balanced g := by
  obtain ⟨passes, -, heq, -⟩ := ofGraph_stops g widths loops
  rw [heq]
  exact iterate_round_balanced hg (start_sound g widths loops) (start_balanced g widths loops)
    passes

end

end Resolution

/-! ## Costs in words -/

section

variable {g : CallGraph} {widths : Widths} {loops : LoopCosts Nat} {loops' : LoopCosts Int64}

theorem mem_rawCosts {α : Type} [Tally α] {loops : LoopCosts α} {keys : List String}
    {owned : List (NodeId × String)} {key : String} (h : key ∈ keys) :
    key ∈ rawCosts widths loops keys owned := by
  have htouched : ∀ (keys : List String) (table : FunctionTable α), key ∈ keys ∨ key ∈ table →
      key ∈ keys.foldl FunctionTable.touch table := by
    intro keys
    induction keys with
    | nil => intro table h; exact h.resolve_left List.not_mem_nil
    | cons k keys ih =>
      intro table h
      refine ih _ ?_
      rw [FunctionTable.touch, Std.TreeMap.mem_insertIfNew, Std.LawfulEqOrd.compare_eq_iff_eq]
      rcases h with h | h
      · exact (List.mem_cons.1 h).symm.imp_right fun hk => Or.inl hk.symm
      · exact Or.inr (Or.inr h)
  exact List.foldlRecOn (motive := fun table : FunctionTable α => key ∈ table) _ _
    (htouched keys ∅ (Or.inl h)) fun table htable e _ => Std.TreeMap.mem_insert.2 (Or.inr htable)

/-- The cost of a settled function in words, from that in natural numbers. -/
theorem toInt_cost_of_settled (hg : g.WellFormed) (hl : loops.Related Saturating.ofNat loops')
    {key : String} (hkey : (Resolution.ofGraph g widths loops').isResolved key = true) :
    ((Resolution.ofGraph g widths loops').costs.getD key 0).toInt = min Saturating.cap.toInt
      (((Resolution.ofGraph g widths loops').raw.getD key 0).toInt +
        ((g.callees key).map fun c =>
          ((Resolution.ofGraph g widths loops').costs.getD c 0).toInt).sum) := by
  have hr := Resolution.ofGraph_related Saturating.ofNat_hom g widths hl
  have hbal := (Resolution.ofGraph_balanced hg widths loops).settled key (by
    rw [← hr.isResolved]
    exact hkey)
  have hcosts : ∀ c, (Resolution.ofGraph g widths loops').costs.getD c 0 =
      Saturating.ofNat ((Resolution.ofGraph g widths loops).costs.getD c 0) := fun c =>
    hr.costs.getD c 0
  have hraw : (Resolution.ofGraph g widths loops').raw.getD key 0 =
      Saturating.ofNat ((Resolution.ofGraph g widths loops).raw.getD key 0) := hr.raw.getD key 0
  simp only [hcosts, hraw]
  rw [hbal]
  exact ((Saturating.Agrees.ofNat _).add (.sum fun c _ => .ofNat _)).toInt_ofNat

end

/-- **The resolver is correct.** The functions that settle are exactly those from which no circle of
calls can be reached, and the run fails exactly when there is a circle and the mode minds it. A
settled function costs its raw cost and the final costs of all it calls, once for each call site,
cut off at the cap; any other keeps its raw cost. The rounds end because one of them, at the latest
the last that the limit allows, settles nothing. -/
theorem resolution_correct (t : Tree) (identity : FunctionIdentity) (policy : NestingPolicy) :
    let g := CallGraph.ofTree t identity
    let loops : LoopCosts Int64 := .ofTree t policy
    let r := Resolution.ofGraph g (Widths.ofTree t) loops
    let callers := Resolution.callersOf g.functions.toList
    let round := callers.foldl (Resolution.settle g)
    (∀ key, r.isResolved key = true ↔ key ∈ g.functions ∧ ¬ g.ReachesCircle key) ∧
      ((r.failure? g .error).isSome = true ↔ ∃ c, Relation.TransGen g.Calls c c) ∧
      r.failure? g .keep = none ∧
      (∀ key, r.isResolved key = true →
        key ∈ r.costs ∧ (r.costs.getD key 0).toInt = min Saturating.cap.toInt
          ((r.raw.getD key 0).toInt +
            ((g.callees key).map fun c => (r.costs.getD c 0).toInt).sum)) ∧
      (∀ key, r.isResolved key = false → r.costs[key]? = r.raw[key]?) ∧
      ∃ passes ≤ callers.length,
        r = round^[passes] (Resolution.start g (Widths.ofTree t) loops) ∧ round r = r := by
  intro g loops r callers round
  have hg : g.WellFormed := CallGraph.ofTree_wellFormed t identity
  have hl : LoopCosts.Related Saturating.ofNat (.ofTree t policy) loops :=
    LoopCosts.ofTree_related Saturating.ofNat_hom t policy
  have hr := Resolution.ofGraph_related Saturating.ofNat_hom g (Widths.ofTree t) hl
  have hbal := Resolution.ofGraph_balanced hg (Widths.ofTree t) (.ofTree t policy)
  refine ⟨Resolution.ofGraph_isResolved_iff hg, ?_, Resolution.failure?_keep,
    fun key hkey => ⟨?_, toInt_cost_of_settled hg hl hkey⟩, fun key hkey => ?_, ?_⟩
  · rw [Resolution.failure?_error_isSome, Resolution.ofGraph_unresolved_ne_nil_iff hg]
  · rw [hr.costs.mem_iff]
    refine hbal.entry key ?_
    rw [Resolution.ofGraph_raw]
    have hmem := ((Resolution.ofGraph_isResolved_iff hg key).1 hkey).1
    exact mem_rawCosts (Std.TreeMap.mem_keys.2 hmem)
  · rw [hr.costs key, hr.raw key, hbal.unsettled key (by rw [← hr.isResolved]; exact hkey)]
  · obtain ⟨passes, hle, heq, hself⟩ := Resolution.ofGraph_stops g (Widths.ofTree t) loops
    exact ⟨passes, hle, heq, Resolution.foldl_settle_eq_self hself⟩

end ShaderCost
