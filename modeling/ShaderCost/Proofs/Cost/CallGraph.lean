import Mathlib.Data.Set.Finite.List
import Mathlib.Data.Fintype.Card
import Mathlib.Logic.Relation
import Mathlib.Order.WellFounded
import ShaderCost.Cost.CallGraph

/-! # The call graph as a relation

`Calls g a b`: the function `a` has a call site for `b`. A circle is a function that is related to
itself by one or more calls, and `ReachesCircle g a` says that calls lead from `a` to a circle.

Of the graph of a tree this file shows what the later stages rely on (`ofTree_wellFormed`): whatever
is called has an entry, and the callers that are listed have call sites. Since there are finitely
many entries, a function that always leads on to another one of the same sort reaches a circle
(`reachesCircle_of_stuck`).
-/

namespace ShaderCost

/-- A node that means a function: its definition, or a call of it. -/
def Node.isReference (n : Node) : Bool := n.kind == .function || n.isCall

namespace CallGraph

variable {g : CallGraph}

/-! ## Calls and circles -/

/-- The function `a` calls `b` somewhere. -/
def Calls (g : CallGraph) (a b : String) : Prop := b ∈ g.callees a

instance (g : CallGraph) (a b : String) : Decidable (g.Calls a b) :=
  inferInstanceAs (Decidable (b ∈ g.callees a))

/-- Calls lead from `a` to a function that runs into itself. -/
def ReachesCircle (g : CallGraph) (a : String) : Prop :=
  ∃ c, Relation.ReflTransGen g.Calls a c ∧ Relation.TransGen g.Calls c c

theorem callSites_eq_nil_iff {a : String} : g.callSites a = [] ↔ ∀ b, ¬ g.Calls a b := by
  unfold Calls callees
  rw [← List.map_eq_nil_iff, List.eq_nil_iff_forall_not_mem]

/-- Only functions with an entry have call sites. -/
theorem mem_functions_of_callSites {a : String} (h : g.callSites a ≠ []) : a ∈ g.functions := by
  by_contra ha
  refine h ?_
  unfold callSites info
  rw [Std.TreeMap.getD_eq_fallback ha]

theorem Calls.caller_mem {a b : String} (h : g.Calls a b) : a ∈ g.functions :=
  mem_functions_of_callSites fun hnil => callSites_eq_nil_iff.1 hnil b h

/-- The way to a circle begins with a call from which a circle can be reached. -/
theorem ReachesCircle.exists_callee {a : String} (h : g.ReachesCircle a) :
    ∃ b, g.Calls a b ∧ g.ReachesCircle b := by
  obtain ⟨c, hac, hcc⟩ := h
  rcases hac.cases_head with rfl | ⟨b, hab, hbc⟩
  · obtain ⟨b, hab, hba⟩ := Relation.TransGen.head'_iff.1 hcc
    exact ⟨b, hab, a, hba, hcc⟩
  · exact ⟨b, hab, c, hbc, hcc⟩

/-- Where every function of a sort calls one of the same sort, all of them reach a circle. -/
theorem reachesCircle_of_stuck {P : String → Prop} (hmem : ∀ a, P a → a ∈ g.functions)
    (hnext : ∀ a, P a → ∃ b, g.Calls a b ∧ P b) {a : String} (ha : P a) : g.ReachesCircle a := by
  by_contra hno
  -- without a circle the calls below `a` would be well-founded on the finite set of those functions
  let below : Set String := { b | Relation.ReflTransGen g.Calls a b ∧ P b }
  let down : below → below → Prop := fun x y => Relation.TransGen g.Calls y.1 x.1
  have hfinite : below.Finite := (List.finite_toSet g.functions.keys).subset fun b hb =>
    Std.TreeMap.mem_keys.2 (hmem b hb.2)
  have : Finite below := hfinite.to_subtype
  have : Std.Irrefl down := ⟨fun x hx => hno ⟨x.1, x.2.1, hx⟩⟩
  have : IsTrans below down := ⟨fun _ _ _ hxy hyz => hyz.trans hxy⟩
  obtain ⟨m, -, hmin⟩ :=
    (Finite.wellFounded_of_trans_of_irrefl down).has_min Set.univ ⟨⟨a, .refl, ha⟩, trivial⟩
  obtain ⟨b, hmb, hb⟩ := hnext m.1 m.2.2
  exact hmin ⟨b, m.2.1.tail hmb, hb⟩ trivial (.single hmb)

/-- Without circles the calls are well-founded: callers come before what they call. -/
theorem wellFounded_calls (h : ¬ ∃ c, Relation.TransGen g.Calls c c) : WellFounded g.Calls := by
  let callers : Set String := { a | a ∈ g.functions }
  let above : callers → callers → Prop := fun x y => Relation.TransGen g.Calls x.1 y.1
  have hfinite : callers.Finite := (List.finite_toSet g.functions.keys).subset fun a ha =>
    Std.TreeMap.mem_keys.2 ha
  have : Finite callers := hfinite.to_subtype
  have : Std.Irrefl above := ⟨fun x hx => h ⟨x.1, hx⟩⟩
  have : IsTrans callers above := ⟨fun _ _ _ hxy hyz => hxy.trans hyz⟩
  have hcallers : ∀ x : callers, Acc g.Calls x.1 := by
    intro x
    induction x using (Finite.wellFounded_of_trans_of_irrefl above).induction with
    | _ x ih => exact ⟨_, fun a ha => ih ⟨a, ha.caller_mem⟩ (.single ha)⟩
  exact ⟨fun b => ⟨_, fun a ha => hcallers ⟨a, ha.caller_mem⟩⟩⟩

/-! ## What holds of every graph -/

/-- What is called has an entry, and the listed callers have call sites. -/
structure WellFormed (g : CallGraph) : Prop where
  callee_mem : ∀ {a b}, g.Calls a b → b ∈ g.functions
  caller_calls : ∀ {a}, a ∈ g.callers → g.callSites a ≠ []

theorem callSites_of_insert {g' : CallGraph} {key : String} {entry : FunctionInfo}
    (h : g'.functions = g.functions.insert key entry) (a : String) :
    g'.callSites a = if key = a then entry.callSites else g.callSites a := by
  unfold callSites info
  simp only [h, Std.TreeMap.getD_insert, Std.LawfulEqOrd.compare_eq_iff_eq]
  split <;> rfl

/-- An entry that keeps its call sites leaves all call sites as they are. -/
theorem callSites_of_keep {g' : CallGraph} {key : String} {entry : FunctionInfo}
    (h : g'.functions = g.functions.insert key entry) (hkeep : entry.callSites = g.callSites key)
    (a : String) : g'.callSites a = g.callSites a := by
  rw [callSites_of_insert h]
  split
  · next hka => rw [hkeep, hka]
  · rfl

theorem callSites_define (g : CallGraph) (key : String) (id : NodeId) (n : Node) (a : String) :
    (g.define key id n).callSites a = g.callSites a := by
  have h : (g.define key id n).functions = g.functions.insert key
      { g.info key with name := n.name, definition := some id, line := n.line } := rfl
  exact callSites_of_keep h rfl a

/-- The graph in which the function that a call means has its name. -/
def withName (g : CallGraph) (key name : String) : CallGraph :=
  { g with functions := g.functions.insert key { g.info key with name } }

theorem callSites_withName (g : CallGraph) (key name a : String) :
    (g.withName key name).callSites a = g.callSites a := by
  have h : (g.withName key name).functions = g.functions.insert key { g.info key with name } := rfl
  exact callSites_of_keep h rfl a

theorem callSites_addCall (g : CallGraph) (caller callee : String) (id : NodeId) (n : Node)
    (a : String) : (g.addCall caller callee id n).callSites a =
      if caller = a then g.callSites a ++ [{ callee, node := id, line := n.line }]
      else g.callSites a := by
  have h : (g.addCall caller callee id n).functions =
      (g.withName callee n.name).functions.insert caller
        { (g.withName callee n.name).info caller with
          callSites := (g.withName callee n.name).callSites caller ++
            [{ callee, node := id, line := n.line }] } := rfl
  rw [callSites_of_insert h, callSites_withName, callSites_withName]
  split
  · next hca => rw [hca]
  · rfl

theorem mem_functions_addCall {caller callee : String} {id : NodeId} {n : Node} {a : String} :
    a ∈ (g.addCall caller callee id n).functions ↔ caller = a ∨ callee = a ∨ a ∈ g.functions := by
  unfold addCall
  simp only [Std.TreeMap.mem_insert, Std.LawfulEqOrd.compare_eq_iff_eq]

theorem callers_addCall (g : CallGraph) (caller callee : String) (id : NodeId) (n : Node) :
    (g.addCall caller callee id n).callers =
      if (g.callSites caller).isEmpty then g.callers ++ [caller] else g.callers := by
  rw [← callSites_withName g callee n.name]
  rfl

theorem define_wellFormed (h : g.WellFormed) (key : String) (id : NodeId) (n : Node) :
    (g.define key id n).WellFormed := by
  have hcalls : ∀ {a b}, (g.define key id n).Calls a b → g.Calls a b := by
    intro a b hab
    unfold Calls callees at hab ⊢
    rwa [callSites_define] at hab
  refine ⟨fun hab => ?_, fun ha => ?_⟩
  · exact Std.TreeMap.mem_insert.2 (Or.inr (h.callee_mem (hcalls hab)))
  · rw [callSites_define]
    exact h.caller_calls ha

theorem addCall_wellFormed (h : g.WellFormed) (caller callee : String) (id : NodeId) (n : Node) :
    (g.addCall caller callee id n).WellFormed := by
  refine ⟨fun {a b} hab => ?_, fun {a} ha => ?_⟩
  · rw [mem_functions_addCall]
    unfold Calls callees at hab
    rw [callSites_addCall] at hab
    split at hab
    · rw [List.map_append, List.mem_append, List.map_singleton, List.mem_singleton] at hab
      rcases hab with hab | rfl
      · exact Or.inr (Or.inr (h.callee_mem hab))
      · exact Or.inr (Or.inl rfl)
    · exact Or.inr (Or.inr (h.callee_mem hab))
  · rw [callSites_addCall]
    split
    · exact List.append_ne_nil_of_right_ne_nil _ (List.cons_ne_nil _ _)
    · next hne =>
      rw [callers_addCall] at ha
      split at ha
      · rcases List.mem_append.1 ha with ha | ha
        · exact h.caller_calls ha
        · exact absurd (List.mem_singleton.1 ha).symm hne
      · exact h.caller_calls ha

/-- What recording a node can do: it adds a definition, or a call, or neither, and gives an
operation its owner. -/
theorem record_cases (t : Tree) (identity : FunctionIdentity) (g : CallGraph)
    (visit : NodeId × String) :
    ∃ g' : CallGraph,
      (((t.node visit.1).kind = .function ∧
          g' = g.define (identity.key (t.node visit.1)) visit.1 (t.node visit.1)) ∨
        ((t.node visit.1).isCall = true ∧
          g' = g.addCall visit.2 (identity.key (t.node visit.1)) visit.1 (t.node visit.1)) ∨
        ((t.node visit.1).isReference = false ∧ g' = g)) ∧
      (record t identity g visit).functions = g'.functions ∧
      (record t identity g visit).callers = g'.callers ∧
      (record t identity g visit).owners =
        if (t.node visit.1).isOperation then g.owners.insert visit.1 visit.2 else g.owners := by
  obtain ⟨id, key⟩ := visit
  unfold record Node.isReference
  simp only
  generalize t.node id = n
  by_cases hfunction : n.kind = .function
  · refine ⟨_, Or.inl ⟨hfunction, rfl⟩, ?_⟩
    cases n.isOperation <;> simp [hfunction, define]
  · by_cases hcall : n.isCall = true
    · refine ⟨_, Or.inr (Or.inl ⟨hcall, rfl⟩), ?_⟩
      cases n.isOperation <;> simp [hfunction, hcall, addCall]
    · refine ⟨_, Or.inr (Or.inr ⟨by simp [hfunction, hcall], rfl⟩), ?_⟩
      cases n.isOperation <;> simp [hfunction, hcall]

theorem callSites_congr {g' : CallGraph} (h : g'.functions = g.functions) (a : String) :
    g'.callSites a = g.callSites a := by
  unfold callSites info
  rw [h]

theorem WellFormed.congr {g' : CallGraph} (h : g.WellFormed)
    (hfunctions : g'.functions = g.functions) (hcallers : g'.callers = g.callers) :
    g'.WellFormed := by
  refine ⟨fun {a b} hab => ?_, fun {a} ha => ?_⟩
  · unfold Calls callees at hab
    rw [callSites_congr hfunctions] at hab
    rw [hfunctions]
    exact h.callee_mem hab
  · rw [callSites_congr hfunctions]
    exact h.caller_calls (hcallers ▸ ha)

theorem record_wellFormed (t : Tree) (identity : FunctionIdentity) (h : g.WellFormed)
    (visit : NodeId × String) : (record t identity g visit).WellFormed := by
  obtain ⟨g', hg', hfunctions, hcallers, -⟩ := record_cases t identity g visit
  refine WellFormed.congr ?_ hfunctions hcallers
  rcases hg' with ⟨-, rfl⟩ | ⟨-, rfl⟩ | ⟨-, rfl⟩
  · exact define_wellFormed h _ _ _
  · exact addCall_wellFormed h _ _ _ _
  · exact h

/-- The graph of every tree is well-formed. -/
theorem ofTree_wellFormed (t : Tree) (identity : FunctionIdentity) :
    (ofTree t identity).WellFormed := by
  refine List.foldlRecOn _ _ ⟨fun hab => ?_, fun ha => ?_⟩ fun g h visit _ =>
    record_wellFormed t identity h visit
  · exact absurd hab.caller_mem Std.TreeMap.not_mem_emptyc
  · exact absurd ha List.not_mem_nil

/-! ## The list of callers -/

/-- Every function with call sites is listed as a caller. -/
def ListsCallers (g : CallGraph) : Prop := ∀ a, g.callSites a ≠ [] → a ∈ g.callers

theorem addCall_listsCallers (h : g.ListsCallers) (caller callee : String) (id : NodeId)
    (n : Node) : (g.addCall caller callee id n).ListsCallers := by
  intro a ha
  rw [callSites_addCall] at ha
  rw [callers_addCall]
  by_cases hca : caller = a
  · subst hca
    split
    · simp
    · next hne => exact h caller (by simpa using hne)
  · rw [if_neg hca] at ha
    have hmem := h a ha
    split
    · exact List.mem_append_left _ hmem
    · exact hmem

theorem record_listsCallers (t : Tree) (identity : FunctionIdentity) (h : g.ListsCallers)
    (visit : NodeId × String) : (record t identity g visit).ListsCallers := by
  obtain ⟨g', hg', hfunctions, hcallers, -⟩ := record_cases t identity g visit
  have hlists : g'.ListsCallers := by
    rcases hg' with ⟨-, rfl⟩ | ⟨-, rfl⟩ | ⟨-, rfl⟩
    · intro a ha
      rw [callSites_define] at ha
      exact h a ha
    · exact addCall_listsCallers h _ _ _ _
    · exact h
  intro a ha
  rw [callSites_congr hfunctions] at ha
  rw [hcallers]
  exact hlists a ha

theorem ofTree_listsCallers (t : Tree) (identity : FunctionIdentity) :
    (ofTree t identity).ListsCallers := by
  refine List.foldlRecOn _ _ (fun a ha => ?_) fun g h visit _ =>
    record_listsCallers t identity h visit
  exact absurd (mem_functions_of_callSites ha) Std.TreeMap.not_mem_emptyc

/-! ## The call sites of a tree -/

/-- The call site that a call is recorded as. -/
def siteOf (t : Tree) (identity : FunctionIdentity) (id : NodeId) : CallSite where
  callee := identity.key (t.node id)
  node := id
  line := (t.node id).line

/-- The nodes that are visited, each with the key it inherits. -/
def visits (t : Tree) (identity : FunctionIdentity) : List (NodeId × String) :=
  t.walk (keyBelow t identity) noFunction

/-- The calls that are visited, each with its caller. -/
def callVisits (t : Tree) (identity : FunctionIdentity) : List (NodeId × String) :=
  (visits t identity).filter fun v => (t.node v.1).isCall

variable {t : Tree} {identity : FunctionIdentity}

theorem callSites_record (g : CallGraph) (visit : NodeId × String) (k : String) :
    (record t identity g visit).callSites k =
      if (t.node visit.1).isCall = true ∧ visit.2 = k then
        g.callSites k ++ [siteOf t identity visit.1]
      else g.callSites k := by
  obtain ⟨g', hg', hfunctions, -⟩ := record_cases t identity g visit
  rw [callSites_congr hfunctions]
  rcases hg' with ⟨hfunction, rfl⟩ | ⟨hcall, rfl⟩ | ⟨hother, rfl⟩
  · have hcall : (t.node visit.1).isCall = false := by simp [Node.isCall, hfunction]
    simp [callSites_define, hcall]
  · simp only [callSites_addCall, hcall, true_and]
    rfl
  · simp only [Node.isReference, Bool.or_eq_false_iff] at hother
    simp [hother.2]

/-- The call sites of a function are the calls that are visited in it. -/
theorem callSites_ofTree (k : String) : (ofTree t identity).callSites k =
    ((callVisits t identity).filter (·.2 == k)).map fun v => siteOf t identity v.1 := by
  have hfold : ∀ (visits : List (NodeId × String)) (g : CallGraph),
      (visits.foldl (record t identity) g).callSites k = g.callSites k ++
        ((visits.filter fun v => (t.node v.1).isCall).filter (·.2 == k)).map fun v =>
          siteOf t identity v.1 := by
    intro visits
    induction visits with
    | nil => simp
    | cons v visits ih =>
      intro g
      rw [List.foldl_cons, ih, callSites_record]
      by_cases hcall : (t.node v.1).isCall = true
      · by_cases hk : v.2 = k
        · simp [hcall, hk]
        · simp [hcall, hk]
      · simp [hcall]
  exact (hfold (visits t identity) {}).trans (List.nil_append _)

theorem calls_ofTree {a b : String} : (ofTree t identity).Calls a b ↔
    ∃ v ∈ callVisits t identity, v.2 = a ∧ identity.key (t.node v.1) = b := by
  simp [Calls, callees, callSites_ofTree, siteOf, and_assoc]

end CallGraph

end ShaderCost
