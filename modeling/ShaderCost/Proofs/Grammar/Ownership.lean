import Mathlib.Data.List.Perm.Subperm
import ShaderCost.Grammar.Parser
import ShaderCost.Proofs.Tree.Visits

/-! # Ownership of nodes

While a shader is read, the nodes that are made and hang nowhere yet are at hand. A new node takes
its children from those at hand and is then at hand itself; a literal at hand may be dropped, and the
symbol of a global variable is put aside in the state. Below the top level no rule of the grammar
does anything else with numbers of nodes (`Move`), nor does it make or declare a function. What a
parser does to the nodes at hand is its signature, `Parser.Builds`, and the rules below derive the
signature of a parser from those of its parts.

`Owned` is the invariant of the whole arena: links go down, and no node is linked twice or at hand
while it is linked. `Stretch` is the invariant of the nodes made since some moment: they are linked
among themselves only, and hang together below those at hand, but for literals and symbols. Every
move keeps both (`Move.owned`, `Move.stretch`), hence every sequence of moves (`Moves`).
-/

namespace ShaderCost

/-! ## The invariants -/

/-- Links go down, the nodes at hand exist, and each node is linked or at hand at most once. -/
structure Owned (nodes : Array Node) (held : List NodeId) : Prop where
  down : ∀ id, ∀ c ∈ (nodes.getD id default).children, c < id
  made : ∀ id ∈ held, id < nodes.size
  once : (links nodes ++ held).Nodup

namespace Owned

variable {nodes : Array Node} {held : List NodeId}

theorem empty : Owned #[] [] := by
  refine ⟨fun id c hc => ?_, fun id hid => ?_, List.nodup_nil⟩
  · cases hc
  · cases hid

/-- Nodes at hand may be reordered and dropped. -/
theorem sub (h : Owned nodes held) {held' : List NodeId} (hsub : held'.Subperm held) :
    Owned nodes held' := by
  refine ⟨h.down, fun id hid => h.made id (hsub.subset hid), ?_⟩
  obtain ⟨l, hperm, hl⟩ := (List.subperm_append_left (links nodes)).2 hsub
  exact hperm.nodup_iff.1 (hl.nodup h.once)

theorem link_lt (h : Owned nodes held) {c : NodeId} (hc : c ∈ links nodes) : c < nodes.size := by
  obtain ⟨n, hn, hc⟩ := List.mem_flatMap.1 hc
  obtain ⟨id, hid, rfl⟩ := List.getElem_of_mem hn
  rw [Array.length_toList] at hid
  refine Nat.lt_trans (h.down id c ?_) hid
  rwa [Array.getD_eq_getD_getElem?, Array.getElem?_eq_getElem hid, ← Array.getElem_toList]

theorem links_push (n : Node) : links (nodes.push n) = links nodes ++ n.children := by
  unfold links
  rw [Array.toList_push, List.flatMap_append, List.flatMap_singleton]

/-- A new node takes over its children and is at hand itself. -/
theorem push {n : Node} (h : Owned nodes (n.children ++ held)) :
    Owned (nodes.push n) (nodes.size :: held) := by
  refine ⟨fun id c hc => ?_, fun id hid => ?_, ?_⟩
  · rw [Array.getD_eq_getD_getElem?, Array.getElem?_push] at hc
    split at hc
    · next hid =>
      rw [hid]
      exact h.made c (List.mem_append_left held hc)
    · rw [← Array.getD_eq_getD_getElem?] at hc
      exact h.down id c hc
  · rw [Array.size_push]
    rcases List.mem_cons.1 hid with rfl | hid
    · exact Nat.lt_succ_self _
    · exact Nat.lt_succ_of_lt (h.made id (List.mem_append_right _ hid))
  · rw [links_push]
    refine List.nodup_middle.2 (List.nodup_cons.2 ⟨fun hmem => ?_, ?_⟩)
    · rw [List.append_assoc] at hmem
      rcases List.mem_append.1 hmem with hlink | hheld
      · exact Nat.lt_irrefl _ (h.link_lt hlink)
      · exact Nat.lt_irrefl _ (h.made _ hheld)
    · rw [List.append_assoc]
      exact h.once

end Owned

/-- A literal or a symbol. -/
def Node.isLeaf (n : Node) : Bool := n.kind == .constant || n.kind == .symbol

theorem Node.isLeaf_of_constant? {n : Node} (h : n.constant?.isSome = true) : n.isLeaf = true := by
  unfold constant? at h
  split at h
  · next hform => simp [isLeaf, kind, hform, NodeForm.kind]
  · cases h

theorem getD_push (nodes : Array Node) (n : Node) (id : NodeId) :
    (nodes.push n).getD id default = if id = nodes.size then n else nodes.getD id default := by
  rw [Array.getD_eq_getD_getElem?, Array.getElem?_push, Array.getD_eq_getD_getElem?]
  split <;> rfl

/-- The nodes made since there were `base` of them define no function and are linked among
themselves only, and each that is no leaf is at hand or linked. -/
structure Stretch (base : Nat) (nodes : Array Node) (held : List NodeId) : Prop where
  base_le : base ≤ nodes.size
  not_function : ∀ id, base ≤ id → id < nodes.size → (nodes.getD id default).kind ≠ .function
  held_ge : ∀ id ∈ held, base ≤ id
  links_ge : ∀ id, base ≤ id → ∀ c ∈ (nodes.getD id default).children, base ≤ c
  hangs : ∀ id, base ≤ id → id < nodes.size → (nodes.getD id default).isLeaf = false →
    id ∈ held ∨ ∃ parent, id ∈ (nodes.getD parent default).children

namespace Stretch

variable {base : Nat} {nodes : Array Node} {held : List NodeId}

theorem start (nodes : Array Node) : Stretch nodes.size nodes [] := by
  refine ⟨Nat.le_refl _, fun id hge hlt => ?_, fun id hid => ?_, fun id hge c hc => ?_,
    fun id hge hlt => ?_⟩
  · omega
  · cases hid
  · rw [Array.getD_eq_getD_getElem?, Array.getElem?_eq_none hge] at hc
    cases hc
  · omega

theorem perm {held' : List NodeId} (h : Stretch base nodes held) (hperm : held'.Perm held) :
    Stretch base nodes held' := by
  refine ⟨h.base_le, h.not_function, fun id hid => h.held_ge id (hperm.mem_iff.1 hid), h.links_ge,
    fun id hge hlt hleaf => ?_⟩
  rcases h.hangs id hge hlt hleaf with hheld | hlinked
  · exact Or.inl (hperm.mem_iff.2 hheld)
  · exact Or.inr hlinked

/-- A leaf need not be at hand. -/
theorem drop {id : NodeId} (h : Stretch base nodes (id :: held))
    (hleaf : (nodes.getD id default).isLeaf = true) : Stretch base nodes held := by
  refine ⟨h.base_le, h.not_function, fun id hid => h.held_ge id (List.mem_cons_of_mem _ hid),
    h.links_ge, fun id' hge hlt hnot => ?_⟩
  rcases h.hangs id' hge hlt hnot with hheld | hlinked
  · rcases List.mem_cons.1 hheld with rfl | hheld
    · rw [hleaf] at hnot
      cases hnot
    · exact Or.inl hheld
  · exact Or.inr hlinked

/-- A new node takes over its children, which are linked from then on. -/
theorem push {n : Node} (h : Stretch base nodes (n.children ++ held)) (hkind : n.kind ≠ .function) :
    Stretch base (nodes.push n) (nodes.size :: held) := by
  have hold : ∀ {id}, id < nodes.size →
      (nodes.push n).getD id default = nodes.getD id default := by
    intro id hid
    rw [getD_push, if_neg (Nat.ne_of_lt hid)]
  have hnew : (nodes.push n).getD nodes.size default = n := by rw [getD_push, if_pos rfl]
  refine ⟨?_, fun id hge hlt => ?_, fun id hid => ?_, fun id hge c hc => ?_, fun id hge hlt => ?_⟩
  · rw [Array.size_push]
    exact Nat.le_succ_of_le h.base_le
  · rw [Array.size_push] at hlt
    rcases Nat.lt_succ_iff_lt_or_eq.1 hlt with hlt | rfl
    · rw [hold hlt]
      exact h.not_function id hge hlt
    · rwa [hnew]
  · rcases List.mem_cons.1 hid with rfl | hid
    · exact h.base_le
    · exact h.held_ge id (List.mem_append_right _ hid)
  · rw [getD_push] at hc
    split at hc
    · exact h.held_ge c (List.mem_append_left held hc)
    · exact h.links_ge id hge c hc
  · rw [Array.size_push] at hlt
    rcases Nat.lt_succ_iff_lt_or_eq.1 hlt with hlt | rfl
    · intro hleaf
      rw [hold hlt] at hleaf
      rcases h.hangs id hge hlt hleaf with hheld | ⟨parent, hparent⟩
      · rcases List.mem_append.1 hheld with hchild | hheld
        · exact Or.inr ⟨nodes.size, by rwa [hnew]⟩
        · exact Or.inl (List.mem_cons_of_mem _ hheld)
      · refine Or.inr ⟨parent, ?_⟩
        rw [getD_push]
        split
        · next heq =>
          rw [heq, Array.getD_eq_getD_getElem?, Array.getElem?_eq_none (Nat.le_refl _)] at hparent
          cases hparent
        · exact hparent
    · exact fun _ => Or.inl List.mem_cons_self

end Stretch

/-! ## Moves -/

/-- What happens to arena, globals and the nodes at hand in one move. -/
inductive Move : ParserState × List NodeId → ParserState × List NodeId → Prop where
  | keep {s s' : ParserState} {held : List NodeId} (hnodes : s'.nodes = s.nodes)
      (hglobals : s'.globals = s.globals) (hfunctions : s'.functions = s.functions) :
      Move (s, held) (s', held)
  | node {s : ParserState} {held : List NodeId} (n : Node) (hkind : n.kind ≠ .function) :
      Move (s, n.children ++ held) ({ s with nodes := s.nodes.push n }, s.nodes.size :: held)
  | global {s : ParserState} {held : List NodeId} (n : Node) (hkind : n.kind = .symbol)
      (hchildren : n.children = []) :
      Move (s, held)
        ({ s with nodes := s.nodes.push n, globals := s.globals ++ [s.nodes.size] }, held)
  | perm {s : ParserState} {held held' : List NodeId} (h : held'.Perm held) :
      Move (s, held) (s, held')
  | drop {s : ParserState} {held : List NodeId} (id : NodeId)
      (h : (s.nodes.getD id default).constant?.isSome = true) : Move (s, id :: held) (s, held)

abbrev Moves : ParserState × List NodeId → ParserState × List NodeId → Prop :=
  Relation.ReflTransGen Move

/-- Moves keep the invariant. -/
theorem Move.owned {x y : ParserState × List NodeId} (h : Move x y)
    (hx : Owned x.1.nodes (x.2 ++ x.1.globals)) : Owned y.1.nodes (y.2 ++ y.1.globals) := by
  cases h with
  | keep hnodes hglobals hfunctions =>
    rw [hnodes, hglobals]
    exact hx
  | node n hkind =>
    exact Owned.push (hx.sub (List.Perm.of_eq (List.append_assoc _ _ _).symm).subperm)
  | @global s held n hkind hchildren =>
    have hpush : Owned (s.nodes.push n) (s.nodes.size :: (held ++ s.globals)) :=
      Owned.push (by rwa [hchildren, List.nil_append])
    refine hpush.sub (List.Perm.subperm ?_)
    rw [← List.append_assoc]
    exact List.perm_append_singleton _ _
  | perm hperm => exact hx.sub (hperm.append_right _).subperm
  | drop id _ => exact hx.sub (List.sublist_cons_self id _).subperm

theorem Move.stretch {base : Nat} {x y : ParserState × List NodeId} (h : Move x y)
    (hx : Stretch base x.1.nodes x.2) : Stretch base y.1.nodes y.2 := by
  cases h with
  | keep hnodes hglobals hfunctions =>
    rw [hnodes]
    exact hx
  | node n hkind => exact hx.push hkind
  | @global s held n hkind hchildren =>
    have hpush : Stretch base (s.nodes.push n) (s.nodes.size :: held) := by
      refine Stretch.push ?_ (by simp [hkind])
      rwa [hchildren]
    refine hpush.drop ?_
    rw [getD_push, if_pos rfl]
    simp [Node.isLeaf, hkind]
  | perm hperm => exact hx.perm hperm
  | drop id hconstant => exact hx.drop (Node.isLeaf_of_constant? hconstant)

theorem Move.functions_eq {x y : ParserState × List NodeId} (h : Move x y) :
    y.1.functions = x.1.functions := by
  cases h with
  | keep _ _ hfunctions => exact hfunctions
  | _ => rfl

theorem Moves.owned {x y : ParserState × List NodeId} (h : Moves x y)
    (hx : Owned x.1.nodes (x.2 ++ x.1.globals)) : Owned y.1.nodes (y.2 ++ y.1.globals) := by
  induction h with
  | refl => exact hx
  | tail _ hmove ih => exact hmove.owned ih

theorem Moves.stretch {base : Nat} {x y : ParserState × List NodeId} (h : Moves x y)
    (hx : Stretch base x.1.nodes x.2) : Stretch base y.1.nodes y.2 := by
  induction h with
  | refl => exact hx
  | tail _ hmove ih => exact hmove.stretch ih

/-- Other nodes may be at hand too. -/
theorem Move.frame {x y : ParserState × List NodeId} (h : Move x y) (others : List NodeId) :
    Move (x.1, x.2 ++ others) (y.1, y.2 ++ others) := by
  cases h with
  | keep hnodes hglobals hfunctions => exact .keep hnodes hglobals hfunctions
  | node n hkind =>
    rw [List.append_assoc, List.cons_append]
    exact .node n hkind
  | global n hkind hchildren => exact .global n hkind hchildren
  | perm hperm => exact .perm (hperm.append_right others)
  | drop id hconstant => exact .drop id hconstant

theorem Moves.frame {x y : ParserState × List NodeId} (h : Moves x y) (others : List NodeId) :
    Moves (x.1, x.2 ++ others) (y.1, y.2 ++ others) := by
  induction h with
  | refl => exact .refl
  | tail _ hmove ih => exact .tail ih (hmove.frame others)

theorem Moves.functions_eq {x y : ParserState × List NodeId} (h : Moves x y) :
    y.1.functions = x.1.functions := by
  induction h with
  | refl => rfl
  | tail _ hmove ih => rw [hmove.functions_eq, ih]

namespace Parser

variable {α β : Type}

/-- A run of the parser that begins with the nodes `held` at hand ends, if it does not complain,
with the nodes `held' a` at hand, where `a` is its result. -/
def Builds (p : Parser α) (held : List NodeId) (held' : α → List NodeId) : Prop :=
  ∀ ⦃s s' : ParserState⦄ ⦃a : α⦄, p s = .ok (a, s') →
    Moves (s, held) (s', held' a)

/-- Leaves the nodes at hand alone. -/
def Keeps (p : Parser α) : Prop := ∀ held, p.Builds held fun _ => held

/-- Makes one node and hands it out. -/
def Yields (p : Parser NodeId) : Prop := ∀ held, p.Builds held fun id => id :: held

/-- Hands out a node or none. -/
def YieldsSome (p : Parser (Option NodeId)) : Prop :=
  ∀ held, p.Builds held fun o => o.toList ++ held

/-! ## Rules -/

section

variable {p : Parser α} {f : α → Parser β} {held : List NodeId} {mid : α → List NodeId}
  {held' : β → List NodeId}

theorem Builds.bind (hp : p.Builds held mid) (hf : ∀ a, (f a).Builds (mid a) held') :
    (p >>= f).Builds held held' := by
  intro s s'' b h
  change (p s >>= fun x => f x.1 x.2) = _ at h
  cases hps : p s with
  | error e =>
    rw [hps] at h
    cases h
  | ok x =>
    rw [hps] at h
    exact (hp hps).trans (hf x.1 h)

theorem Keeps.bind (hp : p.Keeps) (hf : ∀ a, (f a).Builds held held') :
    (p >>= f).Builds held held' := Builds.bind (hp held) hf

theorem Yields.bind {p : Parser NodeId} {f : NodeId → Parser β} (hp : p.Yields)
    (hf : ∀ id, (f id).Builds (id :: held) held') : (p >>= f).Builds held held' :=
  Builds.bind (hp held) hf

theorem Builds.pure {b : β} (h : (held' b).Perm held) :
    (Pure.pure b : Parser β).Builds held held' := by
  intro s s' a hrun
  cases hrun
  exact .single (.perm h)

/-- Nodes at hand are reordered first. -/
theorem Builds.perm {p : Parser β} {kept : List NodeId} (h : kept.Perm held)
    (hp : p.Builds kept held') : p.Builds held held' := fun _ _ _ hrun =>
  .head (.perm h) (hp hrun)

theorem Builds.failAt (token : Token) (complaint : Complaint) :
    (failAt token complaint : Parser β).Builds held held' := by
  intro s s' a hrun
  cases hrun

theorem Builds.fail (complaint : Complaint) : (fail complaint : Parser β).Builds held held' := by
  intro s s' a hrun
  cases hrun

theorem Builds.ite {c : Prop} [Decidable c] {p q : Parser β} (hp : p.Builds held held')
    (hq : q.Builds held held') : (if c then p else q).Builds held held' := by
  split
  · exact hp
  · exact hq

/-- What comes after a complaint is not run. -/
theorem Builds.failAt_bind {token : Token} {complaint : Complaint} :
    (Parser.failAt token complaint >>= f).Builds held held' := by
  intro s s' a hrun
  cases hrun

theorem Builds.fail_bind {complaint : Complaint} :
    (Parser.fail complaint >>= f).Builds held held' := by
  intro s s' a hrun
  cases hrun

/-- A check that complains or does nothing. -/
theorem Builds.check {c : Prop} [Decidable c] {token : Token} {complaint : Complaint}
    {next : Unit → Parser β} (h : (next ()).Builds held held') :
    (if c then Parser.failAt token complaint >>= next else next ()).Builds held held' :=
  .ite .failAt_bind h

/-- A step that is left out where it is not called for. -/
theorem Builds.optional {c : Prop} [Decidable c] {p : Parser α} {next : Parser β} (hp : p.Keeps)
    (h : next.Builds held held') : (if c then p >>= fun _ => next else next).Builds held held' :=
  .ite (hp.bind fun _ => h) h

/-- Two ways to what comes next. -/
theorem Builds.choose {c : Prop} [Decidable c] {q : Parser α} (hp : p.Builds held mid)
    (hq : q.Builds held mid) (hf : ∀ a, (f a).Builds (mid a) held') :
    (if c then p >>= f else q >>= f).Builds held held' :=
  .ite (hp.bind hf) (hq.bind hf)

theorem Builds.map {p : Parser α} {g : α → β} (hp : p.Builds held fun a => held' (g a)) :
    (g <$> p).Builds held held' := by
  rw [map_eq_pure_bind]
  exact hp.bind fun a => .pure (List.Perm.refl _)

theorem Yields.some {p : Parser NodeId} (h : p.Yields) : (Option.some <$> p).YieldsSome :=
  fun held => .map (h held)

theorem YieldsSome.none : (Pure.pure Option.none : Parser (Option NodeId)).YieldsSome := fun _ =>
  .pure (List.Perm.refl _)

/-- The children of a node in any order, among others at hand. -/
theorem Builds.addNode {n : Node} {rest : List NodeId} (hkind : n.kind ≠ .function)
    (h : held.Perm (n.children ++ rest)) : (addNode n).Builds held fun id => id :: rest := by
  intro s s' id hrun
  cases hrun
  exact .head (.perm h.symm) (.single (.node n hkind))

/-- A step that leaves arena, globals and functions alone. -/
theorem Builds.quiet {g : ParserState → ParserState} (hnodes : ∀ s, (g s).nodes = s.nodes)
    (hglobals : ∀ s, (g s).globals = s.globals) (hfunctions : ∀ s, (g s).functions = s.functions) :
    (modify g : Parser PUnit).Builds held fun _ => held := by
  intro s s' a hrun
  cases hrun
  exact .single (.keep (hnodes s) (hglobals s) (hfunctions s))

/-- The symbol of a global variable is put aside. -/
theorem Builds.global {n : Node} {f : PUnit → Parser β} (hkind : n.kind = .symbol)
    (hchildren : n.children = []) (hf : (f ⟨⟩).Builds held held') :
    (Parser.addNode n >>= fun id =>
      (modify fun s => { s with globals := s.globals ++ [id] } : Parser PUnit) >>= f).Builds held
        held' := by
  intro s s' b hrun
  exact .head (.global n hkind hchildren) (hf hrun)

/-- A literal that is looked at may be dropped. -/
theorem Builds.nodeAt {id : NodeId} {f : Node → Parser β}
    (h : ∀ n, (f n).Builds (id :: held) held' ∨
      n.constant?.isSome = true ∧ (f n).Builds held held') :
    (Parser.nodeAt id >>= f).Builds (id :: held) held' := by
  intro s s' b hrun
  change (found s.nodes[id]? >>= f) s = _ at hrun
  cases hn : s.nodes[id]? with
  | none =>
    rw [hn] at hrun
    cases hrun
  | some n =>
    rw [hn] at hrun
    rcases h n with hkeeps | ⟨hconstant, hdrops⟩
    · exact hkeeps hrun
    · refine .head (.drop id ?_) (hdrops hrun)
      rwa [Array.getD_eq_getD_getElem?, hn]

theorem Keeps.get : (get : Parser ParserState).Keeps := by
  intro held s s' a hrun
  cases hrun
  exact .refl

theorem Keeps.pure (a : α) : (Pure.pure a : Parser α).Keeps := fun _ => .pure (List.Perm.refl _)

end

/-! ## Tokens -/

theorem current_keeps : current.Keeps := fun _ => Keeps.get.bind fun _ => Keeps.pure _ _

theorem following_keeps : following.Keeps := fun _ => Keeps.get.bind fun _ => Keeps.pure _ _

theorem advance_keeps : advance.Keeps := by
  intro held
  refine current_keeps.bind fun token => ?_
  split
  · exact .failAt _ _
  · exact Builds.bind (.quiet (fun _ => rfl) (fun _ => rfl) fun _ => rfl) fun _ => Keeps.pure _ _

theorem accept_keeps (mark : Symbol) : (accept mark).Keeps := by
  intro held
  refine current_keeps.bind fun token => ?_
  exact .ite (advance_keeps.bind fun _ => Keeps.pure _ _) (Keeps.pure _ _)

theorem isAt_keeps (mark : Symbol) : (isAt mark).Keeps := fun _ =>
  current_keeps.bind fun _ => Keeps.pure _ _

theorem expectLexeme_keeps (lexeme : Lexeme) : (expectLexeme lexeme).Keeps := by
  intro held
  refine current_keeps.bind fun token => ?_
  exact .ite (advance_keeps held) (.fail _)

theorem expect_keeps (mark : Symbol) : (expect mark).Keeps := expectLexeme_keeps _

theorem expectKeyword_keeps (word : Keyword) : (expectKeyword word).Keeps := expectLexeme_keeps _

theorem expectName_keeps : expectName.Keeps := by
  intro held
  refine current_keeps.bind fun token => ?_
  split
  · exact advance_keeps.bind fun _ => Keeps.pure _ _
  · exact .fail _

theorem found_keeps {α : Type} (x : Option α) : (found x).Keeps := by
  intro held
  cases x with
  | none => exact .fail _
  | some a => exact Keeps.pure a held

/-! ## Nodes -/

theorem nodeAt_keeps (id : NodeId) : (nodeAt id).Keeps := fun held =>
  Keeps.get.bind fun _ => found_keeps _ held

theorem shapeAt_keeps (id : NodeId) : (shapeAt id).Keeps := fun _ =>
  (nodeAt_keeps id).bind fun _ => Keeps.pure _ _

theorem addConstant_yields (value : Constant) (line : Nat) : (addConstant value line).Yields :=
  fun _ => .addNode nofun (List.Perm.refl _)

theorem addUnary_builds {op : Operator} {operand : NodeId} {shape : Shape} {line : Nat}
    {held : List NodeId} :
    (addUnary op operand shape line).Builds (operand :: held) fun id => id :: held :=
  .addNode nofun (List.Perm.refl _)

/-- The right operand is made last. -/
theorem addBinary_builds {op : Operator} {left right : NodeId} {shape : Shape} {line : Nat}
    {held : List NodeId} :
    (addBinary op left right shape line).Builds (right :: left :: held) fun id => id :: held :=
  .addNode nofun (List.Perm.swap left right held)

theorem addSequence_builds {op : Operator} {items held : List NodeId} {line : Nat} :
    (addSequence op items line).Builds (items ++ held) fun id => id :: held :=
  .addNode nofun (List.Perm.refl _)

/-! ## Scopes -/

theorem declare_keeps (v : Variable) : (declare v).Keeps := fun _ =>
  .quiet (fun _ => rfl) (fun _ => rfl) fun _ => rfl

theorem Builds.inScope {body : Parser α} {held : List NodeId} {held' : α → List NodeId}
    (h : body.Builds held held') : (inScope body).Builds held held' := by
  unfold Parser.inScope
  refine Builds.bind (.quiet (fun _ => rfl) (fun _ => rfl) fun _ => rfl) fun _ => ?_
  refine h.bind fun a => ?_
  exact Builds.bind (.quiet (fun _ => rfl) (fun _ => rfl) fun _ => rfl) fun _ => .pure (List.Perm.refl _)

/-! ## Repetition and recursion -/

/-- What is at hand after a turn of a loop. -/
def heldAfter (during : α → List NodeId) (after : β → List NodeId) : Turn α β → List NodeId
  | .again a => during a
  | .stop b => after b

/-- What is at hand during a loop depends on its variable. -/
theorem Builds.loop (during : α → List NodeId) (after : β → List NodeId)
    {step : α → Parser (Turn α β)} {a : α}
    (h : ∀ a, (step a).Builds (during a) (heldAfter during after)) :
    (loop step a).Builds (during a) after := by
  have hwithin : ∀ turns a, (loopWithin step turns a).Builds (during a) after := by
    intro turns
    induction turns with
    | zero => intro a; exact .fail _
    | succ turns ih =>
      intro a
      refine (h a).bind fun turn => ?_
      cases turn with
      | again a => exact ih a
      | stop b => exact .pure (List.Perm.refl _)
  exact fun s s' b hrun => hwithin _ a hrun

theorem Keeps.loop {step : α → Parser (Turn α β)} (h : ∀ a, (step a).Keeps) (a : α) :
    (loop step a).Keeps := by
  intro held
  refine Builds.loop (fun _ => held) (fun _ => held) fun a s s' turn hrun => ?_
  cases turn with
  | again _ => exact h a held hrun
  | stop _ => exact h a held hrun

/-- Rules that build something, given that the rules they call do, build it. -/
theorem Builds.knot {ρ : Type} {rules : (ρ → Parser α) → ρ → Parser α}
    {held' : List NodeId → α → List NodeId}
    (h : ∀ self : ρ → Parser α, (∀ rule held, (self rule).Builds held (held' held)) →
      ∀ rule held, (rules self rule).Builds held (held' held)) (rule : ρ) (held : List NodeId) :
    (knot rules rule).Builds held (held' held) := by
  have hwithin : ∀ depth rule held, (knotWithin rules depth rule).Builds held (held' held) := by
    intro depth
    induction depth with
    | zero => intro rule held; exact .fail _
    | succ depth ih => exact h _ ih
  exact fun s s' a hrun => hwithin _ rule held hrun

theorem Builds.mapM (ids : β → List NodeId) {f : α → Parser β} {held : List NodeId}
    (h : ∀ a held, (f a).Builds held fun b => ids b ++ held) (l : List α) :
    (l.mapM f).Builds held fun bs => bs.flatMap ids ++ held := by
  induction l generalizing held with
  | nil => exact .pure (List.Perm.refl _)
  | cons a l ih =>
    rw [List.mapM_cons]
    refine (h a held).bind fun b => ?_
    refine ih.bind fun bs => .pure ?_
    rw [List.flatMap_cons, List.append_assoc, ← List.append_assoc, ← List.append_assoc]
    exact List.perm_append_comm.append_right held

theorem Keeps.mapM {f : α → Parser β} (h : ∀ a, (f a).Keeps) (l : List α) : (l.mapM f).Keeps := by
  intro held
  induction l with
  | nil => exact Keeps.pure _ held
  | cons a l ih =>
    rw [List.mapM_cons]
    exact (h a).bind fun b => ih.bind fun bs => Keeps.pure _ held

end Parser

end ShaderCost
