import ShaderCost.Proofs.Grammar.NameReads

/-! # Names in expressions

An expression consumes tokens and makes nodes, and changes nothing else (`Made.frame`). So all its
names are read in the scopes in which it begins, and each symbol it makes is one of them
(`symbols`). What it writes to is a chain of parts of such a symbol, one that may be written
(`Made.writes`): the target was looked up when the operator was read, and the variable found then is
the one that the symbol stands for.
-/

namespace ShaderCost

open Expression (isAccess accessBase?)

/-! ## Writes and their targets -/

namespace Operator

/-- Adds one to its operand, or takes one away. -/
def isStep : Operator → Bool
  | preIncrement | preDecrement | postIncrement | postDecrement => true
  | _ => false

/-- Writes its left operand. -/
def isWrite (op : Operator) : Bool := op.isAssignment || op.isStep

/-- Neither writes its left operand nor selects a part of it. -/
def isPlain (op : Operator) : Bool :=
  !(op.isWrite || op == index || op == indexIndirect || op == field || op == swizzle)

end Operator

namespace Node

/-- Writes to its left operand. -/
def isWrite (n : Node) : Bool := n.op.isWrite

theorem isWrite_of_isPlain {n : Node} (h : n.op.isPlain = true) : n.isWrite = false := by
  simp only [Operator.isPlain, Bool.not_eq_true', Bool.or_eq_false_iff] at h
  exact h.1.1.1.1

theorem isAccess_of_isPlain {n : Node} (h : n.op.isPlain = true) : isAccess n = false := by
  simp only [Operator.isPlain, Bool.not_eq_true', Bool.or_eq_false_iff] at h
  simp only [isAccess, h.1.1.1.2, h.1.1.2, h.1.2, h.2, Bool.or_false, Bool.and_false]

end Node

/-- The second node is reached from the first by going from parts to what they are parts of. -/
inductive PartOf (node : NodeId → Node) : NodeId → NodeId → Prop where
  | whole (id : NodeId) : PartOf node id id
  | part {id left whole : NodeId} (haccess : isAccess (node id) = true)
      (hleft : (node id).left? = some left) (h : PartOf node left whole) : PartOf node id whole

theorem ParserState.has_of_isAccess {s : ParserState} {id : NodeId}
    (h : isAccess (s.node id) = true) : s.Has id := by
  by_contra hno
  rw [s.node_of_not_has hno] at h
  cases h

theorem PartOf.grows {s s' : ParserState} (hs : Grows s s') {id whole : NodeId}
    (h : PartOf s.node id whole) : PartOf s'.node id whole := by
  induction h with
  | whole id => exact .whole id
  | part haccess hleft _ ih =>
    have hnode := hs.node_eq (ParserState.has_of_isAccess haccess)
    exact .part (hnode ▸ haccess) (hnode ▸ hleft) ih

/-- The node is part of a symbol that was made after `start`, and the variable that has its name in
`start` may be written. -/
structure Writable (start s : ParserState) (id : NodeId) (symbol : NodeId) : Prop where
  partOf : PartOf s.node id symbol
  new : ¬ start.Has symbol
  has : s.Has symbol
  kind : (s.node symbol).kind = .symbol
  writable : ∀ v, start.lookup? (s.node symbol).name = some v → v.readOnly = false

theorem Writable.grows {start s s' : ParserState} {id symbol : NodeId}
    (h : Writable start s id symbol) (hs : Grows s s') : Writable start s' id symbol := by
  have hnode := hs.node_eq h.has
  refine ⟨h.partOf.grows hs, h.new, hs.has h.has, ?_, ?_⟩
  · rw [hnode]
    exact h.kind
  · rw [hnode]
    exact h.writable

/-! ## What an expression makes -/

/-- An expression read from `s` to `s'`. -/
structure Made (s s' : ParserState) : Prop where
  frame : s' = { s with rest := s'.rest, nodes := s'.nodes }
  grows : Grows s s'
  accesses : ∀ id, ¬ s.Has id → isAccess (s'.node id) = true →
    ∀ left, (s'.node id).left? = some left → ¬ s.Has left
  writes : ∀ id, ¬ s.Has id → s'.Has id → (s'.node id).isWrite = true →
    ∃ left symbol, (s'.node id).left? = some left ∧ Writable s s' left symbol ∧
      ∀ right, (s'.node id).right? = some right → left < right

namespace Made

variable {start s s' s'' : ParserState}

theorem scopes (h : Made s s') : s'.scopes = s.scopes := by
  rw [h.frame]
  rfl

theorem structs (h : Made s s') : s'.structs = s.structs := by
  rw [h.frame]

theorem lookup? (h : Made s s') (name : String) : s'.lookup? name = s.lookup? name := by
  rw [h.frame]
  rfl

/-- Nothing is made. -/
theorem of_nodes_eq (hframe : s' = { s with rest := s'.rest, nodes := s'.nodes })
    (hnodes : s'.nodes = s.nodes) : Made s s' := by
  have hhas : ∀ {id}, s'.Has id → s.Has id := fun hid => by rwa [ParserState.Has, ← hnodes]
  refine ⟨hframe, .of_eq hnodes ?_ ?_, fun id hnew haccess => ?_, fun id hnew hid => ?_⟩
  · rw [hframe]
  · rw [hframe]
  · exact absurd (hhas (ParserState.has_of_isAccess haccess)) hnew
  · exact absurd (hhas hid) hnew

theorem refl (s : ParserState) : Made s s := of_nodes_eq rfl rfl

theorem next (s : ParserState) : Made s s.next := of_nodes_eq rfl rfl

theorem trans (h : Made s s') (h' : Made s' s'') : Made s s'' := by
  refine ⟨?_, h.grows.trans h'.grows, fun id hnew haccess left hleft => ?_,
    fun id hnew hid hwrite => ?_⟩
  · rw [h'.frame, h.frame]
  · by_cases hid : s'.Has id
    · rw [h'.grows.node_eq hid] at haccess hleft
      exact h.accesses id hnew haccess left hleft
    · exact fun hold => h'.accesses id hid haccess left hleft (h.grows.has hold)
  · by_cases hold : s'.Has id
    · rw [h'.grows.node_eq hold] at hwrite ⊢
      obtain ⟨left, symbol, hleft, hwritable, hright⟩ := h.writes id hnew hold hwrite
      exact ⟨left, symbol, hleft, hwritable.grows h'.grows, hright⟩
    · obtain ⟨left, symbol, hleft, ⟨hpart, hsymbol, hhas, hkind, hwritable⟩, hright⟩ :=
        h'.writes id hold hid hwrite
      refine ⟨left, symbol, hleft, ⟨hpart, fun hs => hsymbol (h.grows.has hs), hhas, hkind, ?_⟩,
        hright⟩
      exact fun v hv => hwritable v ((h.lookup? _).trans hv)

theorem push (h : Made start s) {n : Node}
    (haccess : isAccess n = true → ∀ left, n.left? = some left → ¬ start.Has left)
    (hwrite : n.isWrite = true → ∃ left symbol, n.left? = some left ∧
      Writable start s left symbol ∧ ∀ right, n.right? = some right → left < right) :
    Made start (s.push n) := by
  have hgrows := Grows.push s n
  refine ⟨?_, h.grows.trans hgrows, fun id hnew haccess' => ?_, fun id hnew hid hwrite' => ?_⟩
  · conv_lhs => rw [h.frame]
    rfl
  · rw [s.node_push] at haccess' ⊢
    split at haccess'
    · next heq =>
      rw [if_pos heq]
      exact haccess haccess'
    · next hne =>
      rw [if_neg hne]
      exact h.accesses id hnew haccess'
  · rw [s.node_push] at hwrite' ⊢
    split at hwrite'
    · next heq =>
      rw [if_pos heq]
      obtain ⟨left, symbol, hleft, hwritable, hright⟩ := hwrite hwrite'
      exact ⟨left, symbol, hleft, hwritable.grows hgrows, hright⟩
    · next hne =>
      rw [if_neg hne]
      have hold := ((s.has_push_iff n).1 hid).resolve_right hne
      obtain ⟨left, symbol, hleft, hwritable, hright⟩ := h.writes id hnew hold hwrite'
      exact ⟨left, symbol, hleft, hwritable.grows hgrows, hright⟩

theorem push_plain (h : Made start s) {n : Node} (hop : n.op.isPlain = true) :
    Made start (s.push n) := by
  refine h.push (fun haccess => ?_) fun hwrite => ?_
  · rw [Node.isAccess_of_isPlain hop] at haccess
    cases haccess
  · rw [Node.isWrite_of_isPlain hop] at hwrite
    cases hwrite

/-- What a chain of accesses leads to was made since it began. -/
theorem base (h : Made start s) {depth : Nat} {id : NodeId} {n : Node} (hid : ¬ start.Has id)
    (hbase : accessBase? s.nodes depth id = some n) :
    ∃ whole, PartOf s.node id whole ∧ ¬ start.Has whole ∧ s.Has whole ∧ s.node whole = n := by
  induction depth generalizing id with
  | zero => cases hbase
  | succ depth ih =>
    unfold accessBase? at hbase
    split at hbase
    · cases hbase
    · next n' hn' =>
      have hhas : s.Has id := (Array.getElem?_eq_some_iff.1 hn').1
      have hnode : s.node id = n' := by
        rw [ParserState.node, Array.getD_eq_getD_getElem?, hn']
        rfl
      split at hbase
      · next haccess =>
        rw [← hnode] at haccess hbase
        split at hbase
        · next left hleft =>
          obtain ⟨whole, hpart, hfacts⟩ := ih (h.accesses id hid haccess left hleft) hbase
          exact ⟨whole, .part haccess hleft hpart, hfacts⟩
        · cases hbase
      · cases hbase
        exact ⟨id, .whole id, hid, hhas, hnode⟩

end Made

/-- The node that a rule hands out is one that it has made. -/
structure Yielded (s : ParserState) (id : NodeId) (s' : ParserState) : Prop where
  made : Made s s'
  new : ¬ s.Has id
  has : s'.Has id

namespace Yielded

variable {start s s' : ParserState} {id : NodeId}

theorem after (h : Yielded s id s') (hs : Made start s) : Yielded start id s' :=
  ⟨hs.trans h.made, fun hold => h.new (hs.grows.has hold), h.has⟩

theorem keep (h : Yielded start id s) (hs : Made s s') : Yielded start id s' :=
  ⟨h.made.trans hs, h.new, hs.grows.has h.has⟩

theorem push {n : Node} (h : Made start (s.push n)) (hs : Made start s) :
    Yielded start s.nodes.size (s.push n) :=
  ⟨h, fun hold => Nat.lt_irrefl _ (hs.grows.has hold), s.has_push n⟩

end Yielded

/-! ## The account of symbols -/

/-- A symbol was made by reading a name in these scopes, and has the name of the variable that
was found. -/
structure NameRead.Makes (r : NameRead) (scopes : List Scope) (id : NodeId) (name : String) :
    Prop where
  size : r.state.nodes.size = id
  scopes : r.state.scopes = scopes
  noMacro : r.state.expansion? r.name = none
  found : ∃ v, r.state.lookup? r.name = some v ∧ v.name = name

/-- The scopes stay as they are, and every symbol is made by reading a name in them. -/
def symbols : Account where
  holds N s s' := s'.scopes = s.scopes ∧
    ∀ id, ¬ s.Has id → s'.Has id → (s'.node id).kind = .symbol →
      ∃ r, N r ∧ r.Makes s.scopes id (s'.node id).name
  mono hN h := by
    refine ⟨h.1, fun id hnew hid hkind => ?_⟩
    obtain ⟨r, hr, hmakes⟩ := h.2 id hnew hid hkind
    exact ⟨r, hN r hr, hmakes⟩
  quiet hnodes hscopes := by
    refine ⟨hscopes, fun id hnew hid => absurd ?_ hnew⟩
    rwa [ParserState.Has, ← hnodes]
  trans := fun {_ _ s' _} _ hs' h h' => by
    refine ⟨h'.1.trans h.1, fun id hnew hid hkind => ?_⟩
    by_cases hold : s'.Has id
    · rw [hs'.node_eq hold] at hkind ⊢
      exact h.2 id hnew hold hkind
    · obtain ⟨r, hr, hmakes⟩ := h'.2 id hold hid hkind
      exact ⟨r, hr, h.1 ▸ hmakes⟩

theorem symbols_push {s : ParserState} {n : Node} (hkind : (n.kind == .symbol) = false)
    (N : NameRead → Prop) : symbols.holds N s (s.push n) := by
  refine ⟨rfl, fun id hnew hid hsymbol => ?_⟩
  obtain rfl := ((s.has_push_iff n).1 hid).resolve_left hnew
  rw [s.node_push_size] at hsymbol
  exact absurd hsymbol (by simpa using hkind)

namespace Expression

open ShaderCost.Parser

variable {self : Rule → Parser NodeId} {self' : Halt → Rule → Parser NodeId}
  {base start s : ParserState}

/-- Adds a node that is no symbol, and goes on. -/
theorem addPlain_watched {β : Type} {R : β → ParserState → Prop} {n : Node}
    {f : NodeId → Parser β} {f' : Halt → NodeId → Parser β} (hmade : Made start s)
    (hop : n.op.isPlain = true) (hkind : (n.kind == .symbol) = false)
    (h : Made start (s.push n) → Watched symbols base (f s.nodes.size)
      (fun h => f' h s.nodes.size) (s.push n) R) :
    Watched symbols base (addNode n >>= f) (fun h => addNode n >>= f' h) s R :=
  .addNode (symbols_push hkind) (h (hmade.push_plain hop))

/-- The node that is handed out is no symbol. -/
theorem plain_watched {n : Node} (hmade : Made start s) (hop : n.op.isPlain = true)
    (hkind : (n.kind == .symbol) = false) :
    Watched symbols base (addNode n) (fun _ => addNode n) s (Yielded start) :=
  .hand (symbols_push hkind) (.push (hmade.push_plain hop) hmade)

/-- The node that is handed out selects a part of a node made before. -/
theorem part_watched {op : Operator} {left right : NodeId} {shape : Shape} {line : Nat}
    (hmade : Made start s) (hop : op.isWrite = false) (hleft : ¬ start.Has left) :
    Watched symbols base (addBinary op left right shape line)
      (fun _ => addBinary op left right shape line) s (Yielded start) := by
  refine .hand (symbols_push rfl) (.push (hmade.push (fun _ left' hleft' => ?_) ?_) hmade)
  · cases hleft'
    exact hleft
  · intro hwrite
    exact absurd hwrite (Bool.eq_false_iff.1 hop)

/-- The node that is handed out writes to a target. -/
theorem write_watched {n : Node} {target symbol : NodeId} (hmade : Made start s)
    (hkind : (n.kind == .symbol) = false) (haccess : isAccess n = false)
    (hleft : n.left? = some target)
    (htarget : Writable start s target symbol)
    (hright : ∀ right, n.right? = some right → target < right) :
    Watched symbols base (addNode n) (fun _ => addNode n) s (Yielded start) := by
  refine .hand (symbols_push hkind) (.push (hmade.push (fun h => ?_) fun _ => ?_) hmade)
  · rw [haccess] at h
    cases h
  · exact ⟨target, symbol, hleft, htarget, hright⟩

theorem checkTarget_watched {β : Type} {R : β → ParserState → Prop} {id : NodeId} {token : Token}
    {op : Symbol} {f : Unit → Parser β} {f' : Halt → Unit → Parser β} (hmade : Made start s)
    (hid : ¬ start.Has id)
    (h : ∀ symbol, Writable start s id symbol →
      Watched symbols base (f ()) (fun h => f' h ()) s R) :
    Watched symbols base (checkTarget id token op >>= f) (fun h => checkTarget id token op >>= f' h)
      s R := by
  refine Watched.bind (Q := fun _ s' => s' = s ∧ ∃ symbol, Writable start s id symbol) ?_
    fun _ s' _ hs => ?_
  · refine .get (.found fun n hn => .ite (fun hkind => ?_) fun _ => .failAt _ _)
    obtain ⟨symbol, hpart, hnew, hhas, rfl⟩ := hmade.base hid hn
    have hlookup : s.lookup? (s.node symbol).name = start.lookup? (s.node symbol).name :=
      hmade.lookup? _
    split
    · next v hv =>
      refine .ite (fun _ => .failAt _ _) fun hwritable => .pure ⟨rfl, symbol, hpart, hnew, hhas,
        beq_iff_eq.1 hkind, fun v' hv' => ?_⟩
      rw [← hlookup, hv] at hv'
      cases hv'
      exact Bool.eq_false_iff.2 hwritable
    · next hnone =>
      refine .pure ⟨rfl, symbol, hpart, hnew, hhas, beq_iff_eq.1 hkind, fun v hv => ?_⟩
      rw [← hlookup, hnone] at hv
      cases hv
  · obtain ⟨rfl, symbol, hsymbol⟩ := hs
    exact h symbol hsymbol

theorem shapes_watched {β : Type} {R : β → ParserState → Prop} {ids : List NodeId}
    {f : List Shape → Parser β} {f' : Halt → List Shape → Parser β}
    (h : ∀ shapes, Watched symbols base (f shapes) (fun h => f' h shapes) s R) :
    Watched symbols base (ids.mapM shapeAt >>= f) (fun h => ids.mapM shapeAt >>= f' h) s R := by
  refine Watched.bind (Q := fun _ s' => s' = s) (.quiet fun shapes s' hrun => ?_)
    fun shapes s' _ hs => hs ▸ h shapes
  have hshapes : (ids.mapM shapeAt).Does s fun _ s' => s' = s := by
    rw [← bind_pure (ids.mapM shapeAt)]
    exact .shapes (.pure rfl)
  obtain ⟨-, rfl⟩ := hshapes hrun
  exact ⟨.refl base _, rfl, rfl, rfl⟩

/-! ## Selectors and subscripts -/

theorem places_watched (components : List Nat) (line : Nat) (hmade : Made start s) :
    Watched symbols base
      (components.mapM fun (component : Nat) => addConstant (.int component) line)
      (fun _ => components.mapM fun (component : Nat) => addConstant (.int component) line) s
      fun _ s' => Made start s' := by
  induction components generalizing s with
  | nil => exact .pure hmade
  | cons component components ih =>
    simp only [List.mapM_cons]
    refine addPlain_watched hmade rfl rfl fun hmade => ?_
    exact (ih hmade).bind fun places s' _ hmade => .pure hmade

theorem selector_watched {left : NodeId} (token : Token) (name : String) (hmade : Made start s)
    (hleft : ¬ start.Has left) :
    Watched symbols base (selector left token name) (fun _ => selector left token name) s
      (Yielded start) := by
  refine .shapeAt (.ite (fun _ => ?_) fun _ => .ite (fun _ => .failAt _ _) fun _ => ?_)
  · refine .get (.found fun _ _ => ?_)
    split
    · exact .failAt _ _
    · refine addPlain_watched hmade rfl rfl fun hmade => ?_
      exact part_watched hmade rfl hleft
  · split
    · exact .failAt _ _
    · refine addPlain_watched hmade rfl rfl fun hmade => ?_
      exact part_watched hmade rfl hleft
    · refine (places_watched _ _ hmade).bind fun places s' _ hmade => ?_
      refine addPlain_watched hmade rfl rfl fun hmade => ?_
      exact part_watched hmade rfl hleft

section

variable (hself : ∀ rule s, Watched symbols base (self rule) (fun h => self' h rule) s (Yielded s))

include hself

theorem subscript_watched {left : NodeId} (token : Token) (hmade : Made start s)
    (hleft : ¬ start.Has left) :
    Watched symbols base (subscript self left token) (fun h => subscript (self' h) left token) s
      (Yielded start) := by
  refine .shapeAt (.check fun _ => (hself _ s).bind fun index s' _ hindex => ?_)
  refine .nodeAt (.check fun _ => ?_)
  have hmade := hmade.trans hindex.made
  split
  · exact part_watched hmade rfl hleft
  · exact .check fun _ => part_watched hmade rfl hleft

/-! ## Calls -/

theorem argumentStep_watched (args : List NodeId) (hmade : Made start s) :
    Watched symbols base (argumentStep self args) (fun h => argumentStep (self' h) args) s
      (Does.AfterTurn (fun _ s' => Made start s') fun _ s' => Made start s') := by
  refine .isAt fun _ _ => .ite (fun _ => .pure hmade) fun _ => ?_
  refine .optional (fun _ => .expects rfl s) ?_
  intro s' _ hs'
  have hmade' : Made start s' := by
    obtain ⟨_, _, _, _, rfl, _⟩ | ⟨_, rfl⟩ := hs'
    · exact hmade.trans (.next s)
    · exact hmade
  exact (hself _ s').bind fun arg s'' _ harg => .pure (hmade'.trans harg.made)

theorem arguments_watched (hmade : Made start s) :
    Watched symbols base (arguments self) (fun h => arguments (self' h)) s
      fun _ s' => Made start s' := by
  refine .expectLexeme rfl fun _ _ => .current (.following ?_)
  refine .optional (fun hvoid => .advances ?_) ?_
  · rw [beq_iff_eq.1 (Bool.and_eq_true_iff.1 hvoid).1]
    rfl
  intro s₁ _ hs₁
  have hmade₁ : Made start s₁ := by
    obtain ⟨_, _, _, rfl, _⟩ | ⟨_, rfl⟩ := hs₁
    · exact (hmade.trans (.next s)).trans (.next s.next)
    · exact hmade.trans (.next s)
  refine Watched.bind (.loop (fun _ s => Made start s)
    (fun args s hmade => argumentStep_watched hself args hmade) hmade₁) fun args s₂ _ hmade₂ => ?_
  exact .expectLexeme rfl fun _ _ => .pure (hmade₂.trans (.next s₂))

omit hself in
theorem constructorFields_watched (target : Shape) (name : String) :
    Watched symbols base (constructorFields target name) (fun _ => constructorFields target name) s
      fun _ s' => s' = s :=
  .ite (fun _ => .get (.found fun _ _ => .pure rfl)) fun _ => .pure rfl

theorem call_watched (token : Token) (name : String) (hmade : Made start s) :
    Watched symbols base (call self token name) (fun h => call (self' h) token name) s
      (Yielded start) := by
  refine (arguments_watched hself hmade).bind fun args s' _ hmade => shapes_watched fun shapes => ?_
  refine .get ?_
  split
  · refine (constructorFields_watched _ name).bind fun fields s'' _ hs => ?_
    subst hs
    split
    · exact .failAt _ _
    · exact plain_watched hmade rfl rfl
  · split
    · refine .check fun _ => .found fun shape _ => plain_watched hmade rfl ?_
      change (NodeForm.kind (if args.length == 1 then .unary else .aggregate) == .symbol) = false
      split <;> rfl
    · refine .ite (fun _ => .check fun _ => .failAt_bind) fun _ => ?_
      simp only
      split
      · exact .failAt _ _
      · exact plain_watched hmade rfl rfl

/-! ## Operands -/

omit hself in
theorem literal_watched (token : Token) (text : String) (hmade : Made start s) :
    Watched symbols base (literal token text) (fun _ => literal token text) s (Yielded start) := by
  unfold literal
  split
  · exact plain_watched hmade rfl rfl
  · exact .failAt _ _
  · exact .failAt _ _

omit hself in
/-- Reading a name makes one node; it is a symbol if a variable is found. -/
theorem named_eq_ok {token : Token} {name : String} {s s' : ParserState} {id : NodeId}
    (h : named token name s = .ok (id, s')) :
    ∃ n : Node, id = s.nodes.size ∧ s' = s.push n ∧ n.op.isPlain = true ∧
      (n.kind = .symbol → s.expansion? name = none ∧
        ∃ v, s.lookup? name = some v ∧ v.name = n.name) := by
  unfold named at h
  rw [run_get] at h
  cases hexpansion : s.expansion? name with
  | some value =>
    rw [hexpansion] at h
    cases h
    exact ⟨_, rfl, rfl, rfl, fun hkind => by cases hkind⟩
  | none =>
    rw [hexpansion] at h
    cases hv : s.lookup? name with
    | none =>
      simp only [hv] at h
      cases h
    | some v =>
      simp only [hv] at h
      cases hvalue : v.value with
      | some value =>
        simp only [hvalue] at h
        cases h
        exact ⟨_, rfl, rfl, rfl, fun hkind => by cases hkind⟩
      | none =>
        simp only [hvalue] at h
        cases h
        exact ⟨_, rfl, rfl, rfl, fun _ => ⟨rfl, v, rfl, rfl⟩⟩

omit hself in
/-- A name that is not called. It is the one place where reading is given up. -/
theorem name_watched {text : String} (hname : s.front.lexeme = .name text) (token : Token) :
    Watched symbols base (advance >>= fun _ => Naming.read token text)
      (fun h => advance >>= fun _ => @Naming.read h.naming token text) s (Yielded s) := by
  have hshorter : s.next.rest.length < s.rest.length := by
    have hrest : s.rest = s.front :: s.next.rest := ParserState.rest_of_front (by simp [hname])
    rw [hrest]
    exact Nat.lt_succ_self _
  have hreads : Reads (fun h => advance >>= fun _ => @Naming.read h.naming token text) s
      ⟨token, text, s.next⟩ := by
    refine ⟨hshorter, fun report => (run_advance_of_name hname _).trans ?_⟩
    exact if_pos rfl
  have hpast : ∀ id s', (advance >>= fun _ => Naming.read token text) s = .ok (id, s') →
      ∃ n : Node, id = s.nodes.size ∧ s' = s.next.push n ∧ n.op.isPlain = true ∧
        (n.kind = .symbol → s.next.expansion? text = none ∧
          ∃ v, s.next.lookup? text = some v ∧ v.name = n.name) := by
    intro id s' hrun
    rw [run_advance_of_name hname] at hrun
    exact named_eq_ok hrun
  have hnext : Extends base s s.next := .next base (by rw [hname]; rfl)
  refine fun habove => ⟨fun n => ?_, fun id s' hrun => ?_⟩
  -- how many tokens are left tells this name from all others
  · by_cases hn : s.next.rest.length = n
    · refine Or.inr ⟨_, hreads, hn, hnext.above habove, fun id s' hrun => ?_⟩
      obtain ⟨_, -, rfl, -⟩ := hpast id s' hrun
      exact Nat.le_of_eq hn
    · refine Or.inl fun report => ?_
      rw [run_advance_of_name hname, run_advance_of_name hname]
      exact if_neg hn
  · obtain ⟨n, rfl, rfl, hplain, hsymbol⟩ := hpast id s' hrun
    refine ⟨hnext.trans (.push base s.next n), ⟨rfl, fun id hnew hid hkind => ?_⟩,
      .push ((Made.next s).push_plain hplain) (.next s)⟩
    obtain rfl := ((s.next.has_push_iff n).1 hid).resolve_left hnew
    rw [s.next.node_push_size] at hkind ⊢
    obtain ⟨hexpansion, hfound⟩ := hsymbol hkind
    exact ⟨_, hreads, rfl, rfl, hexpansion, hfound⟩

omit hself in
/-- A name, and then one of two ways, by the mark behind it. -/
theorem isAt_watched {α : Type} {A : Account} {Q : α → ParserState → Prop} {mark : Symbol}
    {p q : Parser α} {p' q' : Halt → Parser α} {text : String}
    (hname : s.front.lexeme = .name text)
    (hp : Watched A base (advance >>= fun _ => p) (fun h => advance >>= fun _ => p' h) s Q)
    (hq : Watched A base (advance >>= fun _ => q) (fun h => advance >>= fun _ => q' h) s Q) :
    Watched A base (advance >>= fun _ => isAt mark >>= fun b => if b then p else q)
      (fun h => advance >>= fun _ => isAt mark >>= fun b => if b then p' h else q' h) s Q := by
  have hrun : ∀ p q : Parser α,
      (advance >>= fun _ => isAt mark >>= fun b => if b then p else q) s =
        if s.next.front.lexeme == .symbol mark then (advance >>= fun _ => p) s
        else (advance >>= fun _ => q) s := by
    intro p q
    rw [run_advance_of_name hname, run_advance_of_name hname, run_advance_of_name hname, run_isAt]
    split <;> rfl
  by_cases hmark : (s.next.front.lexeme == .symbol mark) = true
  · exact hp.of_eq ((hrun p q).trans (if_pos hmark)) fun h => (hrun _ _).trans (if_pos hmark)
  · exact hq.of_eq ((hrun p q).trans (if_neg hmark)) fun h => (hrun _ _).trans (if_neg hmark)

theorem primary_watched :
    Watched symbols base (primary self) (fun h => @primary h.naming (self' h)) s (Yielded s) := by
  have hnext := Made.next s
  refine .current ?_
  split
  · next hfront => exact .advance hfront rfl fun _ => literal_watched _ _ hnext
  · next hfront => exact .advance hfront rfl fun _ => literal_watched _ _ hnext
  · next hfront => exact .advance hfront rfl fun _ => literal_watched _ _ hnext
  · next hfront => exact .advance hfront rfl fun _ => literal_watched _ _ hnext
  · next hfront =>
    refine .advance hfront rfl fun _ => (hself _ _).bind fun inner s' _ hinner => ?_
    exact .expectLexeme rfl fun _ _ => .pure ((hinner.after hnext).keep (.next s'))
  · next text hname =>
    refine isAt_watched hname (.advance hname rfl fun _ => ?_) (name_watched hname s.front)
    exact call_watched hself s.front text hnext
  · exact .fail _

omit hself in
theorem step_watched (op : Operator) (mark : Symbol) {operand : NodeId} (start' token : Token)
    (h : Yielded start operand s) :
    Watched symbols base (step op mark operand start' token)
      (fun _ => step op mark operand start' token) s (Yielded start) := by
  refine checkTarget_watched h.made h.new fun symbol hsymbol => .shapeAt (.check fun _ => ?_)
  refine write_watched h.made rfl rfl rfl hsymbol fun right hright => ?_
  cases hright

theorem suffix_watched (start' : Token) {operand : NodeId} (h : Yielded start operand s) :
    Watched symbols base (suffix self start' operand) (fun h => suffix (self' h) start' operand) s
      (Does.AfterTurn (Yielded start) (Yielded start)) := by
  have hnext : Yielded start operand s.next := h.keep (.next s)
  refine .current ?_
  split
  · next hfront =>
    refine .advance hfront rfl fun _ =>
      (subscript_watched hself _ hnext.made h.new).bind fun node s' _ hnode => ?_
    exact .expectLexeme rfl fun _ _ => .pure (hnode.keep (.next s'))
  · next hfront =>
    refine .advance hfront rfl fun _ => .expectName fun name _ => ?_
    refine (selector_watched _ name (hnext.made.trans (.next s.next)) h.new).bind ?_
    exact fun node s' _ hnode => .pure hnode
  · next hfront =>
    refine .advance hfront rfl fun _ => ?_
    exact (step_watched _ _ _ _ hnext).bind fun node s' _ hnode => .pure hnode
  · next hfront =>
    refine .advance hfront rfl fun _ => ?_
    exact (step_watched _ _ _ _ hnext).bind fun node s' _ hnode => .pure hnode
  · exact .pure h

theorem suffixed_watched :
    Watched symbols base (suffixed self) (fun h => @suffixed h.naming (self' h)) s (Yielded s) := by
  refine .current ((primary_watched hself).bind fun operand s' _ hoperand => ?_)
  exact .loop (Yielded s) (fun operand t h => suffix_watched hself _ h) hoperand

theorem unary_watched :
    Watched symbols base (unary self) (fun h => @unary h.naming (self' h)) s (Yielded s) := by
  have hnext := Made.next s
  refine .current ?_
  split
  · next hfront =>
    refine .advance hfront rfl fun _ => (hself _ _).bind fun operand s' _ hoperand => ?_
    exact .shapeAt (.check fun _ => .pure (hoperand.after hnext))
  · next hfront =>
    refine .advance hfront rfl fun _ => (hself _ _).bind fun operand s' _ hoperand => ?_
    refine .nodeAt (.check fun _ => ?_)
    have hmade := hnext.trans hoperand.made
    split
    · exact plain_watched hmade rfl rfl
    · exact plain_watched hmade rfl rfl
  · next hfront =>
    refine .advance hfront rfl fun _ => (hself _ _).bind fun operand s' _ hoperand => ?_
    refine .shapeAt (.check fun _ => ?_)
    exact plain_watched (hnext.trans hoperand.made) rfl rfl
  · next hfront =>
    refine .advance hfront rfl fun _ => (hself _ _).bind fun operand s' _ hoperand => ?_
    refine .shapeAt (.check fun _ => ?_)
    exact plain_watched (hnext.trans hoperand.made) rfl rfl
  · next hfront =>
    refine .advance hfront rfl fun _ => .current ((hself _ _).bind fun operand s' _ hoperand => ?_)
    exact step_watched _ _ _ _ (hoperand.after hnext)
  · next hfront =>
    refine .advance hfront rfl fun _ => .current ((hself _ _).bind fun operand s' _ hoperand => ?_)
    exact step_watched _ _ _ _ (hoperand.after hnext)
  · exact suffixed_watched hself

/-! ## Operators -/

omit hself in
theorem isPlain_of_binaryOperator? {mark : Symbol} {precedence : Nat} {op : Operator}
    (h : binaryOperator? mark = some (precedence, op)) : op.isPlain = true := by
  unfold binaryOperator? at h
  split at h <;> cases h <;> rfl

omit hself in
theorem isPlain_of_binaryAt? {token : Token} {x : Symbol × Nat × Operator}
    (h : binaryAt? token = some x) : token.lexeme.isPlain = true := by
  unfold binaryAt? at h
  split at h
  · next hmark => rw [hmark]; rfl
  · cases h

theorem binaryStep_watched (least : Nat) {left : NodeId} (h : Yielded start left s) :
    Watched symbols base (binaryStep self least left) (fun h => binaryStep (self' h) least left) s
      (Does.AfterTurn (Yielded start) (Yielded start)) := by
  refine .current ?_
  split
  · exact .pure h
  · next mark precedence op hop =>
    refine .ite (fun _ => .pure h) fun _ => .advance rfl (isPlain_of_binaryAt? hop) fun _ => ?_
    refine (hself _ _).bind fun right s' _ hright => ?_
    refine .shapeAt (.shapeAt ?_)
    split
    · exact .failAt _ _
    · have hmade := h.made.trans ((Made.next s).trans hright.made)
      have hplain := isPlain_of_binaryOperator? (binaryAt?_eq_some hop)
      exact Watched.bind (plain_watched hmade hplain rfl) fun node s'' _ hnode => .pure hnode

theorem binary_watched (least : Nat) :
    Watched symbols base (binary self least) (fun h => @binary h.naming (self' h) least) s
      (Yielded s) := by
  refine (unary_watched hself).bind fun left s' _ hleft => ?_
  exact .loop (Yielded s) (fun left t h => binaryStep_watched hself least h) hleft

theorem conditional_watched :
    Watched symbols base (conditional self) (fun h => @conditional h.naming (self' h)) s
      (Yielded s) := by
  refine (binary_watched hself 1).bind fun condition s₁ _ hcondition => ?_
  refine .isAt fun question hmark => .ite (fun _ => .pure hcondition) fun hquestion => ?_
  refine .advance (hmark (by simpa using hquestion)) rfl fun _ => .shapeAt (.check fun _ => ?_)
  refine (hself _ _).bind fun yes s₂ _ hyes => ?_
  refine .expectLexeme rfl fun _ _ => (hself _ _).bind fun no s₃ _ hno => .shapeAt (.shapeAt ?_)
  split
  · exact .failAt _ _
  · have hmade₂ : Made s s₂ := hcondition.made.trans ((Made.next s₁).trans hyes.made)
    exact plain_watched (hmade₂.trans ((Made.next s₂).trans hno.made)) rfl rfl

omit hself in
theorem isPlain_of_assignmentAt? {token : Token} {mark : Symbol} {op : Operator}
    (h : assignmentAt? token = some (mark, op)) :
    token.lexeme.isPlain = true ∧ ∀ node : Node, node.op = op → isAccess node = false := by
  unfold assignmentAt? at h
  split at h
  · next hmark =>
    refine ⟨by rw [hmark]; rfl, fun node hop => ?_⟩
    obtain ⟨op', hop', heq⟩ := Option.map_eq_some_iff.1 h
    cases heq
    unfold isAccess
    rw [hop]
    unfold assignmentOperator? at hop'
    split at hop' <;> cases hop' <;> exact Bool.and_false _
  · cases h

theorem assignment_watched :
    Watched symbols base (assignment self) (fun h => @assignment h.naming (self' h)) s
      (Yielded s) := by
  refine .current ((conditional_watched hself).bind fun left s₁ _ hleft => .current ?_)
  split
  · exact .pure hleft
  · next mark op hop =>
    refine .advance rfl (isPlain_of_assignmentAt? hop).1 fun _ => ?_
    refine checkTarget_watched (hleft.made.trans (.next s₁)) hleft.new fun symbol hsymbol => ?_
    refine (hself _ _).bind fun right s₂ _ hright => .shapeAt (.shapeAt ?_)
    have hmade := (hleft.made.trans (.next s₁)).trans hright.made
    have hwrite : Watched symbols base (addBinary op left right (s₂.shape left) s₁.front.line)
        (fun _ => addBinary op left right (s₂.shape left) s₁.front.line) s₂ (Yielded s) := by
      refine write_watched hmade rfl ((isPlain_of_assignmentAt? hop).2 _ rfl) rfl
        (hsymbol.grows hright.made.grows) fun right' hright' => ?_
      cases hright'
      exact Nat.lt_of_lt_of_le hleft.has (Nat.le_of_not_lt hright.new)
    simp only
    split
    · exact .check fun _ => hwrite
    · split
      · exact .failAt_bind
      · exact .check fun _ => hwrite

theorem commaStep_watched {left : NodeId} (h : Yielded start left s) :
    Watched symbols base (commaStep self left) (fun h => commaStep (self' h) left) s
      (Does.AfterTurn (Yielded start) (Yielded start)) := by
  refine .isAt fun comma hmark => .ite (fun _ => .pure h) fun hcomma => ?_
  refine .advance (hmark (by simpa using hcomma)) rfl fun _ => ?_
  refine (hself _ _).bind fun right s' _ hright => .shapeAt ?_
  have hmade := h.made.trans ((Made.next s).trans hright.made)
  exact Watched.bind (plain_watched hmade rfl rfl) fun node s'' _ hnode => .pure hnode

theorem expression_watched :
    Watched symbols base (expression self) (fun h => @expression h.naming (self' h)) s
      (Yielded s) := by
  refine (assignment_watched hself).bind fun first s' _ hfirst => ?_
  exact .loop (Yielded s) (fun left t h => commaStep_watched hself h) hfirst

/-! ## The grammar -/

theorem rules_watched (rule : Rule) (s : ParserState) :
    Watched symbols base (rules self rule) (fun h => @rules h.naming (self' h) rule) s
      (Yielded s) := by
  cases rule with
  | expression => exact expression_watched hself
  | assignment => exact assignment_watched hself
  | unary => exact unary_watched hself
  | binary least => exact binary_watched hself least

end

theorem parse_watched (rule : Rule) (s : ParserState) :
    Watched symbols base (parse rule) (fun h => @parse h.naming rule) s (Yielded s) :=
  Watched.knot (fun _ => True)
    (fun _ _ hself rule s _ => rules_watched (fun rule s => hself rule s trivial) rule s)
    rule s trivial

theorem parseConditional_watched (s : ParserState) :
    Watched symbols base parseConditional (fun h => @parseConditional h.naming) s (Yielded s) :=
  conditional_watched parse_watched

end Expression

end ShaderCost
