import ShaderCost.Proofs.Grammar.ExpressionNameReads

/-! # Names in shaders

Declarations, statements and the top level, in the order of the grammar. A type leaves the scopes as
they are, and so does a statement that has a scope of its own; other statements add variables to the
scope at hand, whose names are not taken there (`Keeps`). The table of structures gets its entries
from type specifiers only, each when the fields are complete (`structSpecifier_watched`).

Where a declaration sets a variable, the assignment is made after the value (`IsInitializer`). All
other writes are those of expressions, so each goes to a variable that was found when its name was
read (`writes`).
-/

namespace ShaderCost

open ShaderCost.Parser

theorem ParserState.lookup?_name {s : ParserState} {name : String} {v : Variable}
    (h : s.lookup? name = some v) : v.name = name := by
  obtain ⟨scope, -, hv⟩ := List.exists_of_findSome?_eq_some h
  simpa using List.find?_some hv

theorem ParserState.isTypeName_of_mem {s : ParserState} {decl : StructDecl}
    (h : decl ∈ s.structs) : s.isTypeName decl.name = true := by
  have hstruct : (s.struct? decl.name).isSome = true :=
    List.find?_isSome.2 ⟨decl, h, beq_self_eq_true _⟩
  unfold isTypeName type?
  split
  · rfl
  · rw [Option.isSome_map, hstruct]

/-! ## The account of writes -/

theorem ParserState.has_of_symbol {s : ParserState} {id : NodeId}
    (h : (s.node id).kind = .symbol) : s.Has id := by
  by_contra hno
  rw [s.node_of_not_has hno] at h
  cases h

/-- The assignment of a declaration: its value was made before the symbol that it sets. -/
structure IsInitializer (node : NodeId → Node) (id : NodeId) : Prop where
  op : (node id).op = .assign
  target : ∃ target value, (node id).left? = some target ∧ (node id).right? = some value ∧
    value < target ∧ target + 1 = id ∧ (node target).kind = .symbol

/-- What the node writes to is part of a symbol. The name that the symbol was made of and the
variable found for it are such a pair, and the variable may be written. -/
structure WritesTo (node : NodeId → Node) (N : NameRead → Variable → Prop) (id : NodeId) :
    Prop where
  target : ∃ target symbol r v, (node id).left? = some target ∧
    (∀ value, (node id).right? = some value → target < value) ∧ PartOf node target symbol ∧
    (node symbol).kind = .symbol ∧ N r v ∧ r.state.nodes.size = symbol ∧
    r.state.expansion? r.name = none ∧ r.state.lookup? r.name = some v ∧
    (node symbol).name = v.name ∧ v.readOnly = false

theorem IsInitializer.grows {s s' : ParserState} {id : NodeId} (h : IsInitializer s.node id)
    (hid : s.Has id) (hs : Grows s s') : IsInitializer s'.node id := by
  obtain ⟨hop, target, value, hleft, hright, hlt, hnext, hkind⟩ := h
  have hnode := hs.node_eq hid
  refine ⟨hnode ▸ hop, target, value, hnode ▸ hleft, hnode ▸ hright, hlt, hnext, ?_⟩
  rw [hs.node_eq (ParserState.has_of_symbol hkind)]
  exact hkind

theorem WritesTo.grows {s s' : ParserState} {N : NameRead → Variable → Prop} {id : NodeId}
    (h : WritesTo s.node N id) (hid : s.Has id) (hs : Grows s s') : WritesTo s'.node N id := by
  obtain ⟨target, symbol, r, v, hleft, hright, hpart, hkind, hr, hsize, hplain, hv, hname, hro⟩ :=
    h.target
  have hnode := hs.node_eq hid
  have hsymbol := hs.node_eq (ParserState.has_of_symbol hkind)
  exact ⟨target, symbol, r, v, hnode ▸ hleft, hnode ▸ hright, hpart.grows hs, hsymbol ▸ hkind, hr,
    hsize, hplain, hv, hsymbol ▸ hname, hro⟩

theorem WritesTo.mono {node : NodeId → Node} {N N' : NameRead → Variable → Prop} {id : NodeId}
    (hN : ∀ r v, r.state.lookup? r.name = some v → v.readOnly = false → N r v → N' r v)
    (h : WritesTo node N id) : WritesTo node N' id := by
  obtain ⟨target, symbol, r, v, hleft, hright, hpart, hkind, hr, hsize, hplain, hv, hname, hro⟩ :=
    h.target
  exact ⟨target, symbol, r, v, hleft, hright, hpart, hkind, hN r v hv hro hr, hsize, hplain, hv,
    hname, hro⟩

/-- Every write sets the variable of a declaration or one that may be written. -/
def writes : Account where
  holds N s s' := ∀ id, ¬ s.Has id → s'.Has id → (s'.node id).isWrite = true →
    IsInitializer s'.node id ∨ WritesTo s'.node (fun r _ => N r) id
  mono hN h id hnew hid hwrite :=
    (h id hnew hid hwrite).imp_right (.mono fun r _ _ _ hr => hN r hr)
  quiet hnodes _ id hnew hid := by
    refine absurd ?_ hnew
    rwa [ParserState.Has, ← hnodes]
  trans := fun {_ _ s' _} _ hs' h h' id hnew hid hwrite => by
    by_cases hold : s'.Has id
    · rw [hs'.node_eq hold] at hwrite
      exact (h id hnew hold hwrite).imp (·.grows hold hs') (·.grows hold hs')
    · exact h' id hold hid hwrite

theorem writes_scopeless : writes.Scopeless := by
  intro N s s' t t' hst hst' h id hnew hid
  have hnode : t'.node = s'.node := by
    funext id
    rw [ParserState.node, ParserState.node, hst']
  rw [ParserState.Has, ← hst] at hnew
  rw [ParserState.Has, ← hst'] at hid
  rw [hnode]
  exact h id hnew hid

theorem writes_push {s : ParserState} {n : Node} (hn : n.isWrite = false) (N : NameRead → Prop) :
    writes.holds N s (s.push n) := by
  intro id hnew hid hwrite
  obtain rfl := ((s.has_push_iff n).1 hid).resolve_left hnew
  rw [s.node_push_size, hn] at hwrite
  cases hwrite

/-- A declaration makes a symbol for its variable and sets it to the value. -/
theorem writes_initializer {s : ParserState} (N : NameRead → Prop) {value : NodeId}
    {n symbol : Node} (hvalue : s.Has value) (hkind : symbol.kind = .symbol) (hop : n.op = .assign)
    (hoperands : n.operands = [s.nodes.size, value]) :
    writes.holds N (s.push symbol) ((s.push symbol).push n) := by
  intro id hnew hid _
  obtain rfl := ((ParserState.has_push_iff _ _).1 hid).resolve_left hnew
  have hsize : s.nodes.size + 1 = (s.push symbol).nodes.size := (Array.size_push _).symm
  have hne : s.nodes.size ≠ (s.push symbol).nodes.size := by
    rw [← hsize]
    exact (Nat.succ_ne_self _).symm
  refine Or.inl ⟨?_, s.nodes.size, value, ?_, ?_, hvalue, hsize, ?_⟩
  · rw [ParserState.node_push_size, hop]
  · rw [ParserState.node_push_size, Node.left?, hoperands]
    rfl
  · rw [ParserState.node_push_size, Node.right?, hoperands]
    rfl
  · rw [ParserState.node_push, if_neg hne, ParserState.node_push_size, hkind]

/-- In an expression, the variable that a target was found to have is the one its symbol was made
of. -/
theorem writes_of_symbols {N : NameRead → Prop} {s s' : ParserState} (hs : symbols.holds N s s')
    (hmade : Made s s') : writes.holds N s s' := by
  intro id hnew hid hwrite
  obtain ⟨left, symbol, hleft, hwritable, hright⟩ := hmade.writes id hnew hid hwrite
  obtain ⟨r, hr, hsize, hscopes, hexpansion, v, hv, hname⟩ :=
    hs.2 symbol hwritable.new hwritable.has hwritable.kind
  -- an expression declares nothing, so its target is looked up in the scopes of its names
  have hlookup : s.lookup? (s'.node symbol).name = some v := by
    rw [← hname, ParserState.lookup?_name hv, ← hv]
    change s.scopes.findSome? _ = r.state.scopes.findSome? _
    rw [hscopes]
  exact Or.inr ⟨left, symbol, r, v, hleft, hright, hwritable.partOf, hwritable.kind, hr, hsize,
    hexpansion, hv, hname.symm, hwritable.writable v hlookup⟩

namespace Parser.Watched

variable {α β : Type} {base s : ParserState}

/-- An expression in its surroundings. -/
theorem expression {p : Parser NodeId} {p' : Halt → Parser NodeId}
    (h : Watched symbols base p p' s (Yielded s)) : Watched writes base p p' s (Yielded s) := by
  intro habove
  obtain ⟨hhalts, hends⟩ := h habove
  refine ⟨hhalts, fun id s' hrun => ?_⟩
  obtain ⟨hext, hsymbols, hyielded⟩ := hends id s' hrun
  exact ⟨hext, writes_of_symbols hsymbols hyielded.made, hyielded⟩

theorem addPlain {R : β → ParserState → Prop} {n : Node} {f : NodeId → Parser β}
    {f' : Halt → NodeId → Parser β} (hn : n.isWrite = false)
    (h : Watched writes base (f s.nodes.size) (fun h => f' h s.nodes.size) (s.push n) R) :
    Watched writes base (Parser.addNode n >>= f) (fun h => Parser.addNode n >>= f' h) s R :=
  .addNode (writes_push hn) h

/-- A node that is handed out and writes nothing. -/
theorem handPlain {n : Node} {Q : ParserState → Prop} (hn : n.isWrite = false)
    (h : Q (s.push n)) :
    Watched writes base (Parser.addNode n) (fun _ => Parser.addNode n) s fun _ s' => Q s' :=
  .hand (writes_push hn) h

theorem ownScope {p : Parser α} {p' : Halt → Parser α}
    (h : Watched writes base p p' s.opened fun _ s' => base.Clear s') :
    Watched writes base (Parser.inScope p) (fun h => Parser.inScope (p' h)) s
      fun _ s' => Restores base s s' := .inScope writes_scopeless h

end Parser.Watched

variable {base s : ParserState}

/-- A directive with its token. -/
theorem Directive.parse_watched {β : Type} {R : β → ParserState → Prop} {f : Unit → Parser β}
    {f' : Halt → Unit → Parser β} {text : Bytes} (hfront : s.front.lexeme = .directive text)
    (h : ∀ s', Restores base s s' → Watched writes base (f ()) (fun h => f' h ()) s' R) :
    Watched writes base (advance >>= fun token => parse token text >>= f)
      (fun h => advance >>= fun token => parse token text >>= f' h) s R := by
  simp only [← bind_assoc]
  refine Watched.bind (Q := fun _ => Restores base s) (.given fun habove => .quiet ?_)
    fun _ s' _ => h s'
  intro _ s' hrun
  obtain ⟨token, s₁, hadvance, hparse⟩ := bind_eq_ok hrun
  obtain ⟨-, rfl⟩ := advance_eq_ok hadvance
  obtain ⟨hscanned, hclear⟩ := habove.scanned.directive hfront hparse
  obtain ⟨rfl, -⟩ := parse_eq_ok hparse
  refine ⟨?_, rfl, rfl, rfl, hclear⟩
  exact .of_scopes_eq (.of_eq rfl rfl rfl) (.of_eq s.next_suffix rfl) (fun _ => hscanned) rfl

namespace Declaration

open Expression (Naming)

/-! ## Qualifiers -/

theorem qualifiers_watched (s : ParserState) :
    Watched writes base qualifiers (fun _ => qualifiers) s fun q s' => Made s s' ∧
      base.Scanned s' ∧ (base.Clear s →
        (base.scanned s').qualified = (q.isConst || q.isUniform)) := by
  refine .given fun habove => .quiet fun q s' hrun => ?_
  have hq : Qualified s q s' := (qualifiers_qualified s hrun).2
  have hext : Extends base s s' := .qualifiers hq
  obtain ⟨hscanned, hqualified⟩ := habove.scanned.qualifiers hq
  obtain ⟨-, rest, -, rfl, -⟩ := hq
  refine ⟨hext, rfl, rfl, .of_nodes_eq rfl rfl, hscanned, fun hclear => ?_⟩
  rw [hqualified, hclear, Bool.false_or]

theorem precision_watched (s : ParserState) :
    Watched writes base precision (fun _ => precision) s fun _ s' => s'.scopes = s.scopes := by
  refine .quiet fun _ s' hrun => ?_
  have hq : Qualified s {} s' := (precision_qualified s hrun).2
  have hext : Extends base s s' := .qualifiers hq
  obtain ⟨-, rest, -, rfl, -⟩ := hq
  exact ⟨hext, rfl, rfl, rfl⟩

/-! ## Types -/

/-- A shape read behind a name, of the type given in front. -/
structure Sized (s : ParserState) (shape shape' : Shape) (s' : ParserState) : Prop where
  made : Made s s'
  isOf : ∀ name, shape.IsOf name → shape'.IsOf name

theorem arraySuffix_watched (shape : Shape) (s : ParserState) :
    Watched writes base (arraySuffix shape) (fun h => @arraySuffix h.naming shape) s
      (Sized s shape) := by
  have hnext := Made.next s
  refine .accept (fun _ _ => .ite (fun h => by cases h) fun _ => ?_) (.pure ⟨.refl s, fun _ h => h⟩)
  refine .ite (fun _ => .fail_bind) fun _ => .current ?_
  refine (Expression.parseConditional_watched _).expression.bind fun size s' _ hsize => .nodeAt ?_
  split
  · exact .failAt _ _
  · refine .check fun _ => .expectLexeme rfl fun _ _ => .pure ⟨?_, fun _ h => h⟩
    exact (hnext.trans hsize.made).trans (.next s')

/-- The fields read so far are there, and those of the declaration at hand have its type. -/
structure FieldsRead (s : ParserState) (shape : Shape) (before fields : List Field)
    (s' : ParserState) : Prop where
  made : Made s s'
  before : before ⊆ fields
  last : ∃ field ∈ fields, ∀ name, shape.IsOf name → field.shape.IsOf name

theorem fieldStep_watched {start : ParserState} {shape : Shape} {before fields : List Field}
    (hmade : Made start s) (hbefore : before ⊆ fields) :
    Watched writes base (fieldStep shape fields) (fun h => @fieldStep h.naming shape fields) s
      (Does.AfterTurn (fun fields s' => Made start s' ∧ before ⊆ fields)
        (FieldsRead start shape before)) := by
  refine .expectName fun name _ => ?_
  refine (arraySuffix_watched shape _).bind fun fieldShape s' _ hsized => .check fun _ => ?_
  have hmade' : Made start s' := hmade.trans ((Made.next s).trans hsized.made)
  have hbefore' : before ⊆ fields ++ [{ name, shape := fieldShape }] :=
    List.subset_append_of_subset_left _ hbefore
  have hlast : ∃ field ∈ fields ++ [{ name, shape := fieldShape }],
      ∀ name, shape.IsOf name → field.shape.IsOf name :=
    ⟨_, List.mem_append_right _ (List.mem_singleton_self _), hsized.isOf⟩
  refine .accept (fun _ _ => .pure ⟨hmade'.trans (.next s'), hbefore'⟩) ?_
  exact .pure ⟨hmade', hbefore', hlast⟩

/-- A type leaves the scopes alone, and the structures it defines are part of it. -/
structure Specified (s : ParserState) (shape : Shape) (s' : ParserState) : Prop where
  scopes : s'.scopes = s.scopes
  covers : Covers s shape s'

/-- The fields of a structure, up to the one at hand. -/
structure MembersRead (s : ParserState) (fields : List Field) (s' : ParserState) : Prop where
  scopes : s'.scopes = s.scopes
  covers : FieldsCover s fields s'

/-- One more declaration, of a type that is read with the structures in it. -/
theorem MembersRead.member {start s₁ s₂ s' : ParserState} {fields fields' : List Field}
    {shape : Shape} (h : MembersRead start fields s) (hs₁ : Made s s₁)
    (hshape : Specified s₁ shape s₂) (hgrows : Grows s₁ s₂)
    (hfields : FieldsRead s₂ shape fields fields' s') : MembersRead start fields' s' := by
  refine ⟨?_, fun decl hdecl => ?_⟩
  · rw [hfields.made.scopes, hshape.scopes, hs₁.scopes, h.scopes]
  · rw [hfields.made.structs] at hdecl ⊢
    obtain hold | ⟨name, hname, hreach⟩ := hshape.covers decl hdecl
    · rw [hs₁.structs] at hold
      obtain hold | ⟨field, hfield, name, hname, hreach⟩ := h.covers decl hold
      · exact Or.inl hold
      · refine Or.inr ⟨field, hfields.before hfield, name, hname, ?_⟩
        refine Relation.ReflTransGen.mono (fun _ _ hcontains => hcontains.mono ?_) _ _ hreach
        rw [← hs₁.structs]
        exact fun _ => hgrows.structs
    · obtain ⟨field, hfield, htype⟩ := hfields.last
      exact Or.inr ⟨field, hfield, name, htype name hname, hreach⟩

section

variable {specifier : Parser Shape} {specifier' : Halt → Parser Shape}
  (hspecifier : ∀ s, Watched writes base specifier specifier' s (Specified s))

include hspecifier

theorem memberStep_watched {start : ParserState} {fields : List Field}
    (h : MembersRead start fields s) :
    Watched writes base (memberStep specifier fields)
      (fun h => @memberStep h.naming (specifier' h) fields) s
      (Does.AfterTurn (MembersRead start) (MembersRead start)) := by
  refine .accept (fun _ _ => .pure ⟨h.scopes, h.covers⟩) ?_
  refine (qualifiers_watched s).bind fun _ s₁ _ hs₁ => ?_
  refine (hspecifier s₁).bind fun shape s₂ hext hshape => ?_
  refine Watched.bind (.loop (fun fields' t => Made s₂ t ∧ fields ⊆ fields')
    (fun fields' t h => fieldStep_watched h.1 h.2) ⟨.refl s₂, fun _ h => h⟩)
    fun fields' s₃ _ hfields => .expectLexeme rfl fun _ _ => .pure ?_
  have hread := h.member hs₁.1 hshape hext.grows hfields
  exact ⟨hread.scopes, hread.covers⟩

omit hspecifier in
/-- A structure up to its entry into the table. -/
def structBody [Naming] (specifier : Parser Shape) : Parser (String × List Field) := do
  let _ ← expectKeyword .struct
  let named ← expectName
  if (← get).isTypeName named.2 then failAt named.1 (.redefinition named.2)
  let _ ← expect .leftBrace
  let fields ← loop (memberStep specifier) []
  return (named.2, fields)

omit hspecifier in
theorem structSpecifier_eq [Naming] (specifier : Parser Shape) :
    structSpecifier specifier = structBody specifier >>= fun x => do
      modify fun s => s.addStruct { name := x.1, fields := x.2 }
      return .ofStruct x.1 := by
  unfold structSpecifier structBody
  rw [bind_assoc]
  refine bind_congr fun _ => ?_
  rw [bind_assoc]
  refine bind_congr fun named => ?_
  rw [bind_assoc]
  refine bind_congr fun s => ?_
  split
  · rfl
  · simp only [bind_assoc, pure_bind]
    rfl

omit hspecifier in
/-- The keyword and the name that begin a structure are among the tokens consumed. -/
theorem structName_passed {name : String} (hstruct : s.front.lexeme = .keyword .struct)
    (hname : s.next.front.lexeme = .name name) {rest : List Token}
    (hrest : rest <:+ s.next.next.rest) :
    ∃ passed, passed ++ rest = s.rest ∧ name ∈ structNames passed := by
  obtain ⟨passed, hpassed⟩ := hrest
  refine ⟨[s.front, s.next.front] ++ passed, ?_, ?_⟩
  · have hfirst : s.rest = s.front :: s.next.rest := ParserState.rest_of_front (by simp [hstruct])
    have hsecond : s.next.rest = s.next.front :: s.next.next.rest :=
      ParserState.rest_of_front (by simp [hname])
    rw [List.append_assoc, hpassed, hfirst, hsecond]
    rfl
  · refine (structNames_append _ passed).subset (List.mem_append_left _ ?_)
    simp [structNames, Token.structName?, hstruct, hname]

theorem structSpecifier_watched :
    Watched writes base (structSpecifier specifier)
      (fun h => @structSpecifier h.naming (specifier' h)) s (Specified s) := by
  simp only [structSpecifier_eq]
  refine Watched.finish writes_scopeless (Q := fun x s' => Registers s (s'.addStruct ⟨x.1, x.2⟩) ∧
    Specified s (.ofStruct x.1) (s'.addStruct ⟨x.1, x.2⟩)) ?_ fun x s' hext hx => ?_
  · refine .expectLexeme rfl fun hstruct _ => .expectName fun name hname => ?_
    refine .get (.check fun hfresh => ?_)
    refine .expectLexeme rfl fun _ _ => ?_
    refine Watched.bind (.loop (MembersRead s) (fun fields t h => memberStep_watched hspecifier h)
      ⟨rfl, fun decl hdecl => Or.inl hdecl⟩) fun fields s' hext hfields => .pure ?_
    -- the name is checked before the fields are read, which may enter it in the meantime
    have hunused : name ∉ s.structs.map (·.name) := by
      intro hused
      obtain ⟨decl, hdecl, rfl⟩ := List.mem_map.1 hused
      exact hfresh (ParserState.isTypeName_of_mem hdecl)
    have hnames := structName_passed hstruct hname s.next.next.next_suffix
    obtain ⟨hregisters, hcovers⟩ :=
      Registers.struct hnames rfl hunused hext.registers hfields.covers
    exact ⟨hregisters, hfields.scopes, hcovers⟩
  · obtain ⟨hregisters, hspecified⟩ := hx
    have hgrows : Grows s' (s'.addStruct ⟨x.1, x.2⟩) :=
      ⟨Nat.le_refl _, fun _ => rfl, fun hd => List.mem_cons_of_mem _ hd, fun hd => hd⟩
    refine ⟨.of_scopes_eq (hext.grows.trans hgrows) hregisters (fun hs => ?_) hspecified.scopes,
      rfl, rfl, hspecified⟩
    exact (hext.scanned hs).of_eq rfl rfl

end

theorem specifierRule_watched {self : Unit → Parser Shape} {self' : Halt → Unit → Parser Shape}
    (hself : ∀ rule s, Watched writes base (self rule) (fun h => self' h rule) s (Specified s))
    (rule : Unit) (s : ParserState) :
    Watched writes base (specifierRule self rule) (fun h => @specifierRule h.naming (self' h) rule)
      s (Specified s) := by
  refine .current ?_
  split
  · exact structSpecifier_watched (hself ())
  · next hfront =>
    refine .advance hfront rfl fun _ => .get ?_
    split
    · exact .pure ⟨rfl, fun decl hdecl => Or.inl hdecl⟩
    · exact .failAt _ _
  · exact .fail _

theorem specifier_watched (s : ParserState) :
    Watched writes base specifier (fun h => @specifier h.naming) s (Specified s) :=
  Watched.knot (fun _ => True)
    (fun _ _ hself rule s _ => specifierRule_watched (fun rule s => hself rule s trivial) rule s)
    () s trivial

theorem starts_watched {β : Type} {R : β → ParserState → Prop} {f : Bool → Parser β}
    {f' : Halt → Bool → Parser β}
    (h : ∀ b, starts s = .ok (b, s) → Watched writes base (f b) (fun h => f' h b) s R) :
    Watched writes base (starts >>= f) (fun h => starts >>= f' h) s R := by
  refine Watched.bind (Watched.running (Q := fun _ s' => s' = s) ?_) ?_
  on_goal 2 =>
    rintro b s' - ⟨hrun, rfl⟩
    exact h b hrun
  refine .current ?_
  split
  · exact .pure rfl
  · refine .following ?_
    split
    · exact .get (.pure rfl)
    · exact .pure rfl
  · exact .pure rfl

/-- Whether a declaration may begin with the lexeme. -/
def mayStart : Lexeme → Bool
  | .keyword word => startsWith word
  | .name _ => true
  | _ => false

theorem starts_of_front {lexeme : Lexeme} (hfront : s.front.lexeme = lexeme)
    (h : mayStart lexeme = false) : starts s = .ok (false, s) := by
  unfold starts
  rw [run_current, hfront]
  cases lexeme with
  | keyword word => exact congrArg (fun b => Except.ok (b, s)) h
  | name => cases h
  | _ => rfl

/-! ## Declarators -/

/-- The variables of the innermost scope are found as before. -/
def Keeps (s s' : ParserState) : Prop :=
  ∀ name v, s.scope.find? name = some v → s'.scope.find? name = some v

theorem Keeps.of_scopes_eq {s' : ParserState} (h : s'.scopes = s.scopes) : Keeps s s' := by
  intro name v hv
  rwa [(List.cons.inj h).1]

theorem Keeps.trans {s' s'' : ParserState} (h : Keeps s s') (h' : Keeps s' s'') : Keeps s s'' :=
  fun name v hv => h' name v (h name v hv)

/-- A name that is not taken changes nothing for the others. -/
theorem Keeps.cons {s' : ParserState} {v : Variable} (h : s.scope.find? v.name = none)
    (hscope : s'.scope = v :: s.scope) : Keeps s s' := by
  intro name v' hv'
  have hne : ¬ (v.name == name) = true := by
    intro hsame
    rw [beq_iff_eq.1 hsame, hv'] at h
    cases h
  rw [hscope, Scope.find?, List.find?_cons, Bool.eq_false_iff.2 hne]
  exact hv'

/-- In `s'` there are the variables of the declarators from `s` to `t`, each new in its scope. -/
def Declared (q : Qualifiers) (type : Shape) (s t s' : ParserState) : Prop :=
  Keeps s s' ∧ s'.scope = t.scope ∧ ∃ vs, Declarators q type s vs t

theorem Declared.none (q : Qualifiers) (type : Shape) (s : ParserState) :
    Declared q type s s s.next := ⟨fun _ _ h => h, rfl, [], .none⟩

theorem Declared.enters {q : Qualifiers} {type : Shape} {t d e s' : ParserState}
    (h : Declared q type d e s') (hend : e.front.lexeme = .symbol .semicolon)
    (hq : qualifiers s = .ok (q, t)) (htype : specifier t = .ok (type, d))
    (hscopes : d.scopes = s.scopes) : Keeps s s' ∧ Enters s s' := by
  obtain ⟨hkeeps, hscope, vs, hvs⟩ := h
  refine ⟨(Keeps.of_scopes_eq hscopes).trans hkeeps, q, t, type, d, vs, e, hq, htype, hvs, hend, ?_⟩
  rw [hscope, hvs.scope, (List.cons.inj hscopes).1]

theorem initializer_watched (q : Qualifiers) (shape : Shape) (token : Token) (name : String)
    (s : ParserState) :
    Watched writes base (initializer q shape token name)
      (fun h => @initializer h.naming q shape token name) s fun _ s' => s'.scopes = s.scopes := by
  unfold initializer
  refine .check fun _ => ?_
  refine (Expression.parse_watched _ s).expression.bind fun initial s₁ _ hinitial => .nodeAt ?_
  refine .check fun _ => ?_
  have hscopes := hinitial.made.scopes
  split
  · exact .pure hscopes
  · refine .addPlain rfl (.addNode (fun N => ?_) (.pure hscopes))
    exact writes_initializer N hinitial.has rfl rfl rfl

theorem declaratorStep_watched (q : Qualifiers) (shape : Shape) (isGlobal : Bool)
    (assigns : List NodeId) (s : ParserState)
    (h : ∀ {v s'}, IsDeclarator q shape s v → s'.rest <:+ s.next.rest → base.Origin s' v) :
    Watched writes base (declaratorStep q shape isGlobal assigns)
      (fun h => @declaratorStep h.naming q shape isGlobal assigns) s
      fun _ s' => ∃ v, IsDeclarator q shape s v ∧ s.scope.find? v.name = none ∧
        s'.scope = v :: s.scope := by
  refine .expectName fun name hname => .get (.check fun hfresh => ?_)
  refine (arraySuffix_watched shape _).running.bind fun itemShape s₁ hext₁ hsized => ?_
  refine (Watched.accepts _ s₁).bind fun equals s₂ hext₂ hs₂ => ?_
  have hscopes₂ : s₂.scopes = s.scopes := by
    obtain ⟨-, rfl, -⟩ | ⟨-, rfl⟩ := hs₂
    · exact hsized.2.made.scopes
    · exact hsized.2.made.scopes
  refine .chooseOrFail (Q := fun _ s' => s'.scopes = s₂.scopes) (initializer_watched q _ _ name s₂)
    (.pure rfl) ?_
  rintro ⟨value, assign⟩ s₃ hext₃ hscopes₃
  have hscope : s₃.scope = s.scope := (List.cons.inj (hscopes₃.trans hscopes₂)).1
  have hunused : s.scope.find? name = none := by
    simp only [Bool.or_eq_true, not_or, Option.not_isSome_iff_eq_none] at hfresh
    exact hfresh.2
  let v : Variable := { name, shape := itemShape, readOnly := q.isConst || q.isUniform, value }
  have hv : IsDeclarator q shape s v := ⟨hname, ⟨s₁, hsized.1⟩, rfl⟩
  have hentered : ∃ v', IsDeclarator q shape s v' ∧ s.scope.find? v'.name = none ∧
      v :: s₃.scope = v' :: s.scope := ⟨v, hv, hunused, by rw [hscope]⟩
  refine .declare writes_scopeless (h hv (hext₃.rest.trans (hext₂.rest.trans hext₁.rest)))
    (.ite (fun _ => ?_) fun _ => ?_)
  · refine .addPlain rfl (.update ?_ (fun N => ?_) ?_)
    · exact .of_eq (.addGlobal _ _) rfl rfl rfl rfl
    · exact writes.quiet rfl rfl
    · exact .accept (fun _ _ => .pure hentered) (.pure hentered)
  · exact .accept (fun _ _ => .pure hentered) (.pure hentered)

theorem declarators_watched {q : Qualifiers} {shape : Shape} (isGlobal : Bool)
    (hs : Specifies base q shape s) :
    Watched writes base (declarators q shape isGlobal)
      (fun h => @declarators h.naming q shape isGlobal) s fun _ s' => base.Clear s' ∧
        ∃ t, Declared q shape s t s' ∧ t.front.lexeme = .symbol .semicolon := by
  unfold declarators
  refine .ite (fun _ => .fail_bind) fun _ => ?_
  refine Watched.bind (Q := fun _ t => Declared q shape s t t)
    (.loop (fun _ t => Declared q shape s t t) (fun assigns t ht => ?_)
      ⟨fun _ _ h => h, rfl, [], .none⟩)
    fun assigns t _ ht => .expectLexeme rfl fun hend hclear => ?_
  · obtain ⟨hkeeps, -, vs, hvs⟩ := ht
    refine (declaratorStep_watched q shape isGlobal assigns t fun hv hrest => ?_).running.mono ?_
    · exact .inl ⟨q, shape, s, vs, t, hs, hv.readOnly.symm, hvs, hv, hrest⟩
    · rintro turn s' - ⟨hrun, v, hv, hunused, hscope⟩
      have hmore : Declared q shape s s' s' :=
        ⟨hkeeps.trans (.cons hunused hscope), rfl, v :: vs, .more hvs hv hrun hscope⟩
      cases turn with
      | again => exact hmore
      | stop => exact hmore
  · have hnext : base.Clear t.next ∧ ∃ t', Declared q shape s t' t.next ∧
        t'.front.lexeme = .symbol .semicolon := ⟨hclear, t, ht, hend⟩
    split
    · exact .pure hnext
    · exact .pure hnext
    · refine .nodeAt (Watched.bind (Q := fun _ s' => base.Clear s' ∧
        ∃ t', Declared q shape s t' s' ∧ t'.front.lexeme = .symbol .semicolon) ?_
        fun _ _ _ h => .pure h)
      exact .handPlain rfl hnext

end Declaration

namespace Statement

open Declaration (Keeps Enters starts starts_of_front)

/-! ## Statements -/

/-- A statement that begins with the lexeme has a scope of its own. -/
def hasOwnScope : Lexeme → Bool
  | .symbol .leftBrace | .keyword .if | .keyword .for | .keyword .while | .keyword .do => true
  | _ => false

/-- What a statement does to the scope at hand. -/
structure Scoped (base s s' : ParserState) : Prop where
  keeps : Keeps s s'
  enters : ∀ t, starts s = .ok (true, t) → Enters s s'
  others : ∀ t, starts s = .ok (false, t) → s'.scopes = s.scopes
  clear : base.Clear s'

theorem Scoped.of_restores {s' : ParserState} (hs : starts s = .ok (false, s))
    (h : Restores base s s') : Scoped base s s' := by
  refine ⟨.of_scopes_eq h.1, fun t ht => ?_, fun _ _ => h.1, h.2⟩
  rw [hs] at ht
  cases ht

theorem Scoped.own {s' : ParserState} (h : Scoped base s s')
    (hown : hasOwnScope s.front.lexeme = true) : s'.scopes = s.scopes := by
  refine h.others s (starts_of_front rfl ?_)
  unfold hasOwnScope at hown
  split at hown
  on_goal 6 => cases hown
  all_goals next hfront => rw [hfront]; rfl

theorem booleanExpression_watched (s : ParserState) :
    Watched writes base booleanExpression (fun h => @booleanExpression h.naming) s
      fun _ s' => s'.scopes = s.scopes := by
  refine .current ((Expression.parse_watched _ s).expression.bind fun condition s' _ h => ?_)
  exact .shapeAt (.check fun _ => .pure h.made.scopes)

theorem condition_watched (s : ParserState) :
    Watched writes base condition (fun h => @condition h.naming) s
      fun _ s' => Restores base s s' := by
  refine .expectLexeme rfl fun _ _ => (booleanExpression_watched _).bind fun node s' _ hs' => ?_
  exact .expectLexeme rfl fun _ hclear => .pure ⟨hs', hclear⟩

theorem forInitializer_watched (hs : base.Clear s) :
    Watched writes base forInitializer (fun h => @forInitializer h.naming) s
      fun _ s' => ∀ t, starts s = .ok (true, t) → Enters s s' := by
  refine .accept (fun hend _ => .pure fun t ht => ?_)
    (Declaration.starts_watched fun b hstarts => ?_)
  · rw [starts_of_front hend rfl] at ht
    cases ht
  refine .ite (fun _ => ?_) fun hb => ?_
  · refine (Declaration.qualifiers_watched s).running.bind fun q s₁ _ hq => ?_
    refine (Declaration.specifier_watched s₁).running.bind fun shape s₂ _ hshape => ?_
    refine (Declaration.declarators_watched false ⟨s₁, hq.2.2.1, hq.2.2.2 hs, hshape.1⟩).mono ?_
    rintro _ s' - ⟨-, t, hdeclared, hend⟩ _ -
    exact (hdeclared.enters hend hq.1 hshape.1 (hshape.2.scopes.trans hq.2.1.scopes)).2
  · refine (Expression.parse_watched _ s).expression.bind fun node s₁ _ _ => ?_
    refine .expectLexeme rfl fun _ _ => .pure fun t ht => ?_
    cases hstarts.symm.trans ht
    exact absurd rfl hb

theorem returnStatement_watched (hfront : s.front.lexeme = .keyword .return) :
    Watched writes base returnStatement (fun h => @returnStatement h.naming) s
      fun _ s' => Restores base s s' := by
  refine .advance hfront rfl fun _ => .isAt fun _ _ => .ite (fun _ => ?_) fun _ => ?_
  · exact .pure_bind (.expectLexeme rfl fun _ hclear => .handPlain rfl ⟨rfl, hclear⟩)
  · refine (Expression.parse_watched _ _).expression.bind fun value s' _ hvalue => .pure_bind ?_
    exact .expectLexeme rfl fun _ hclear => .handPlain rfl ⟨hvalue.made.scopes, hclear⟩

theorem branch_watched {op : Operator} (hop : op.isWrite = false) {word : Keyword}
    (hfront : s.front.lexeme = .keyword word) (hword : (Lexeme.keyword word).isPlain = true) :
    Watched writes base (branch op) (fun _ => branch op) s fun _ s' => Restores base s s' :=
  .advance hfront hword fun _ => .expectLexeme rfl fun _ hclear => .handPlain hop ⟨rfl, hclear⟩

theorem localDeclaration_watched (hs : base.Clear s) :
    Watched writes base localDeclaration (fun h => @localDeclaration h.naming) s
      fun _ s' => (Keeps s s' ∧ Enters s s') ∧ base.Clear s' := by
  refine (Declaration.qualifiers_watched s).running.bind fun q s₁ _ hq => ?_
  refine (Declaration.specifier_watched s₁).running.bind fun shape s₂ _ hshape => ?_
  have hscopes : s₂.scopes = s.scopes := hshape.2.scopes.trans hq.2.1.scopes
  refine .accept (fun hend hclear => .pure ⟨?_, hclear⟩) ?_
  · exact (Declaration.Declared.none q shape s₂).enters hend hq.1 hshape.1 hscopes
  refine (Declaration.declarators_watched false ⟨s₁, hq.2.2.1, hq.2.2.2 hs, hshape.1⟩).mono ?_
  rintro _ s' - ⟨hclear, t, hdeclared, hend⟩
  exact ⟨hdeclared.enters hend hq.1 hshape.1 hscopes, hclear⟩

section

variable {self : Unit → Parser (Option NodeId)} {self' : Halt → Unit → Parser (Option NodeId)}
  (hself : ∀ rule s, base.Clear s → Watched writes base (self rule) (fun h => self' h rule) s
    fun _ s' => Scoped base s s')

include hself

theorem blockStep_watched (items : List NodeId) (hs : base.Clear s) :
    Watched writes base (blockStep self items) (fun h => blockStep (self' h) items) s
      (Does.AfterTurn (fun _ s' => base.Clear s') fun _ _ => True) := by
  refine .current ?_
  split
  · exact .pure trivial
  · exact .fail _
  · refine (hself () s hs).bind fun item s' _ hs' => ?_
    cases item with
    | some item => exact .pure hs'.clear
    | none => exact .pure hs'.clear

theorem blockItems_watched (hs : base.Clear s) :
    Watched writes base (loop (blockStep self) []) (fun h => loop (blockStep (self' h)) []) s
      fun _ _ => True :=
  .loop (fun _ => base.Clear) (fun items _ hs => blockStep_watched hself items hs) hs

theorem block_watched (s : ParserState) :
    Watched writes base (block self) (fun h => block (self' h)) s fun _ s' => base.Clear s' := by
  refine .expectLexeme rfl fun _ hs => (blockItems_watched hself hs).bind fun items s' _ _ => ?_
  exact .expectLexeme rfl fun _ hclear => .handPlain rfl hclear

theorem scopedBlock_watched (s : ParserState) :
    Watched writes base (scopedBlock self) (fun h => scopedBlock (self' h)) s
      fun _ s' => Restores base s s' := by
  refine .expectLexeme rfl fun _ hs => .ownScope ?_
  refine (blockItems_watched hself (s := s.next.opened) hs).bind fun items s' _ _ => ?_
  exact .expectLexeme rfl fun _ hclear => .handPlain rfl hclear

theorem body_watched (hs : base.Clear s) :
    Watched writes base (body self) (fun h => body (self' h)) s
      fun _ s' => Restores base s s' := by
  have hinner : Watched writes base (self ()) (fun h => self' h ()) s.opened
      fun _ s' => base.Clear s' := (hself () s.opened hs).mono fun _ _ _ h => h.clear
  refine .current ((Watched.ownScope hinner).bind fun item s' _ hs' => ?_)
  cases item with
  | some item => exact .pure hs'
  | none => exact .handPlain rfl hs'

theorem ifStatement_watched (s : ParserState) :
    Watched writes base (ifStatement self) (fun h => @ifStatement h.naming (self' h)) s
      fun _ s' => Restores base s s' := by
  refine .expectLexeme rfl fun _ _ => (condition_watched _).bind fun test s₁ _ hs₁ => ?_
  refine (body_watched hself hs₁.2).bind fun yes s₂ _ hs₂ => .current (.ite (fun helse => ?_) ?_)
  · refine .advance (beq_iff_eq.1 helse) rfl fun hclear => ?_
    refine (body_watched hself hclear).bind fun no s₃ _ hs₃ => .pure_bind ?_
    exact .handPlain rfl (hs₁.trans (hs₂.trans hs₃))
  · exact fun _ => .pure_bind (.handPlain rfl (hs₁.trans hs₂))

theorem forStatement_watched (s : ParserState) :
    Watched writes base (forStatement self) (fun h => @forStatement h.naming (self' h)) s
      fun _ s' => Restores base s s' := by
  refine .expectLexeme rfl fun _ _ => .expectLexeme rfl fun _ hclear => .ownScope ?_
  refine (forInitializer_watched (s := s.next.next.opened) hclear).bind fun initial s₁ _ _ => ?_
  refine .isAt fun _ _ => .choose (Q := fun _ _ => True) (.pure trivial) ?_ ?_
  · exact .map ((booleanExpression_watched s₁).mono fun _ _ _ _ => trivial)
  intro test s₂ _ _
  refine .expectLexeme rfl fun _ _ => .isAt fun _ _ =>
    .choose (Q := fun _ _ => True) (.pure trivial) ?_ ?_
  · exact .map ((Expression.parse_watched _ _).expression.mono fun _ _ _ _ => trivial)
  intro terminal s₃ _ _
  refine .expectLexeme rfl fun _ hclear => (body_watched hself hclear).bind fun inner s₄ _ hs₄ => ?_
  refine Watched.bind (Q := fun _ => base.Clear) (.handPlain rfl hs₄.2) fun node s₅ _ hs₅ => ?_
  cases initial with
  | none => exact .pure hs₅
  | some initial => exact .handPlain rfl hs₅

theorem whileStatement_watched (s : ParserState) :
    Watched writes base (whileStatement self) (fun h => @whileStatement h.naming (self' h)) s
      fun _ s' => Restores base s s' := by
  refine .expectLexeme rfl fun _ _ => (condition_watched _).bind fun test s₁ _ hs₁ => ?_
  refine (body_watched hself hs₁.2).bind fun inner s₂ _ hs₂ => ?_
  exact .handPlain rfl (hs₁.trans hs₂)

theorem doStatement_watched (s : ParserState) :
    Watched writes base (doStatement self) (fun h => @doStatement h.naming (self' h)) s
      fun _ s' => Restores base s s' := by
  refine .expectLexeme rfl fun _ hs => (body_watched hself hs).bind fun inner s₁ _ hs₁ => ?_
  refine .expectLexeme rfl fun _ _ => (condition_watched _).bind fun test s₂ _ hs₂ => ?_
  exact .expectLexeme rfl fun _ hclear => .handPlain rfl ⟨hs₂.1.trans hs₁.1, hclear⟩

theorem rule_watched (u : Unit) (s : ParserState) (hs : base.Clear s) :
    Watched writes base (rule self u) (fun h => @rule h.naming (self' h) u) s
      fun _ s' => Scoped base s s' := by
  have hown : ∀ {lexeme : Lexeme} {p : Parser NodeId} {p' : Halt → Parser NodeId},
      s.front.lexeme = lexeme → Declaration.mayStart lexeme = false →
      Watched writes base p p' s (fun _ s' => Restores base s s') →
      Watched writes base (some <$> p) (fun h => some <$> p' h) s fun _ s' => Scoped base s s' :=
    fun hfront hlexeme hp =>
      .map (hp.mono fun _ _ _ h => .of_restores (starts_of_front hfront hlexeme) h)
  refine .current ?_
  split
  · next hfront => exact hown hfront rfl (scopedBlock_watched hself s)
  · next hfront =>
    exact .advance hfront rfl fun hclear =>
      .pure (.of_restores (starts_of_front hfront rfl) ⟨rfl, hclear⟩)
  · next hfront => exact hown hfront rfl (ifStatement_watched hself s)
  · next hfront => exact hown hfront rfl (forStatement_watched hself s)
  · next hfront => exact hown hfront rfl (whileStatement_watched hself s)
  · next hfront => exact hown hfront rfl (doStatement_watched hself s)
  · next hfront => exact hown hfront rfl (returnStatement_watched hfront)
  · next hfront => exact hown hfront rfl (branch_watched rfl hfront rfl)
  · next hfront => exact hown hfront rfl (branch_watched rfl hfront rfl)
  · next hfront => exact hown hfront rfl (branch_watched rfl hfront rfl)
  · next hfront =>
    exact Directive.parse_watched hfront fun s' hs' =>
      .pure (.of_restores (starts_of_front hfront rfl) hs')
  · refine Declaration.starts_watched fun b hstarts => .ite (fun hb => ?_) fun hb => ?_
    · refine (localDeclaration_watched hs).mono fun _ s' _ h =>
        ⟨h.1.1, fun _ _ => h.1.2, fun t ht => ?_, h.2⟩
      rw [hstarts, hb] at ht
      cases ht
    · rw [Bool.not_eq_true] at hb
      refine (Expression.parse_watched _ s).expression.bind fun node s₁ _ hnode => ?_
      exact .expectLexeme rfl fun _ hclear =>
        .pure (.of_restores (hb ▸ hstarts) ⟨hnode.made.scopes, hclear⟩)

end

theorem parse_watched (hs : base.Clear s) :
    Watched writes base parse (fun h => @parse h.naming) s fun _ s' => Scoped base s s' :=
  Watched.knot base.Clear (Q := fun s _ s' => Scoped base s s') (fun _ _ => rule_watched) () s hs

theorem functionBody_watched (s : ParserState) :
    Watched writes base functionBody (fun h => @functionBody h.naming) s
      fun _ s' => base.Clear s' := block_watched (fun _ _ => parse_watched) s

end Statement

namespace Shader

/-! ## Functions -/

theorem paramStep_watched {start : ParserState} {params : List Param}
    (hparams : Parameters start params s) (hstart : s.scopes = start.scopes) :
    Watched writes base (paramStep params) (fun h => @paramStep h.naming params) s
      (Does.AfterTurn (fun params s' => Parameters start params s' ∧ s'.scopes = start.scopes)
        fun params s' => Parameters start params.reverse s' ∧ s'.scopes = start.scopes) := by
  refine .isAt fun _ _ => .ite (fun _ => .pure ⟨?_, hstart⟩) fun _ =>
    .optional (fun _ => .expects rfl s) fun s₁ _ hs₁ => ?_
  · rwa [List.reverse_reverse]
  have hs₁ : (params ≠ [] ∧ s.front.lexeme = .symbol .comma ∧ s₁ = s.next ∨ params = [] ∧ s₁ = s) ∧
      s₁.scopes = start.scopes := by
    obtain ⟨hsome, _, _, hcomma, rfl, _⟩ | ⟨hnone, rfl⟩ := hs₁
    · exact ⟨.inl ⟨by simpa using hsome, hcomma, rfl⟩, hstart⟩
    · exact ⟨.inr ⟨by simpa using hnone, rfl⟩, hstart⟩
  refine (Declaration.qualifiers_watched s₁).running.bind fun q s₂ _ hs₂ => ?_
  refine (Declaration.specifier_watched s₂).running.bind fun shape s₃ _ hshape => ?_
  refine .ite (fun _ => .fail_bind) fun _ => .current ?_
  have hscopes₃ : s₃.scopes = start.scopes := hshape.2.scopes.trans (hs₂.2.1.scopes.trans hs₁.2)
  split
  · next hname =>
    refine .advance hname rfl fun _ => .pure_bind ?_
    refine (Declaration.arraySuffix_watched shape _).running.bind fun _ s₄ _ hsized => .pure ?_
    refine ⟨hparams.more hs₁.1 ⟨q, s₂, shape, s₃, hs₂.1, hshape.1, .inl ?_⟩,
      hsized.2.made.scopes.trans hscopes₃⟩
    exact ⟨_, hname, rfl, hsized.1⟩
  · next hnameless =>
    refine .pure_bind ?_
    refine (Declaration.arraySuffix_watched shape _).running.bind fun _ s₄ _ hsized => .pure ?_
    exact ⟨hparams.more hs₁.1 ⟨q, s₂, shape, s₃, hs₂.1, hshape.1, .inr ⟨hnameless, rfl, hsized.1⟩⟩,
      hsized.2.made.scopes.trans hscopes₃⟩

theorem params_watched (s : ParserState) :
    Watched writes base params (fun h => @params h.naming) s fun params s' =>
      ParamList s params s' ∧ s'.scopes = s.scopes := by
  refine .expectLexeme rfl fun hopen _ => .current (.following ?_)
  refine .optional (fun hvoid => .advances ?_) ?_
  · rw [beq_iff_eq.1 (Bool.and_eq_true_iff.1 hvoid).1]
    rfl
  intro s₁ _ hs₁
  have hs₁ : (s.next.front.lexeme = .name "void" ∧ s₁ = s.next.next ∨ s₁ = s.next) ∧
      s₁.scopes = s.scopes := by
    obtain ⟨hvoid, _, _, rfl, _⟩ | ⟨_, rfl⟩ := hs₁
    · exact ⟨.inl ⟨beq_iff_eq.1 (Bool.and_eq_true_iff.1 hvoid).1, rfl⟩, rfl⟩
    · exact ⟨.inr rfl, rfl⟩
  refine Watched.bind (.loop (fun params t => Parameters s₁ params t ∧ t.scopes = s₁.scopes)
    (fun params t h => paramStep_watched h.1 h.2) ⟨.none, rfl⟩) fun params s₂ _ h => ?_
  refine .expectLexeme rfl fun hclose _ => .pure ⟨?_, h.2.trans hs₁.2⟩
  exact ⟨s₁, s₂, hopen, hs₁.1, h.1, hclose, rfl⟩

theorem declareFunction_watched (token : Token) (name : String) (result : Shape)
    (shapes : List Shape) (s : ParserState) :
    Watched writes base (declareFunction token name result shapes)
      (fun _ => declareFunction token name result shapes) s fun _ s' => s'.scopes = s.scopes := by
  refine .get ?_
  split
  · exact .check fun _ => .pure rfl
  · refine .update (.of_eq ?_ rfl rfl rfl rfl) (fun N => writes.quiet rfl rfl) (.pure rfl)
    exact ⟨Nat.le_refl _, fun _ => rfl, fun hd => hd, fun hd => ParserState.declared?_append _ hd⟩

theorem declareParam_watched {param : Param} (h : ∀ v ∈ param.entered?, base.Origin s v) :
    Watched writes base (declareParam param) (fun _ => declareParam param) s fun _ s' =>
      s'.scope = param.entered?.toList ++ s.scope := by
  unfold declareParam
  split
  · next hname => exact .pure (by rw [Param.entered?, hname]; rfl)
  · next name hname =>
    have hv : param.entered? = some { name, shape := param.shape } := by
      rw [Param.entered?, hname]
      rfl
    rw [hv] at h ⊢
    refine .declare writes_scopeless (h _ rfl) ?_
    exact Watched.bind (Q := fun _ s' => s'.scope = _) (.handPlain rfl rfl) fun _ _ _ h => .pure h

/-- Every parameter with a name is declared, and nothing else. -/
theorem declareParams_watched {params : List Param} (h : ∀ v ∈ paramScope params, base.Origin s v) :
    Watched writes base (params.mapM declareParam) (fun _ => params.mapM declareParam) s
      fun _ s' => s'.scope = paramScope params ++ s.scope := by
  induction params generalizing s with
  | nil => exact .pure rfl
  | cons param params ih =>
    have hscope : paramScope (param :: params) = paramScope params ++ param.entered?.toList := by
      cases hv : param.entered? <;> simp [paramScope, hv]
    rw [hscope] at h ⊢
    simp only [List.mapM_cons]
    refine (declareParam_watched fun v hv => h v ?_).bind fun symbol s₁ hext hs₁ => ?_
    · exact List.mem_append_right _ (Option.mem_toList.2 hv)
    refine (ih fun v hv => ?_).bind fun symbols s₂ _ hs₂ => .pure ?_
    · exact (h v (List.mem_append_left _ hv)).later hext.rest
    · rw [hs₂, hs₁, List.append_assoc]

theorem function_watched (result : Shape) (s : ParserState) :
    Watched writes base (function result) (fun h => @function h.naming result) s
      fun _ s' => Restores base s s' := by
  refine .expectName fun name _ => .check fun _ => .get (.check fun _ => .given fun habove => ?_)
  refine (params_watched _).running.bind fun params s₁ _ hparams => ?_
  refine (declareFunction_watched _ _ _ _ s₁).bind fun decl s₂ hext₂ hs₂ => ?_
  have hscopes₂ : s₂.scopes = s.scopes := hs₂.trans hparams.2.2
  refine .accept (fun _ hclear => .pure ⟨hscopes₂, hclear⟩)
    (.ite (fun h => by cases h) fun _ => .check fun _ => ?_)
  refine .update (.of_eq ?_ rfl rfl rfl rfl) (fun N => writes.quiet rfl rfl) ?_
  · exact (Step.defined decl.name decl.signature).grows
  refine (Watched.ownScope ?_).mono fun _ _ _ h => ⟨h.1.trans hscopes₂, h.2⟩
  refine (declareParams_watched fun v hv => .inr ?_).bind fun symbols s₃ _ _ => ?_
  · exact ⟨s.next, params, s₁, habove.scanned, hparams.1, hv, hext₂.rest⟩
  refine .addPlain rfl ((Statement.functionBody_watched _).bind fun body s₅ _ hs₅ => ?_)
  exact Watched.bind (Q := fun _ => base.Clear) (.handPlain rfl hs₅) fun _ _ _ h => .pure h

/-! ## The top level -/

/-- What an item does to the scope at hand: it enters the variables of its declarators, unless it
declares a function or nothing. -/
def Enters (s s' : ParserState) : Prop :=
  Declaration.Keeps s s' ∧ ∀ q t type d, Declaration.qualifiers s = .ok (q, t) →
    Declaration.specifier t = .ok (type, d) → t.next.front.lexeme ≠ .symbol .semicolon →
    Declaration.Enters s s' ∨ d.next.front.lexeme = .symbol .leftParen ∧ s'.scope = s.scope

theorem externalDeclaration_watched (hs : base.Clear s) :
    Watched writes base externalDeclaration (fun h => @externalDeclaration h.naming) s
      fun _ s' => base.Clear s' ∧ Enters s s' := by
  refine (Declaration.qualifiers_watched s).running.bind fun q s₁ _ hq => ?_
  refine .current (.following ?_)
  dsimp only
  split
  on_goal 1 =>
    rename_i hname hend
    refine .get (.ite (fun _ => .advance hname rfl fun _ => ?_) fun _ => ?_)
    · refine .advance hend rfl fun h => .pure ?_
      refine ⟨h, .of_scopes_eq hq.2.1.scopes, fun q' t type d hq' _ hmore => ?_⟩
      cases hq.1.symm.trans hq'
      exact absurd hend hmore
  -- past the name of a variable that is already there, the rest is the same
  all_goals
    refine (Declaration.specifier_watched s₁).running.bind fun shape s₂ _ hshape => ?_
    have hscopes : s₂.scopes = s.scopes := hshape.2.scopes.trans hq.2.1.scopes
    have hentered : ∀ {t s'}, Declaration.Declared q shape s₂ t s' →
        t.front.lexeme = .symbol .semicolon → Enters s s' := fun h hend =>
      have ⟨hkeeps, henters⟩ := h.enters hend hq.1 hshape.1 hscopes
      ⟨hkeeps, fun _ _ _ _ _ _ _ => .inl henters⟩
    refine .accept (fun hend hclear => .pure ⟨hclear, ?_⟩) (.current (.following ?_))
    · exact hentered (.none q shape s₂) hend
    split
    · next hparen =>
      refine (function_watched shape s₂).mono fun _ s' _ h => ⟨h.2, ?_⟩
      have hsame : s'.scopes = s.scopes := h.1.trans hscopes
      refine ⟨.of_scopes_eq hsame, fun q' t type d hq' htype _ => .inr ?_⟩
      cases hq.1.symm.trans hq'
      cases hshape.1.symm.trans htype
      exact ⟨hparen, (List.cons.inj hsame).1⟩
    · refine (Declaration.declarators_watched true ?_).mono fun _ _ _ h => ⟨h.1, ?_⟩
      · exact ⟨s₁, hq.2.2.1, hq.2.2.2 hs, hshape.1⟩
      · obtain ⟨-, t, hdeclared, hend⟩ := h
        exact hentered hdeclared hend

/-- An item that begins with the lexeme is no declaration. -/
def isBare : Lexeme → Bool
  | .directive _ | .symbol .semicolon | .keyword .precision => true
  | _ => false

theorem itemStep_watched (items : List NodeId) (hs : base.Clear s) :
    Watched writes base (itemStep items) (fun h => @itemStep h.naming items) s
      (Does.AfterTurn (fun _ s' => base.Clear s' ∧
        (Enters s s' ∨ isBare s.front.lexeme = true ∧ s'.scope = s.scope)) fun _ _ => True) := by
  have hbare : ∀ {lexeme s'}, s.front.lexeme = lexeme → isBare lexeme = true → Restores base s s' →
      base.Clear s' ∧ (Enters s s' ∨ isBare s.front.lexeme = true ∧ s'.scope = s.scope) :=
    fun hfront hlexeme h => ⟨h.2, .inr ⟨hfront ▸ hlexeme, (List.cons.inj h.1).1⟩⟩
  refine .current ?_
  split
  · exact .pure trivial
  · next hfront =>
    exact Directive.parse_watched hfront fun s' hs' => .pure (hbare hfront rfl hs')
  · next hfront =>
    exact .advance hfront rfl fun hclear => .pure (hbare hfront rfl ⟨rfl, hclear⟩)
  · next hfront =>
    refine .advance hfront rfl fun _ => (Declaration.precision_watched _).bind fun _ s₁ _ hs₁ => ?_
    refine (Declaration.specifier_watched s₁).bind fun _ s₂ _ hs₂ => ?_
    exact .expectLexeme rfl fun _ hclear =>
      .pure (hbare hfront rfl ⟨hs₂.scopes.trans hs₁, hclear⟩)
  · refine (externalDeclaration_watched hs).bind fun item s' _ hs' => ?_
    cases item with
    | some item => exact .pure ⟨hs'.1, .inl hs'.2⟩
    | none => exact .pure ⟨hs'.1, .inl hs'.2⟩

theorem shader_watching (s : ParserState) :
    Watching writes s shader (fun h => @shader h.naming) s fun _ _ => True := by
  refine Watched.bind (Q := fun _ _ => True) (.loop (fun _ => s.Clear)
    (fun items _ hs => (itemStep_watched items hs).mono ?_) (.refl s))
    (fun items s₁ _ _ => .get (.addPlain rfl ?_)) (.refl s)
  · intro turn s' _ hturn
    cases turn with
    | again => exact hturn.1
    | stop => trivial
  · exact .handPlain (Q := fun _ => True) rfl trivial

end Shader

end ShaderCost
