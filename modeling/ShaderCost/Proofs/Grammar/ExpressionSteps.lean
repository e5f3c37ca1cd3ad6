import ShaderCost.Proofs.Grammar.Steps

/-! # Steps of expressions

Each rule of the grammar of expressions is a sequence of steps that ends with a node
(`parse_does`). A node is made right after its operands are complete, but some shapes are read
before the last operand is: `Grows` carries what was found there over to the state in which the node
is made.
-/

namespace ShaderCost.Expression

open ShaderCost.Parser

variable {self : Rule → Parser NodeId} {s : ParserState}

theorem checkTarget_does {β : Type} {R : β → ParserState → Prop} {id : NodeId} {token : Token}
    {op : Symbol} {f : Unit → Parser β} (h : (f ()).Does s R) :
    (checkTarget id token op >>= f).Does s R := by
  refine Does.bind (Q := fun _ s' => s' = s) ?_ fun _ s' _ hs => hs ▸ h
  refine .get (.found fun base _ => .ite (fun _ => ?_) fun _ => .failAt _ _)
  split
  · exact .ite (fun _ => .failAt _ _) fun _ => .pure rfl
  · exact .pure rfl

theorem has_nil : ∀ c ∈ ([] : List NodeId), s.Has c := fun _ h => (List.not_mem_nil h).elim

theorem has_cons {x : NodeId} {ids : List NodeId} (hx : s.Has x) (hids : ∀ c ∈ ids, s.Has c) :
    ∀ c ∈ x :: ids, s.Has c := List.forall_mem_cons.2 ⟨hx, hids⟩

/-! ## Selectors and subscripts -/

theorem map_of_mapM_some {α β : Type} {f : α → Option β} {l : List α} {bs : List β}
    (h : l.mapM f = some bs) : l.map f = bs.map some := by
  induction l generalizing bs with
  | nil =>
    cases h
    rfl
  | cons a l ih =>
    rw [List.mapM_cons] at h
    obtain ⟨b, hb, h⟩ := Option.bind_eq_some_iff.1 h
    obtain ⟨bs', hbs', h⟩ := Option.bind_eq_some_iff.1 h
    cases h
    rw [List.map_cons, List.map_cons, hb, ih hbs']

/-- The letters of a selector are looked up in one of the sets. -/
theorem swizzleComponents_eq_some {name : String} {width : Nat} {components : List Nat}
    (h : swizzleComponents name width = some components) :
    name.toList ≠ [] ∧ name.toList.length ≤ 4 ∧ ∃ set ∈ swizzleSets,
      (name.toList.mapM fun letter =>
        (set.idxOf? letter).filter fun position => decide (position < width)) =
          some components := by
  unfold swizzleComponents at h
  split at h
  · cases h
  · next hletters =>
    split at h
    · cases h
    · next hlength =>
      split at h
      · cases h
      · next set hset =>
        rw [hletters]
        refine ⟨List.cons_ne_nil _ _, Nat.le_of_not_lt hlength, set,
          List.mem_of_find?_eq_some hset, ?_⟩
        rw [← h]
        congr 1
        funext letter
        cases set.idxOf? letter with
        | none => rfl
        | some position => simp [Option.filter]

theorem swizzleComponents_length {name : String} {width : Nat} {components : List Nat}
    (h : swizzleComponents name width = some components) :
    1 ≤ components.length ∧ components.length ≤ 4 := by
  obtain ⟨hne, hlength, set, -, hcomponents⟩ := swizzleComponents_eq_some h
  have hsame := congrArg List.length (map_of_mapM_some hcomponents)
  rw [List.length_map, List.length_map] at hsame
  rw [← hsame]
  exact ⟨List.length_pos_iff.2 hne, hlength⟩

/-- A component is the position of a letter in one of the sets, within the width. -/
theorem swizzleComponents_mem {name : String} {width : Nat} {components : List Nat}
    (h : swizzleComponents name width = some components) {component : Nat}
    (hc : component ∈ components) :
    ∃ set ∈ swizzleSets, ∃ letter, set.idxOf? letter = some component ∧ component < width := by
  obtain ⟨-, -, set, hset, hcomponents⟩ := swizzleComponents_eq_some h
  have hmem := List.mem_map_of_mem (f := some) hc
  rw [← map_of_mapM_some hcomponents] at hmem
  obtain ⟨letter, -, hletter⟩ := List.mem_map.1 hmem
  rw [Option.filter_eq_some_iff, decide_eq_true_eq] at hletter
  exact ⟨set, hset, letter, hletter.1, hletter.2⟩

theorem swizzleComponents_lt {name : String} {width : Nat} {components : List Nat}
    (h : swizzleComponents name width = some components) {component : Nat}
    (hc : component ∈ components) : component < width := by
  obtain ⟨_, -, _, -, hlt⟩ := swizzleComponents_mem h hc
  exact hlt

theorem swizzleComponents_lt_four {name : String} {width : Nat} {components : List Nat}
    (h : swizzleComponents name width = some components) {component : Nat}
    (hc : component ∈ components) : component < 4 := by
  have hsets : ∀ set ∈ swizzleSets, set.length = 4 := by decide
  obtain ⟨set, hset, letter, hposition, -⟩ := swizzleComponents_mem h hc
  rw [← hsets set hset]
  exact (List.findIdx?_eq_some_iff_getElem.1 hposition).1

theorem fieldAt?_lt {fields : List Field} {name : String} {position : Nat} {shape : Shape}
    (h : fieldAt? fields name = some (position, shape)) : position < fields.length := by
  unfold fieldAt? at h
  split at h
  · next hposition _ =>
    cases h
    exact (List.findIdx?_eq_some_iff_getElem.1 hposition).1
  · cases h

/-- The constants behind a selector, one for each component. -/
theorem places_does {components : List Nat} (hcomponents : ∀ c ∈ components, c < 4) (line : Nat)
    (s : ParserState) :
    (components.mapM fun (component : Nat) => addConstant (.int component) line).Does s
      fun places s' => (∀ place ∈ places, s'.Has place) ∧
        places.map (fun place => (s'.node place).constant?) =
          components.map fun component => some (.int component) := by
  induction components generalizing s with
  | nil => exact .pure ⟨has_nil, rfl⟩
  | cons component components ih =>
    obtain ⟨hcomponent, hcomponents⟩ := List.forall_mem_cons.1 hcomponents
    rw [List.mapM_cons]
    refine .addNode (.place (.inl hcomponent)) has_nil fun place s₁ _ _ hplace hnode => ?_
    refine (ih hcomponents s₁).bind fun places s₂ hs ⟨hhas, hplaces⟩ => .pure ⟨?_, ?_⟩
    · exact has_cons (hs.grows.has hplace) hhas
    · rw [List.map_cons, List.map_cons, hplaces, hs.grows.node_eq hplace, hnode]
      rfl

theorem fieldAt?_isPlace {typeName name : String} {decl : StructDecl} {position : Nat}
    {shape : Shape} (hdecl : s.struct? typeName = some decl)
    (hfield : fieldAt? decl.fields name = some (position, shape)) : s.IsPlace position :=
  .inr ⟨decl, List.mem_of_find?_eq_some hdecl, fieldAt?_lt hfield⟩

theorem selector_does {base : NodeId} (hbase : s.Has base) (token : Token) (name : String) :
    (selector base token name).Does s Handed := by
  refine .shapeAt (.ite (fun hstruct => ?_) fun _ => .ite (fun _ => .failAt _ _) fun hlanes => ?_)
  · refine .get (.found fun decl hdecl => ?_)
    split
    · exact .failAt _ _
    · next position shape hfield =>
      obtain ⟨hstruct, hsingle⟩ :
          (s.shape base).basic = .struct ∧ (s.shape base).isArray = false := by
        simpa using hstruct
      refine .addNode (.place (fieldAt?_isPlace hdecl hfield)) has_nil
        fun place s' hs hgrows hplace hnode => ?_
      rw [← hgrows.shape_eq hbase] at hstruct hsingle hdecl
      refine .hand (.field hstruct hsingle (hs ▸ hdecl) hfield ?_) ?_
      · rw [hnode]
        rfl
      · exact has_cons (hgrows.has hbase) (has_cons hplace has_nil)
  · have hlanes : (s.shape base).isVector = true ∨ (s.shape base).isScalar = true := by
      cases hvector : (s.shape base).isVector with
      | true => exact Or.inl rfl
      | false => exact Or.inr (by simpa [hvector] using hlanes)
    split
    · exact .failAt _ _
    · next component hcomponents =>
      have hrange := swizzleComponents_lt hcomponents List.mem_cons_self
      have hplace := swizzleComponents_lt_four hcomponents List.mem_cons_self
      refine .addNode (.place (.inl hplace)) has_nil fun place s' _ hgrows hplace hnode => ?_
      rw [← hgrows.shape_eq hbase] at hlanes hrange ⊢
      refine .hand (.component hlanes hrange ?_ ?_) ?_
      · rw [hnode]
        rfl
      · rw [ParserState.shape, hnode]
        rfl
      · exact has_cons (hgrows.has hbase) (has_cons hplace has_nil)
    · next components hmany hcomponents =>
      refine (places_does (fun _ => swizzleComponents_lt_four hcomponents) token.line s).bind
        fun places s₁ hs ⟨hhas, hplaces⟩ => ?_
      refine .addNode (.selector fun place hplace => ?_) hhas
        fun selected s₂ _ hgrows hselected hnode => ?_
      · have hmem := List.mem_map_of_mem (f := fun place => (s₁.node place).constant?) hplace
        rw [hplaces] at hmem
        obtain ⟨component, -, heq⟩ := List.mem_map.1 hmem
        exact ⟨component, heq.symm⟩
      · have hplaces' : places.map (fun place => (s₂.node place).constant?) =
            components.map fun component => some (.int component) := by
          rw [← hplaces]
          exact List.map_congr_left fun place hplace => by rw [hgrows.node_eq (hhas place hplace)]
        have hshape := (hs.grows.trans hgrows).shape_eq hbase
        rw [← hshape] at hlanes hcomponents ⊢
        refine .hand (.swizzle hlanes hcomponents (fun hone => ?_) hnode hplaces') ?_
        · obtain ⟨component, hone⟩ := List.length_eq_one_iff.1 hone
          exact hmany component hone
        · exact has_cons ((hs.grows.trans hgrows).has hbase) (has_cons hselected has_nil)

theorem subscript_does (hself : ∀ rule s, (self rule).Does s Handed) {base : NodeId}
    (hbase : s.Has base) (token : Token) : (subscript self base token).Does s Handed := by
  refine .shapeAt (.check fun hshape => ?_)
  refine (hself _ s).bind fun index s' hs hindex => ?_
  refine .nodeAt (.check fun hplace => ?_)
  have hkind : (s'.shape base).isArray = true ∨ (s'.shape base).isVector = true ∨
      (s'.shape base).isMatrix = true := by
    rw [hs.grows.shape_eq hbase]
    cases harray : (s.shape base).isArray <;> cases hvector : (s.shape base).isVector <;>
      simp_all
  have hinteger : (s'.shape index).isScalar = true ∧ (s'.shape index).basic.isIntegral = true := by
    simpa using hplace
  have hchildren := has_cons (hs.grows.has hbase) (has_cons hindex has_nil)
  rw [← hs.grows.shape_eq hbase]
  split
  · next hvalue => exact .hand (.subscript hkind hinteger hvalue) hchildren
  · next value hvalue =>
    refine .check fun hrange => .hand (.constantSubscript hkind hinteger hvalue ?_) hchildren
    simpa using hrange

/-! ## Calls -/

theorem argumentStep_does (hself : ∀ rule s, (self rule).Does s Handed) {args : List NodeId}
    (hargs : ∀ arg ∈ args, s.Has arg) :
    (argumentStep self args).Does s (Does.AfterTurn (fun args s => ∀ arg ∈ args, s.Has arg)
      fun args s => ∀ arg ∈ args, s.Has arg) := by
  refine .isAt fun closing => .ite (fun _ => .pure ?_) fun _ => .optional (.expects _ s) ?_
  · exact fun arg harg => hargs arg (List.mem_reverse.1 harg)
  · intro s' hs'
    refine (hself _ s').bind fun arg s'' hs'' harg => .pure ?_
    exact has_cons harg fun arg harg => hs''.grows.has (hs'.grows.has (hargs arg harg))

theorem arguments_does (hself : ∀ rule s, (self rule).Does s Handed) :
    (arguments self).Does s fun args s' => ∀ arg ∈ args, s'.Has arg := by
  refine .expectLexeme (.current (.following fun next => .optional (.advances _) fun s₁ _ => ?_))
  exact Does.bind (.loop (fun args s => ∀ arg ∈ args, s.Has arg)
    (fun args s hargs => argumentStep_does hself hargs) has_nil)
    fun args s₂ _ hhas => .expectLexeme (.pure hhas)

theorem accepts_refl (shape : Shape) : shape.accepts shape = true := by simp [Shape.accepts]

theorem acceptsAll_refl (shapes : List Shape) : acceptsAll shapes shapes = true := by
  unfold acceptsAll
  rw [beq_self_eq_true, Bool.true_and, List.all_eq_true]
  rintro ⟨param, arg⟩ hmem
  have heq : param = arg := by
    induction shapes with
    | nil => cases hmem
    | cons shape shapes ih =>
      rcases List.mem_cons.1 hmem with heq | hmem
      · cases heq
        rfl
      · exact ih hmem
  rw [heq]
  exact accepts_refl arg

/-- The overload that is found is a declaration that accepts the arguments. -/
theorem resolveOverload?_eq_some {overloads : List FunctionDecl} {args : List Shape}
    {decl : FunctionDecl} (h : resolveOverload? overloads args = some decl) :
    decl ∈ overloads ∧ acceptsAll decl.params args = true := by
  unfold resolveOverload? at h
  split at h
  · next hfind =>
    cases h
    have hexact : decl.params = args := by simpa using List.find?_some hfind
    exact ⟨List.mem_of_find?_eq_some hfind, hexact ▸ acceptsAll_refl args⟩
  · exact ⟨List.mem_of_find?_eq_some h, by simpa using List.find?_some h⟩

/-- Only a constructor of a structure looks at fields. -/
theorem constructorFields_does (target : Shape) (name : String) (s : ParserState) :
    (constructorFields target name).Does s fun fields s' => s' = s ∧ ∀ args,
      constructorComplaint? target fields args =
        constructorComplaint? target (((s.struct? name).map (·.fields)).getD []) args := by
  refine .ite (fun _ => .get (.found fun decl hdecl => .pure ⟨rfl, fun args => ?_⟩)) fun hother =>
    .pure ⟨rfl, fun args => ?_⟩
  · rw [hdecl]
    rfl
  · unfold constructorComplaint?
    rw [if_neg hother, if_neg hother]

theorem call_does (hself : ∀ rule s, (self rule).Does s Handed) (token : Token) (name : String) :
    (call self token name).Does s Handed := by
  refine (arguments_does hself).bind fun args s' _ hargs => .shapes (.get ?_)
  split
  · next target htarget =>
    refine (constructorFields_does target name s').bind fun fields s'' _ hfields => ?_
    obtain ⟨rfl, hfields⟩ := hfields
    split
    · exact .failAt _ _
    · next hcomplaint => exact .hand (.construct htarget (hfields _ ▸ hcomplaint)) hargs
  · next htype =>
    split
    · next fn hfn =>
      refine .check fun hcount => .found fun shape hshape => ?_
      rw [← Builtin.ResultRule.shape_eq_of_shape? hshape]
      refine .hand (.builtin htype hfn ?_ ?_) ?_
      · simp only [Bool.or_eq_true, decide_eq_true_eq, not_or, Nat.not_lt] at hcount
        exact hcount.1
      · simp only [Bool.or_eq_true, not_or, List.any_eq_true, List.mem_map] at hcount
        exact fun arg harg hvoid => hcount.2 ⟨_, ⟨arg, harg, rfl⟩, beq_iff_eq.2 hvoid⟩
      · -- with one operand or with several, the arguments are below the node
        cases hone : args.length == 1 <;> exact hargs
    · next hbuiltin =>
      refine .ite (fun _ => .check fun _ => .failAt_bind) fun _ => ?_
      simp only
      split
      · exact .failAt _ _
      · next decl hdecl => exact .hand (.call htype hbuiltin hdecl) hargs

/-! ## Operands -/

theorem named_does (token : Token) (name : String) : (named token name).Does s Handed := by
  refine .get ?_
  split
  · next value hvalue => exact .hand (.expansion hvalue) has_nil
  · split
    · exact .failAt _ _
    · next v hv =>
      split
      · next value hvalue => exact .hand (.constantVariable hv hvalue) has_nil
      · next hvalue => exact .hand (.named hv hvalue) has_nil

theorem literal_does (token : Token) (text : String) : (literal token text).Does s Handed := by
  unfold literal
  split
  · next value hvalue => exact .hand (.literal hvalue) has_nil
  · exact .failAt _ _
  · exact .failAt _ _

theorem primary_does (hself : ∀ rule s, (self rule).Does s Handed) :
    (primary self).Does s Handed := by
  refine .current ?_
  split
  · exact .advance (literal_does _ _)
  · exact .advance (literal_does _ _)
  · exact .advance (literal_does _ _)
  · exact .advance (literal_does _ _)
  · refine .advance ((hself _ _).bind fun inner s' _ hinner => ?_)
    exact .expectLexeme (.pure hinner)
  · refine .advance (.isAt fun applied => .ite (fun _ => ?_) fun _ => ?_)
    · exact call_does hself _ _
    · exact named_does _ _
  · exact .fail _

theorem step_does {op : Operator}
    (hop : op ∈ [.preIncrement, .preDecrement, .postIncrement, .postDecrement]) (mark : Symbol)
    {operand : NodeId} (hoperand : s.Has operand) (start token : Token) :
    (step op mark operand start token).Does s Handed := by
  refine checkTarget_does (.shapeAt (.check fun hnumeric => ?_))
  exact .hand (.step hop (by simpa using hnumeric)) (has_cons hoperand has_nil)

theorem suffix_does (hself : ∀ rule s, (self rule).Does s Handed) (start : Token)
    {operand : NodeId} (hoperand : s.Has operand) :
    (suffix self start operand).Does s (Does.AfterTurn Handed Handed) := by
  have hnext : s.next.Has operand := hoperand
  have hselected : s.next.next.Has operand := hoperand
  have hagain : ∀ {p : Parser NodeId} {s : ParserState}, p.Does s Handed →
      (p >>= fun node => pure (.again node) : Parser (Turn NodeId NodeId)).Does s
        (Does.AfterTurn Handed Handed) := fun hp => hp.bind fun node s' _ hnode => .pure hnode
  refine .current ?_
  split
  · refine .advance ((subscript_does hself hnext _).bind fun node s' _ hnode => ?_)
    exact .expectLexeme (.pure hnode)
  · exact .advance (.expectName fun name => hagain (selector_does hselected _ _))
  · refine .advance (hagain (step_does ?_ _ hnext _ _))
    simp
  · refine .advance (hagain (step_does ?_ _ hnext _ _))
    simp
  · exact .pure hoperand

theorem suffixed_does (hself : ∀ rule s, (self rule).Does s Handed) :
    (suffixed self).Does s Handed := by
  refine .current ((primary_does hself).bind fun operand s' _ hoperand => ?_)
  exact .loop Handed (fun operand s hoperand => suffix_does hself _ hoperand) hoperand

theorem unary_does (hself : ∀ rule s, (self rule).Does s Handed) :
    (unary self).Does s Handed := by
  refine .current ?_
  split
  · refine .advance ((hself _ _).bind fun operand s' _ hoperand => ?_)
    exact .shapeAt (.check fun _ => .pure hoperand)
  · refine .advance ((hself _ _).bind fun operand s' _ hoperand => ?_)
    refine .nodeAt (.check fun hnumeric => ?_)
    have hnumeric : (s'.shape operand).isNumeric = true := by
      simpa using hnumeric
    split
    · next value hvalue => exact .hand (.negatedLiteral hoperand hvalue hnumeric) has_nil
    · next hvalue => exact .hand (.negate hnumeric hvalue) (has_cons hoperand has_nil)
  · refine .advance ((hself _ _).bind fun operand s' _ hoperand => ?_)
    refine .shapeAt (.check fun hbool => ?_)
    exact .hand (.logicalNot (by simpa using hbool)) (has_cons hoperand has_nil)
  · refine .advance ((hself _ _).bind fun operand s' _ hoperand => ?_)
    refine .shapeAt (.check fun hinteger => ?_)
    exact .hand (.bitwiseNot (by simpa using hinteger)) (has_cons hoperand has_nil)
  · refine .advance (.current ((hself _ _).bind fun operand s' _ hoperand => ?_))
    exact step_does (by simp) _ hoperand _ _
  · refine .advance (.current ((hself _ _).bind fun operand s' _ hoperand => ?_))
    exact step_does (by simp) _ hoperand _ _
  · exact suffixed_does hself

/-! ## Operators -/

theorem binaryAt?_eq_some {token : Token} {mark : Symbol} {precedence : Nat} {op : Operator}
    (h : binaryAt? token = some (mark, precedence, op)) :
    binaryOperator? mark = some (precedence, op) := by
  unfold binaryAt? at h
  split at h
  · obtain ⟨x, hx, heq⟩ := Option.map_eq_some_iff.1 h
    cases heq
    exact hx
  · cases h

theorem binaryStep_does (hself : ∀ rule s, (self rule).Does s Handed) (least : Nat)
    {left : NodeId} (hleft : s.Has left) :
    (binaryStep self least left).Does s (Does.AfterTurn Handed Handed) := by
  refine .current ?_
  split
  · exact .pure hleft
  · next mark precedence op hop =>
    refine .ite (fun _ => .pure hleft) fun _ => ?_
    refine .advance ((hself _ _).bind fun right s' hs hright => .shapeAt (.shapeAt ?_))
    split
    · exact .failAt _ _
    · next shape hshape =>
      have hleft' : s'.Has left := hs.grows.has hleft
      refine Does.bind (.hand (.binary (binaryAt?_eq_some hop) hshape) ?_)
        fun node s'' _ hnode => .pure hnode
      exact has_cons hleft' (has_cons hright has_nil)

theorem binary_does (hself : ∀ rule s, (self rule).Does s Handed) (least : Nat) :
    (binary self least).Does s Handed := by
  refine (unary_does hself).bind fun left s' _ hleft => ?_
  exact .loop Handed (fun left s hleft => binaryStep_does hself least hleft) hleft

theorem conditional_does (hself : ∀ rule s, (self rule).Does s Handed) :
    (conditional self).Does s Handed := by
  refine (binary_does hself 1).bind fun condition s₁ _ hcondition => ?_
  refine .isAt fun question => .ite (fun _ => .pure hcondition) fun _ => ?_
  refine .advance (.shapeAt (.check fun hbool => ?_))
  refine (hself _ _).bind fun yes s₂ hs₂ hyes => .expectLexeme ?_
  refine (hself _ _).bind fun no s₃ hs₃ hno => .shapeAt (.shapeAt ?_)
  split
  · exact .failAt _ _
  · next shape hshape =>
    have hgrows : Grows s₁.next s₃ :=
      hs₂.grows.trans ((Step.consume (s := s₂)).grows.trans hs₃.grows)
    have hyes' : s₃.Has yes := hs₃.grows.has hyes
    refine .hand (.choice ?_ hshape) (has_cons (hgrows.has hcondition) ?_)
    · rw [hgrows.shape_eq hcondition]
      simpa using hbool
    · exact has_cons hyes' (has_cons hno has_nil)

theorem plain_assignment {token : Token} {mark : Symbol} {op : Operator}
    (h : assignmentAt? token = some (mark, op)) (hplain : op.compoundBase? = none) :
    op = .assign := by
  unfold assignmentAt? at h
  split at h
  · obtain ⟨op', hop', heq⟩ := Option.map_eq_some_iff.1 h
    cases heq
    unfold assignmentOperator? at hop'
    split at hop' <;> cases hop' <;> first | rfl | cases hplain
  · cases h

theorem assignment_does (hself : ∀ rule s, (self rule).Does s Handed) :
    (assignment self).Does s Handed := by
  refine .current ((conditional_does hself).bind fun left s₁ _ hleft => .current ?_)
  split
  · exact .pure hleft
  · next mark op hop =>
    refine .advance (checkTarget_does ?_)
    refine (hself _ _).bind fun right s₂ hs₂ hright => .shapeAt (.shapeAt ?_)
    have hchildren := has_cons (hs₂.grows.has hleft) (has_cons hright has_nil)
    simp only
    split
    · next hplain =>
      obtain rfl := plain_assignment hop hplain
      exact .check fun haccepts => .hand (.assign (by simpa using haccepts)) hchildren
    · next base hbase =>
      split
      · exact .failAt_bind
      · next result hresult =>
        refine .check fun haccepts => ?_
        exact .hand (.compoundAssign hbase hresult (by simpa using haccepts)) hchildren

theorem commaStep_does (hself : ∀ rule s, (self rule).Does s Handed) {left : NodeId}
    (hleft : s.Has left) : (commaStep self left).Does s (Does.AfterTurn Handed Handed) := by
  refine .isAt fun comma => .ite (fun _ => .pure hleft) fun _ => ?_
  refine .advance ((hself _ _).bind fun right s' hs hright => .shapeAt ?_)
  refine Does.bind (.hand .comma ?_) fun node s'' _ hnode => .pure hnode
  exact has_cons (hs.grows.has hleft) (has_cons hright has_nil)

theorem expression_does (hself : ∀ rule s, (self rule).Does s Handed) :
    (expression self).Does s Handed := by
  refine (assignment_does hself).bind fun first s' _ hfirst => ?_
  exact .loop Handed (fun left s hleft => commaStep_does hself hleft) hfirst

/-! ## The grammar -/

theorem rules_does (hself : ∀ rule s, (self rule).Does s Handed) (rule : Rule) (s : ParserState) :
    (rules self rule).Does s Handed := by
  cases rule with
  | expression => exact expression_does hself
  | assignment => exact assignment_does hself
  | unary => exact unary_does hself
  | binary least => exact binary_does hself least

theorem parse_does (rule : Rule) (s : ParserState) : (parse rule).Does s Handed :=
  Does.knot (fun _ hself => rules_does hself) rule s

theorem parseConditional_does (s : ParserState) : parseConditional.Does s Handed :=
  conditional_does parse_does

end ShaderCost.Expression
