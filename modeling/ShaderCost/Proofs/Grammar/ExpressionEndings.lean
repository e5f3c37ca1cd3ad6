import ShaderCost.Proofs.Grammar.Endings

/-! # How the reading of expressions ends

Every rule of the grammar of expressions consumes a token before it calls another (`parse_ends`), so
the calls are never deeper than there are tokens. What the rules look up is there: an access has a
base that was made before it, the structure of a shape is declared, and a built-in function that
accepts its arguments finds those that its result depends on.
-/

namespace ShaderCost

/-! ## What is looked up is there -/

namespace Builtin

/-- How many arguments a rule looks at. -/
def ResultRule.reads : ResultRule → Nat
  | .fixed _ => 0
  | .outerProduct => 2
  | _ => 1

theorem ResultRule.shape?_isSome {rule : ResultRule} {args : List Shape}
    (h : rule.reads ≤ args.length) : ∃ shape, rule.shape? args = some shape := by
  rcases args with _ | ⟨first, _ | ⟨second, others⟩⟩
  · cases rule <;> simp [reads] at h
    exact ⟨_, rfl⟩
  · cases rule <;> simp [reads] at h <;> exact ⟨_, rfl⟩
  · cases rule <;> exact ⟨_, rfl⟩

theorem function?_shape {name : String} {fn : Function} (h : function? name = some fn)
    {args : List Shape} (hargs : fn.minArgs ≤ args.length) :
    ∃ shape, fn.result.shape? args = some shape := by
  have htable : ∀ entry ∈ functions, entry.2.result.reads ≤ entry.2.minArgs := by decide
  exact ResultRule.shape?_isSome (Nat.le_trans (htable _ (lookup_mem h)) hargs)

end Builtin

theorem ParserState.struct?_of_type? {s : ParserState} {name : String} {target : Shape}
    (h : s.type? name = some target) (hstruct : target.basic = .struct) :
    ∃ decl, s.struct? name = some decl := by
  unfold ParserState.type? at h
  split at h
  · next hbuiltin =>
    cases h
    exact absurd hstruct (Builtin.type?_basic hbuiltin)
  · obtain ⟨decl, hdecl, -⟩ := Option.map_eq_some_iff.1 h
    exact ⟨decl, hdecl⟩

open Expression (isAccess accessBase?)

/-- Every access has a base, which was made before it. -/
def ParserState.AccessesFall (s : ParserState) : Prop :=
  ∀ id, s.Has id → isAccess (s.node id) = true → ∃ left < id, (s.node id).left? = some left

theorem Makes.left? {s : ParserState} {n : Node} (hn : Makes s n) (h : isAccess n = true) :
    ∃ left ∈ n.children, n.left? = some left := by
  have hform : n.form.kind = .binary := by
    unfold isAccess at h
    simp only [Bool.and_eq_true, beq_iff_eq] at h
    exact h.1
  cases hn with
  | field | component | swizzle | subscript | constantSubscript | binary | comma | assign
  | compoundAssign => exact ⟨_, List.mem_cons_self, rfl⟩
  | builtin =>
    simp only at hform
    split at hform <;> cases hform
  | _ => cases hform

theorem Steps.accessesFall {s s' : ParserState} (h : Steps s s') (hs : s.AccessesFall) :
    s'.AccessesFall := by
  induction h with
  | refl => exact hs
  | @tail s₁ s₂ _ hstep ih =>
    cases hstep with
    | @node n hn hchildren =>
      intro id hid haccess
      rw [s₁.node_push] at haccess ⊢
      split at haccess
      · next heq =>
        obtain ⟨left, hmem, hleft⟩ := hn.left? haccess
        rw [if_pos heq]
        exact ⟨left, heq ▸ hchildren left hmem, hleft⟩
      · next hne =>
        rw [if_neg hne]
        exact ih id (((s₁.has_push_iff n).1 hid).resolve_right hne) haccess
    | _ => exact ih

theorem ParserState.AccessesFall.base {s : ParserState} (h : s.AccessesFall) {depth : Nat}
    {id : NodeId} (hdepth : id < depth) (hid : s.Has id) :
    ∃ base, accessBase? s.nodes depth id = some base := by
  induction depth generalizing id with
  | zero => exact absurd hdepth (Nat.not_lt_zero id)
  | succ depth ih =>
    simp only [accessBase?, ParserState.getElem?_nodes hid]
    by_cases haccess : isAccess (s.node id) = true
    · obtain ⟨left, hlt, hleft⟩ := h id hid haccess
      simp only [haccess, if_true, hleft]
      exact ih (Nat.lt_of_lt_of_le hlt (Nat.le_of_lt_succ hdepth)) (Nat.lt_trans hlt hid)
    · exact ⟨s.node id, if_neg haccess⟩

theorem Reading.base {ts : List Token} {s : ParserState} (h : Reading ts s) {id : NodeId}
    (hid : s.Has id) : ∃ base, accessBase? s.nodes (id + 1) id = some base := by
  have hstart : ({ rest := ts } : ParserState).AccessesFall := by
    intro id hid
    cases hid
  exact (h.steps.accessesFall hstart).base (Nat.lt_succ_self id) hid

namespace Expression

open ShaderCost.Parser

variable {self : Rule → Parser NodeId} {ts : List Token} {s : ParserState} {k : Nat}

theorem checkTarget_ends {β : Type} {bound : β → Nat} {id : NodeId} (hid : s.Has id) {token : Token}
    (htoken : token ∈ ts) {op : Symbol} {f : Unit → Parser β} (h : (f ()).Ends ts s bound) :
    (checkTarget id token op >>= f).Ends ts s bound := by
  have hdoes : (checkTarget id token op).Does s fun _ s' => s' = s := by
    rw [← bind_pure (checkTarget id token op)]
    exact checkTarget_does (.pure rfl)
  have hends : (checkTarget id token op).Ends ts s fun _ => s.rest.length + 1 := by
    refine .reading fun hs => .get (.found (hs.base hid) fun base _ => ?_)
    refine .ite (fun _ => ?_) fun _ => .failAt htoken rfl
    split
    · exact .ite (fun _ => .failAt htoken rfl) fun _ => .pure (Nat.lt_succ_self _)
    · exact .pure (Nat.lt_succ_self _)
  exact .bind hdoes hends fun _ s' _ hs _ => hs ▸ h

/-! ## Selectors and subscripts -/

theorem places_ends {s : ParserState} {components : List Nat}
    (hcomponents : ∀ c ∈ components, c < 4) (line : Nat) (hk : s.rest.length < k) :
    (components.mapM fun (component : Nat) => addConstant (.int component) line).Ends ts s
      fun _ => k := by
  induction components generalizing s with
  | nil => exact .pure hk
  | cons component components ih =>
    obtain ⟨hcomponent, hcomponents⟩ := List.forall_mem_cons.1 hcomponents
    rw [List.mapM_cons]
    refine .bind (.hand (.place (.inl hcomponent)) has_nil) (.hand (.still rfl) hk)
      fun _ s' _ _ hk' => ?_
    exact .bind (places_does hcomponents line s') (ih hcomponents hk') fun _ _ _ _ hk'' =>
      .pure hk''

theorem selector_ends {base : NodeId} (hbase : s.Has base) {token : Token}
    (htoken : Consumed ts token) (name : String) (hk : s.rest.length < k) :
    (selector base token name).Ends ts s fun _ => k := by
  refine .shapeAt hbase (.ite (fun hstruct => ?_) fun _ => .ite (fun _ => ?_) fun _ => ?_)
  · have hbasic : (s.shape base).basic = .struct := by
      rw [Bool.and_eq_true, beq_iff_eq] at hstruct
      exact hstruct.1
    refine .reading fun hs => .get (.found ((hs.knows base).struct? hbasic) fun decl hdecl => ?_)
    split
    · exact .failAt htoken.mem rfl
    · next hfield =>
      refine .bind (.hand (.place (fieldAt?_isPlace hdecl hfield)) has_nil) (.hand (.still rfl) hk)
        fun place s' _ _ hk' => ?_
      exact .hand (.on htoken rfl) hk'
  · exact .failAt htoken.mem rfl
  · split
    · exact .failAt htoken.mem rfl
    · next hcomponents =>
      have hplace := swizzleComponents_lt_four hcomponents List.mem_cons_self
      refine .bind (.hand (.place (.inl hplace)) has_nil) (.hand (.still rfl) hk)
        fun place s' _ _ hk' => ?_
      exact .hand (.on htoken rfl) hk'
    · next components _ hcomponents =>
      have hfour : ∀ c ∈ components, c < 4 := fun _ hc => swizzleComponents_lt_four hcomponents hc
      refine .bind (places_does hfour token.line s) (places_ends hfour _ hk)
        fun places s₁ _ ⟨hhas, hplaces⟩ hk₁ => ?_
      refine .bind (.hand (.selector fun place hplace => ?_) hhas) (.hand (.on htoken rfl) hk₁)
        fun selected s₂ _ _ hk₂ => .hand (.on htoken rfl) hk₂
      have hmem := List.mem_map_of_mem (f := fun place => (s₁.node place).constant?) hplace
      rw [hplaces] at hmem
      obtain ⟨component, -, heq⟩ := List.mem_map.1 hmem
      exact ⟨component, heq.symm⟩

theorem subscript_ends (hself : Descends ts Handed self k) {base : NodeId} (hbase : s.Has base)
    {token : Token} (htoken : Consumed ts token) (hk : s.rest.length < k) :
    (subscript self base token).Ends ts s fun _ => k := by
  refine .shapeAt hbase (.check htoken.mem rfl fun _ => ?_)
  refine .bind (hself.does _ s) (hself.call _ hk) fun index s' hs hindex hk' => ?_
  refine .nodeAt hindex (.check htoken.mem rfl fun _ => ?_)
  split
  · exact .hand (.on htoken rfl) hk'
  · exact .check htoken.mem rfl fun _ => .hand (.on htoken rfl) hk'

/-! ## Calls -/

theorem argumentStep_ends {n : Nat} (hself : Descends ts Handed self n) (hn : s.rest.length < n)
    (args : List NodeId) :
    (argumentStep self args).Ends ts s (Ends.turnBound s.rest.length) := by
  refine .isAt fun closing _ => .ite (fun _ => .pure (Nat.lt_succ_self _)) fun _ => ?_
  refine .optional (.expects _ s) (fun _ => .expects _ (Nat.le_succ _)) (Nat.lt_succ_self _)
    fun s' _ hs' => ?_
  have harg : (self .assignment).Ends ts s' fun _ => s.rest.length :=
    (hself.ends _ (by omega)).weaken fun _ => by omega
  exact .bind (hself.does _ s') harg fun arg s'' _ _ hk => .pure hk

theorem arguments_ends (hself : Descends ts Handed self k) (hk : s.rest.length ≤ k) :
    (arguments self).Ends ts s fun _ => k := by
  refine .expect fun _ hnext => .current fun _ => .following ?_
  have hk₁ : s.next.rest.length < k := by omega
  refine .optional (.advances _) (fun hvoid => ?_) hk₁ fun s₁ _ hk₁ => ?_
  · rw [Bool.and_eq_true, beq_iff_eq] at hvoid
    exact .advances (by simp [hvoid.1]) (Nat.le_of_lt hk₁)
  · refine .bind (.loop _ (fun args s hargs => argumentStep_does hself.does hargs) has_nil)
      (.loop _ (fun args s hargs => argumentStep_does hself.does hargs)
        (fun args s₂ _ hle => argumentStep_ends hself (by omega) args) has_nil hk₁)
      fun args s₂ _ _ hk₂ => .expect fun _ hnext₂ => .pure (by omega)

theorem fieldComplaint?_isOrdinary {target : Shape} {position : Nat} {fields : List Field}
    {args : List Shape} {complaint : Complaint}
    (h : fieldComplaint? target position fields args = some complaint) :
    complaint.isOrdinary = true := by
  fun_induction fieldComplaint? target position fields args with
  | case1 _ _ _ _ _ _ ih => exact ih h
  | case2 =>
    cases h
    rfl
  | case3 => cases h

theorem laneComplaint?_isOrdinary {target : Shape} {position filled : Nat} {args : List Shape}
    {complaint : Complaint} (h : laneComplaint? target position filled args = some complaint) :
    complaint.isOrdinary = true := by
  fun_induction laneComplaint? target position filled args with
  | case1 => cases h
  | case2 =>
    cases h
    rfl
  | case3 =>
    cases h
    rfl
  | case4 _ _ _ _ _ _ ih => exact ih h

theorem constructorComplaint?_isOrdinary {target : Shape} {fields : List Field}
    {args : List Shape} {complaint : Complaint}
    (h : constructorComplaint? target fields args = some complaint) :
    complaint.isOrdinary = true := by
  unfold constructorComplaint? at h
  split at h
  · cases h
    rfl
  · split at h
    · split at h
      · cases h
        rfl
      · exact fieldComplaint?_isOrdinary h
    · split at h
      · cases h
        rfl
      · split at h
        · next hlane =>
          cases h
          exact laneComplaint?_isOrdinary hlane
        · split at h
          · cases h
          · split at h <;> cases h
            rfl

theorem constructorFields_ends {target : Shape} {name : String}
    (h : s.type? name = some target) (hk : s.rest.length < k) :
    (constructorFields target name).Ends ts s fun _ => k := by
  refine .ite (fun hstruct => .get (.found ?_ fun decl _ => .pure hk)) fun _ => .pure hk
  exact ParserState.struct?_of_type? h (by simpa using hstruct)

theorem call_ends (hself : Descends ts Handed self k) {token : Token}
    (htoken : Consumed ts token) (name : String) (hk : s.rest.length ≤ k) :
    (call self token name).Ends ts s fun _ => k := by
  refine .bind (arguments_does hself.does) (arguments_ends hself hk) fun args s₁ _ hargs hk₁ => ?_
  have hshapes : (args.mapM shapeAt).Does s₁ fun shapes s₂ =>
      shapes = args.map s₁.shape ∧ s₂ = s₁ := by
    rw [← bind_pure (args.mapM shapeAt)]
    exact .shapes (.pure ⟨rfl, rfl⟩)
  refine .bind hshapes (.shapes hargs hk₁) fun shapes s₂ _ hs₂ hk₂ => .get ?_
  obtain ⟨rfl, rfl⟩ := hs₂
  split
  · next target htarget =>
    refine .bind (constructorFields_does target name s₂) (constructorFields_ends htarget hk₂)
      fun fields s₃ _ _ hk₃ => ?_
    split
    · next complaint hcomplaint =>
      exact .failAt htoken.mem (constructorComplaint?_isOrdinary hcomplaint)
    · exact .hand (.on htoken rfl) hk₃
  · split
    · next fn hfn =>
      refine .check htoken.mem rfl fun hcount => .found ?_ fun shape _ => .hand (.on htoken rfl) hk₂
      simp only [Bool.or_eq_true, decide_eq_true_eq, not_or, Nat.not_lt] at hcount
      exact Builtin.function?_shape hfn (by simpa using hcount.1.1)
    · refine .ite (fun _ => ?_) fun _ => ?_
      · exact .check htoken.mem rfl fun _ => .failAt_bind htoken.mem rfl
      · simp only
        split
        · exact .failAt htoken.mem rfl
        · exact .hand (.on htoken rfl) hk₂

/-! ## Operands -/

theorem named_ends {token : Token} (htoken : Consumed ts token) (name : String)
    (hk : s.rest.length < k) : (named token name).Ends ts s fun _ => k := by
  refine .get ?_
  split
  · exact .hand (.still rfl) hk
  · split
    · exact .failAt htoken.mem rfl
    · split <;> exact .hand (.still rfl) hk

theorem literal_ends {token : Token} (htoken : Consumed ts token) (text : String)
    (hk : s.rest.length < k) : (literal token text).Ends ts s fun _ => k := by
  unfold literal
  split
  · exact .hand (.still rfl) hk
  · exact .failAt htoken.mem rfl
  · exact .failAt htoken.mem rfl

theorem primary_ends (hself : Descends ts Handed self k) (hk : s.rest.length ≤ k) :
    (primary self).Ends ts s fun _ => k := by
  refine .current fun _ => ?_
  have hliteral : ∀ text, s.front.lexeme ≠ .endOfInput →
      (advance >>= fun _ => literal s.front text).Ends ts s fun _ => k := fun text hend =>
    .advance hend fun htoken hnext => literal_ends htoken text (by omega)
  split
  · next hlexeme => exact hliteral _ (by simp [hlexeme])
  · next hlexeme => exact hliteral _ (by simp [hlexeme])
  · next hlexeme => exact hliteral _ (by simp [hlexeme])
  · next hlexeme => exact hliteral _ (by simp [hlexeme])
  · next hlexeme =>
    refine .advance (by simp [hlexeme]) fun _ hnext => ?_
    refine .bind (hself.does _ _) (hself.call _ (by omega)) fun inner s' _ _ hk' => ?_
    exact .expect fun _ hnext' => .pure (by omega)
  · next name hlexeme =>
    refine .advance (by simp [hlexeme]) fun htoken hnext => .isAt fun applied _ => ?_
    refine .ite (fun _ => ?_) fun _ => ?_
    · exact call_ends hself htoken name (by omega)
    · exact named_ends htoken name (by omega)
  · exact .fail rfl

theorem step_ends {op : Operator} {mark : Symbol} {operand : NodeId} (hoperand : s.Has operand)
    {start token : Token} (hstart : start ∈ ts) (htoken : Consumed ts token)
    (hk : s.rest.length < k) : (step op mark operand start token).Ends ts s fun _ => k := by
  refine checkTarget_ends hoperand hstart (.shapeAt hoperand ?_)
  exact .check htoken.mem rfl fun _ => .hand (.on htoken rfl) hk

theorem suffix_ends (hself : Descends ts Handed self s.rest.length) {start : Token}
    (hstart : start ∈ ts) {operand : NodeId} (hoperand : s.Has operand) :
    (suffix self start operand).Ends ts s (Ends.turnBound s.rest.length) := by
  refine .current fun _ => ?_
  have hnext : s.next.Has operand := hoperand
  have hselected : s.next.next.Has operand := hoperand
  split
  · next hlexeme =>
    refine .advance (by simp [hlexeme]) fun htoken hlt => ?_
    refine .bind (subscript_does hself.does hnext _) (subscript_ends hself hnext htoken hlt)
      fun node s' _ _ hk => ?_
    exact .expect fun _ hlt' => .pure (Nat.lt_trans hlt' hk)
  · next hlexeme =>
    refine .advance (by simp [hlexeme]) fun _ hlt => .expectName fun name _ htoken hlt' => ?_
    exact .bind (selector_does hselected _ _)
      (selector_ends hselected htoken name (Nat.lt_trans hlt' hlt)) fun node s' _ _ hk => .pure hk
  · next hlexeme =>
    refine .advance (by simp [hlexeme]) fun htoken hlt => ?_
    exact .bind (step_does (by simp) _ hnext _ _) (step_ends hnext hstart htoken hlt)
      fun node s' _ _ hk => .pure hk
  · next hlexeme =>
    refine .advance (by simp [hlexeme]) fun htoken hlt => ?_
    exact .bind (step_does (by simp) _ hnext _ _) (step_ends hnext hstart htoken hlt)
      fun node s' _ _ hk => .pure hk
  · exact .pure (Nat.lt_succ_self _)

theorem suffixed_ends (hself : Descends ts Handed self k) (hk : s.rest.length ≤ k) :
    (suffixed self).Ends ts s fun _ => k := by
  refine .current fun hstart => ?_
  refine .bind (primary_does hself.does) (primary_ends hself hk) fun operand s' _ hoperand hk' => ?_
  refine .loop Handed (fun operand s hoperand => suffix_does hself.does _ hoperand)
    (fun operand s'' hoperand hle => ?_) hoperand hk'
  exact suffix_ends (hself.mono (by omega)) hstart hoperand

theorem unary_ends (hself : Descends ts Handed self k) (hk : s.rest.length ≤ k) :
    (unary self).Ends ts s fun _ => k := by
  have hsign : ∀ {f : NodeId → Parser NodeId}, s.front.lexeme ≠ .endOfInput →
      (∀ operand s', Consumed ts s.front → s'.Has operand → s'.rest.length < k →
        (f operand).Ends ts s' fun _ => k) →
      (advance >>= fun _ => self .unary >>= f).Ends ts s fun _ => k := by
    intro f hend hf
    refine .advance hend fun htoken hnext => ?_
    exact .bind (hself.does _ _) (hself.call _ (by omega)) fun operand s' _ hoperand hk' =>
      hf operand s' htoken hoperand hk'
  have hstep : ∀ {op : Operator} {mark : Symbol}, s.front.lexeme ≠ .endOfInput →
      (advance >>= fun _ => current >>= fun start => self .unary >>= fun operand =>
        step op mark operand start s.front).Ends ts s fun _ => k := by
    intro op mark hend
    refine .advance hend fun htoken hnext => .current fun hstart => ?_
    exact .bind (hself.does _ _) (hself.call _ (by omega)) fun operand s' _ hoperand hk' =>
      step_ends hoperand hstart htoken hk'
  refine .current fun hfront => ?_
  split
  · next hlexeme =>
    refine hsign (by simp [hlexeme]) fun operand s' htoken hoperand hk' => ?_
    exact .shapeAt hoperand (.check htoken.mem rfl fun _ => .pure hk')
  · next hlexeme =>
    refine hsign (by simp [hlexeme]) fun operand s' htoken hoperand hk' => ?_
    refine .nodeAt hoperand (.check htoken.mem rfl fun _ => ?_)
    split
    · exact .hand (.still rfl) hk'
    · exact .hand (.on htoken rfl) hk'
  · next hlexeme =>
    refine hsign (by simp [hlexeme]) fun operand s' htoken hoperand hk' => ?_
    exact .shapeAt hoperand (.check htoken.mem rfl fun _ => .hand (.on htoken rfl) hk')
  · next hlexeme =>
    refine hsign (by simp [hlexeme]) fun operand s' htoken hoperand hk' => ?_
    exact .shapeAt hoperand (.check htoken.mem rfl fun _ => .hand (.on htoken rfl) hk')
  · next hlexeme => exact hstep (by simp [hlexeme])
  · next hlexeme => exact hstep (by simp [hlexeme])
  · exact suffixed_ends hself hk

/-! ## Operators -/

theorem binaryAt?_lexeme {token : Token} {x : Symbol × Nat × Operator}
    (h : binaryAt? token = some x) : token.lexeme ≠ .endOfInput := by
  intro hend
  simp [binaryAt?, hend] at h

theorem assignmentAt?_lexeme {token : Token} {x : Symbol × Operator}
    (h : assignmentAt? token = some x) : token.lexeme ≠ .endOfInput := by
  intro hend
  simp [assignmentAt?, hend] at h

theorem binaryStep_ends (hself : Descends ts Handed self s.rest.length) (least : Nat)
    {left : NodeId} (hleft : s.Has left) :
    (binaryStep self least left).Ends ts s (Ends.turnBound s.rest.length) := by
  refine .current fun _ => ?_
  split
  · exact .pure (Nat.lt_succ_self _)
  · next mark precedence op hop =>
    refine .ite (fun _ => .pure (Nat.lt_succ_self _)) fun _ => ?_
    refine .advance (binaryAt?_lexeme hop) fun htoken hlt => ?_
    refine .bind (hself.does _ _) (hself.call _ hlt) fun right s' hs hright hk => ?_
    have hleft' : s'.Has left := hs.grows.has hleft
    refine .shapeAt hleft' (.shapeAt hright ?_)
    split
    · exact .failAt htoken.mem rfl
    · exact .handAs (.on htoken rfl) fun _ => hk

theorem binary_ends (hself : Descends ts Handed self k) (least : Nat) (hk : s.rest.length ≤ k) :
    (binary self least).Ends ts s fun _ => k := by
  refine .bind (unary_does hself.does) (unary_ends hself hk) fun left s' _ hleft hk' => ?_
  refine .loop Handed (fun left s hleft => binaryStep_does hself.does least hleft)
    (fun left s'' hleft hle => ?_) hleft hk'
  exact binaryStep_ends (hself.mono (by omega)) least hleft

theorem conditional_ends (hself : Descends ts Handed self k) (hk : s.rest.length ≤ k) :
    (conditional self).Ends ts s fun _ => k := by
  refine .bind (binary_does hself.does 1) (binary_ends hself 1 hk)
    fun condition s₁ _ hcondition hk₁ => ?_
  refine .isAt fun question hquestion => .ite (fun _ => .pure hk₁) fun hasked => ?_
  have hmark : s₁.front.lexeme = .symbol .question := hquestion (by simpa using hasked)
  have hcondition' : s₁.next.Has condition := hcondition
  refine .advance (by simp [hmark]) fun htoken hlt₁ => ?_
  refine .shapeAt hcondition' (.check htoken.mem rfl fun _ => ?_)
  refine .bind (hself.does _ _) (hself.call _ (by omega)) fun yes s₂ hs₂ hyes hk₂ => ?_
  refine .expect fun hcolon hlt₂ => ?_
  refine .bind (hself.does _ _) (hself.call _ (by omega)) fun no s₃ hs₃ hno hk₃ => ?_
  have hyes' : s₃.Has yes := hs₃.grows.has hyes
  refine .shapeAt hyes' (.shapeAt hno ?_)
  split
  · exact .failAt hcolon.mem rfl
  · exact .hand (.still rfl) hk₃

theorem assignment_ends (hself : Descends ts Handed self k) (hk : s.rest.length ≤ k) :
    (assignment self).Ends ts s fun _ => k := by
  refine .current fun hstart => ?_
  refine .bind (conditional_does hself.does) (conditional_ends hself hk)
    fun left s₁ _ hleft hk₁ => .current fun _ => ?_
  split
  · exact .pure hk₁
  · next mark op hop =>
    have hleft' : s₁.next.Has left := hleft
    refine .advance (assignmentAt?_lexeme hop) fun htoken hlt => checkTarget_ends hleft' hstart ?_
    refine .bind (hself.does _ _) (hself.call _ (by omega)) fun right s₂ hs₂ hright hk₂ => ?_
    refine .shapeAt (hs₂.grows.has hleft') (.shapeAt hright ?_)
    simp only
    split
    · exact .check htoken.mem rfl fun _ => .hand (.on htoken rfl) hk₂
    · split
      · exact .failAt_bind htoken.mem rfl
      · exact .check htoken.mem rfl fun _ => .hand (.on htoken rfl) hk₂

theorem commaStep_ends (hself : Descends ts Handed self s.rest.length) (left : NodeId) :
    (commaStep self left).Ends ts s (Ends.turnBound s.rest.length) := by
  refine .isAt fun comma hcomma => .ite (fun _ => .pure (Nat.lt_succ_self _)) fun hmore => ?_
  have hmark : s.front.lexeme = .symbol .comma := hcomma (by simpa using hmore)
  refine .advance (by simp [hmark]) fun htoken hlt => ?_
  refine .bind (hself.does _ _) (hself.call _ hlt) fun right s' _ hright hk => ?_
  exact .shapeAt hright (.handAs (.on htoken rfl) fun _ => hk)

theorem expression_ends (hself : Descends ts Handed self k) (hk : s.rest.length ≤ k) :
    (expression self).Ends ts s fun _ => k := by
  refine .bind (assignment_does hself.does) (assignment_ends hself hk)
    fun first s' _ hfirst hk' => ?_
  refine .loop Handed (fun left s hleft => commaStep_does hself.does hleft)
    (fun left s'' _ hle => ?_) hfirst hk'
  exact commaStep_ends (hself.mono (by omega)) left

/-! ## The grammar -/

theorem rules_ends (hself : Descends ts Handed self k) (rule : Rule) (hk : s.rest.length ≤ k) :
    (rules self rule).Ends ts s fun _ => k := by
  cases rule with
  | expression => exact expression_ends hself hk
  | assignment => exact assignment_ends hself hk
  | unary => exact unary_ends hself hk
  | binary least => exact binary_ends hself least hk

theorem parse_ends (rule : Rule) (hk : s.rest.length ≤ k) : (parse rule).Ends ts s fun _ => k :=
  .knot (fun _ hself => rules_does hself)
    (fun _ s hself rule => rules_ends hself rule (Nat.le_refl s.rest.length)) rule hk

/-- Rules outside the grammar call it as often as they like. -/
theorem parse_descends (ts : List Token) (n : Nat) : Descends ts Handed parse n :=
  ⟨parse_does, fun rule s _ => parse_ends rule (Nat.le_refl s.rest.length)⟩

theorem parseConditional_ends (hk : s.rest.length ≤ k) : parseConditional.Ends ts s fun _ => k :=
  conditional_ends (parse_descends ts k) hk

end Expression

end ShaderCost
