import ShaderCost.Proofs.Grammar.Bodies
import ShaderCost.Proofs.Grammar.Signatures

/-! # The table of declared functions

The parser keeps a table of the functions declared so far. Nothing is ever removed from it: a step
adds an entry at its end, or marks entries as having a body (`Steps.headings_prefix`,
`Steps.defines`). No two entries agree in name and signature (`Steps.distinct`), so a function that
has a body does not get another one (`Definition.not_defines`).

Looking into the table is as good as looking through the headers read so far, for a header that is
read again finds an entry like itself (`Shader.headings_find?`).
-/

namespace ShaderCost

/-! ## Entries -/

/-- What an entry says apart from whether there is a body. -/
def FunctionDecl.bare (decl : FunctionDecl) : FunctionDecl := { decl with isDefined := false }

namespace ParserState

def headings (s : ParserState) : List FunctionDecl := s.functions.map FunctionDecl.bare

theorem headings_withBody (s : ParserState) (name signature : String) :
    (s.withBody name signature).headings = s.headings := by
  unfold headings withBody
  rw [List.map_map]
  refine List.map_congr_left fun d _ => ?_
  simp only [Function.comp_apply]
  split <;> rfl

theorem headings_addFunction (s : ParserState) (decl : FunctionDecl) :
    (s.addFunction decl).headings = s.headings ++ [decl.bare] := List.map_append

/-- The function has a body. -/
def Defines (s : ParserState) (name signature : String) : Prop :=
  ∃ d ∈ s.functions, d.name = name ∧ d.signature = signature ∧ d.isDefined = true

/-- No two entries agree in name and signature. -/
def Distinct (s : ParserState) : Prop :=
  (s.headings.map fun d => (d.name, d.signature)).Nodup

theorem Distinct.eq {s : ParserState} (h : s.Distinct) {d d' : FunctionDecl}
    (hd : d ∈ s.functions) (hd' : d' ∈ s.functions) (hname : d.name = d'.name)
    (hsignature : d.signature = d'.signature) : d = d' := by
  unfold Distinct headings at h
  rw [List.map_map] at h
  exact List.inj_on_of_nodup_map h hd hd' (Prod.ext hname hsignature)

theorem declared?_ne_none {s : ParserState} {d : FunctionDecl} {name signature : String}
    (hd : d ∈ s.functions) (hfields : d.name = name ∧ d.signature = signature) :
    s.declared? name signature ≠ none := by
  intro hnone
  have hother := List.find?_eq_none.1 (Option.map_eq_none_iff.1 hnone) d hd
  exact hother (by simp [hfields])

end ParserState

theorem Step.headings_cases {s s' : ParserState} (h : Step s s') :
    s'.headings = s.headings ∨ ∃ decl : FunctionDecl,
      s.declared? decl.name decl.signature = none ∧ s'.headings = s.headings ++ [decl.bare] := by
  cases h with
  | function hnew _ _ => exact Or.inr ⟨_, hnew, s.headings_addFunction _⟩
  | defined name signature => exact Or.inl (s.headings_withBody name signature)
  | _ => exact Or.inl rfl

theorem Steps.headings_prefix {s s' : ParserState} (h : Steps s s') :
    s.headings <+: s'.headings := by
  induction h with
  | refl => exact List.prefix_rfl
  | tail _ hstep ih =>
    rcases hstep.headings_cases with heq | ⟨decl, -, heq⟩
    · rwa [heq]
    · rw [heq]
      exact ih.trans (List.prefix_append _ _)

theorem Steps.distinct {s s' : ParserState} (h : Steps s s') (hs : s.Distinct) : s'.Distinct := by
  induction h with
  | refl => exact hs
  | @tail s₁ s₂ _ hstep ih =>
    unfold ParserState.Distinct
    rcases hstep.headings_cases with heq | ⟨decl, hnew, heq⟩
    · rw [heq]
      exact ih
    · rw [heq, List.map_append, List.nodup_append]
      refine ⟨ih, List.nodup_singleton _, fun key hkey key' hkey' hsame => ?_⟩
      rw [List.mem_singleton.1 hkey'] at hsame
      obtain ⟨_, hbare, rfl⟩ := List.mem_map.1 hkey
      obtain ⟨d, hd, rfl⟩ := List.mem_map.1 hbare
      exact ParserState.declared?_ne_none hd (Prod.ext_iff.1 hsame) hnew

theorem ParserState.Defines.withBody {s : ParserState} {name signature : String}
    (h : s.Defines name signature) (name' signature' : String) :
    (s.withBody name' signature').Defines name signature := by
  obtain ⟨d, hd, hname, hsignature, hdefined⟩ := h
  refine ⟨_, List.mem_map.2 ⟨d, hd, rfl⟩, ?_⟩
  split
  · exact ⟨hname, hsignature, rfl⟩
  · exact ⟨hname, hsignature, hdefined⟩

theorem Steps.defines {s s' : ParserState} {name signature : String} (h : Steps s s')
    (hs : s.Defines name signature) : s'.Defines name signature := by
  induction h with
  | refl => exact hs
  | tail _ hstep ih =>
    cases hstep with
    | function _ _ _ =>
      obtain ⟨d, hd, hfields⟩ := ih
      exact ⟨d, List.mem_append_left _ hd, hfields⟩
    | defined name' signature' => exact ih.withBody name' signature'
    | _ => exact ih

/-! ## Runs and headers -/

theorem Runs.headings_eq {s s' : ParserState} {held : List NodeId} (h : Runs s s' held) :
    s'.headings = s.headings := congrArg (List.map FunctionDecl.bare) h.moves.functions_eq

/-- During a run below the top level the table stays as it is. -/
theorem Runs.headings_during {a b c : ParserState} {held : List NodeId} (h : Runs a b held)
    (hac : Steps a c) (hcb : Steps c b) : c.headings = a.headings := by
  have hprefix := hcb.headings_prefix
  rw [h.headings_eq] at hprefix
  exact hprefix.eq_of_length_le hac.headings_prefix.length_le

theorem Shader.Declares.mem {s s' : ParserState} {header decl : FunctionDecl}
    (h : Declares s header decl s') : decl ∈ s'.functions := by
  cases h with
  | again hdecl _ _ _ => exact hdecl
  | first _ => exact List.mem_append_right _ (List.mem_singleton_self _)

namespace Definition

variable {s s₁ s₂ : ParserState} {header : FunctionDecl} {n : Node}

/-- Afterwards the function has a body. -/
theorem defines (h : Definition s header s₁ s₂ n) :
    (s₂.push n).closed.Defines header.name header.signature := by
  obtain ⟨decl, ⟨hrun, -, -, hdeclares⟩, -⟩ := h.head
  obtain ⟨list, body, hbody, -⟩ := h.body
  obtain ⟨hname, hsignature⟩ := hdeclares.name_eq
  have hmarked : (s₁.withBody header.name header.signature).Defines header.name
      header.signature := by
    refine ⟨_, List.mem_map.2 ⟨decl, hdeclares.mem, rfl⟩, ?_⟩
    rw [if_pos (by simp [hname, hsignature])]
    exact ⟨hname, hsignature, rfl⟩
  exact hbody.steps.defines hmarked

/-- Before, it has none. -/
theorem not_defines (h : Definition s header s₁ s₂ n) (hs : s.Distinct) :
    ¬ s.Defines header.name header.signature := by
  intro hdefines
  obtain ⟨decl, ⟨hrun, -, -, hdeclares⟩, hundefined⟩ := h.head
  obtain ⟨d, hd, hname, hsignature, hdefined⟩ := hrun.steps.defines hdefines
  cases hdeclares with
  | again hdecl hname' hsignature' _ =>
    have hsame := (hrun.steps.distinct hs).eq hd hdecl (hname.trans hname'.symm)
      (hsignature.trans hsignature'.symm)
    rw [← hsame, hdefined] at hundefined
    cases hundefined
  | first hnew =>
    exact ParserState.declared?_ne_none hd ⟨hname, hsignature⟩ hnew

end Definition

/-! ## Headers as a table -/

/-- The names of structures are words, other than the names of built-in types. -/
def ParserState.StructsNamed (s : ParserState) : Prop :=
  ∀ decl ∈ s.structs, IsIdentifier decl.name ∧ Builtin.type? decl.name = none

theorem ParserState.IsType.isWritten {s : ParserState} {shape : Shape} (h : s.IsType shape)
    (hs : s.StructsNamed) : shape.IsWritten := by
  induction h with
  | builtin h => exact .builtin h
  | struct h => exact .struct (hs _ h).1 (hs _ h).2
  | array _ hsingle hpos ih => exact .array ih hsingle hpos

/-- A header with parameters that can be written. -/
structure FunctionDecl.IsHeader (d : FunctionDecl) : Prop where
  heading : d = Shader.heading d.name d.params d.result
  written : ∀ p ∈ d.params, p.IsWritten

/-- Headers with the same name, signature and result are the same. -/
theorem FunctionDecl.IsHeader.eq {d d' : FunctionDecl} (h : d.IsHeader) (h' : d'.IsHeader)
    (hname : d.name = d'.name) (hsignature : d.signature = d'.signature)
    (hresult : d.result = d'.result) : d = d' := by
  have htext : ∀ {d : FunctionDecl}, d.IsHeader → d.signature = signatureOf d.name d.params :=
    fun h => congrArg FunctionDecl.signature h.heading
  have hparams : d.params = d'.params := by
    rw [htext h, htext h', hname] at hsignature
    exact params_eq_of_signatureOf_eq h.written h'.written hsignature
  rw [h.heading, h'.heading, hname, hparams, hresult]

theorem Heads.isHeader {s s' : ParserState} {header decl : FunctionDecl}
    (h : Heads s header decl s') (hs' : s'.StructsNamed) : header.IsHeader := by
  obtain ⟨hrun, hheading, htyped, hdeclares⟩ := h
  refine ⟨hheading, fun p hp => (htyped p hp).isWritten ?_⟩
  cases hdeclares with
  | again _ _ _ _ => exact hs'
  | first _ => exact hs'

/-- What reading a header does to a table. -/
def FunctionDecl.Enters (header : FunctionDecl) (table table' : List FunctionDecl) : Prop :=
  (table' = table ∧ ∃ decl ∈ table, decl.name = header.name ∧
    decl.signature = header.signature ∧ decl.result = header.result) ∨ table' = table ++ [header]

theorem Heads.enters {s s' : ParserState} {header decl : FunctionDecl}
    (h : Heads s header decl s') : header.Enters s.headings s'.headings := by
  obtain ⟨hrun, hheading, -, hdeclares⟩ := h
  rw [← hrun.headings_eq]
  cases hdeclares with
  | again hdecl hname hsignature hresult =>
    exact Or.inl ⟨rfl, decl.bare, List.mem_map.2 ⟨decl, hdecl, rfl⟩, hname, hsignature, hresult⟩
  | first _ =>
    have hbare : header.bare = header := by
      rw [hheading]
      rfl
    refine Or.inr ?_
    rw [ParserState.headings_addFunction, hbare]

/-- What an item does to the table. -/
theorem Item.headings_cases {s s' : ParserState} {d : Option FunctionDecl} {x : Option NodeId}
    (h : Item s d x s') (hs' : s'.StructsNamed) :
    (d = none ∧ s'.headings = s.headings) ∨
      ∃ header, d = some header ∧ header.IsHeader ∧ header.Enters s.headings s'.headings := by
  cases h with
  | plain hrun => exact Or.inl ⟨rfl, hrun.headings_eq⟩
  | prototype hhead hend =>
    refine Or.inr ⟨_, rfl, hhead.isHeader fun decl hdecl => ?_, ?_⟩
    · exact hs' decl (hend.steps.grows.structs hdecl)
    · rw [hend.headings_eq]
      exact hhead.enters
  | @definition header s₁ s₂ n h =>
    obtain ⟨⟨decl, hhead, -⟩, ⟨list, body, hbody, -⟩, -, -, -⟩ := h
    refine Or.inr ⟨header, rfl, hhead.isHeader fun decl hdecl => ?_, ?_⟩
    · exact hs' decl (hbody.steps.grows.structs hdecl)
    · have heq : (s₂.push n).closed.headings = s₁.headings :=
        hbody.headings_eq.trans (s₁.headings_withBody _ _)
      rw [heq]
      exact hhead.enters

/-- A look through the headers of the first items finds what the table holds after them. -/
theorem Shader.headings_find? {tokens : List Token} {k : Nat} {s : ParserState}
    (hs : stateAt tokens k = some s) (hnamed : s.StructsNamed) :
    (∀ d ∈ headers tokens k, d.IsHeader) ∧
      ∀ p : FunctionDecl → Bool, s.headings.find? p = (headers tokens k).find? p := by
  induction k generalizing s with
  | zero =>
    cases hs
    refine ⟨fun d hd => ?_, fun p => rfl⟩
    cases hd
  | succ k ih =>
    obtain ⟨a, d, x, hat⟩ := itemAt_of_stateAt hs
    have ha : a.StructsNamed := fun decl hdecl => hnamed decl (hat.steps.grows.structs hdecl)
    obtain ⟨hheaders, hfind⟩ := ih hat.before ha
    rw [headers_succ, hat.header_eq]
    rcases hat.item.headings_cases hnamed with ⟨rfl, heq⟩ | ⟨header, rfl, hheader, hcases⟩
    · rw [Option.toList_none, List.append_nil, heq]
      exact ⟨hheaders, hfind⟩
    rw [Option.toList_some]
    refine ⟨fun d hd => ?_, fun p => ?_⟩
    · rcases List.mem_append.1 hd with hd | hd
      · exact hheaders d hd
      · rw [List.mem_singleton.1 hd]
        exact hheader
    rw [List.find?_append]
    rcases hcases with ⟨heq, decl, hdecl, hname, hsignature, hresult⟩ | heq
    · rw [heq, hfind]
      -- the entry is itself a header that was read before
      have hmem : decl ∈ headers tokens k := by
        have hfound : ((headers tokens k).find? (· == decl)).isSome := by
          rw [← hfind, List.find?_isSome]
          exact ⟨decl, hdecl, beq_self_eq_true decl⟩
        obtain ⟨d, hd, hsame⟩ := List.find?_isSome.1 hfound
        rwa [← eq_of_beq hsame]
      obtain rfl := (hheaders decl hmem).eq hheader hname hsignature hresult
      cases hnone : (headers tokens k).find? p with
      | some _ => rfl
      | none =>
        have hnot := List.find?_eq_none.1 hnone decl hmem
        rw [Option.none_or, List.find?_cons_of_neg hnot, List.find?_nil]
    · rw [heq, List.find?_append, hfind]

/-! ## The items of a source -/

theorem Steps.structs_new {s s' : ParserState} (h : Steps s s')
    (hs : ∀ decl ∈ s.structs, Builtin.type? decl.name = none) :
    ∀ decl ∈ s'.structs, Builtin.type? decl.name = none := by
  induction h with
  | refl => exact hs
  | tail _ hstep ih =>
    cases hstep with
    | struct hname _ =>
      intro decl hdecl
      rcases List.mem_cons.1 hdecl with rfl | hdecl
      · exact hname
      · exact ih decl hdecl
    | _ => exact ih

theorem ParserState.Sourced.structsNamed {source : Bytes} {s : ParserState}
    (hs : s.Sourced (tokenize source)) (hsteps : Steps { rest := tokenize source } s) :
    s.StructsNamed := by
  intro decl hdecl
  obtain ⟨token, htoken, hlexeme⟩ := hs.2.2 decl hdecl
  refine ⟨tokenize_isIdentifier htoken.mem hlexeme, hsteps.structs_new ?_ decl hdecl⟩
  intro decl hdecl
  cases hdecl

theorem Tree.ofSource_items {source : Bytes} {t : Tree} (h : Tree.ofSource source = .ok t) :
    ∃ k items s, Items (tokenize source) k items s ∧ t.Comprises items s ∧ s.StructsNamed := by
  have hend := Shader.shader_ending source
  obtain ⟨root, s, hrun, rfl, hsteps⟩ := Tree.ofTokens_steps h
  rw [StateT.run] at hrun
  rw [hrun] at hend
  have hsourced : s.Sourced (tokenize source) := hend.1 (.start _ _)
  obtain ⟨k, items, s₁, hitems, hstructs, hcomprises⟩ := Shader.shader_comprises hrun
  refine ⟨k, items, s₁, hitems, hcomprises, fun decl hdecl => ?_⟩
  exact hsourced.structsNamed hsteps decl (hstructs ▸ hdecl)

/-- All nodes but the sequences at the top are made by an item, and what it leaves is reached. -/
theorem Tree.item_of_ne_sequence {source : Bytes} {t : Tree} (h : Tree.ofSource source = .ok t)
    {id : NodeId} (hid : id < t.size) (hkind : (t.node id).kind ≠ .sequence) :
    ∃ k a d x b, ItemAt (tokenize source) k a d x b ∧ ¬ a.Has id ∧ b.Has id ∧ t.Includes b ∧
      b.StructsNamed ∧ ∀ item ∈ x, t.Reachable item := by
  obtain ⟨count, items, s, hitems, hcomprises, hnamed⟩ := Tree.ofSource_items h
  obtain ⟨k, a, d, x, b, hat, hnew, hhas, hsteps, hkept⟩ := hitems.locate (hcomprises.has hid hkind)
  exact ⟨k, a, d, x, b, hat, hnew, hhas, hcomprises.toIncludes.before hsteps.grows,
    fun decl hdecl => hnamed decl (hsteps.grows.structs hdecl),
    fun item hitem => hcomprises.reachable item (hkept item hitem)⟩

theorem Steps.params_typed {s s' : ParserState} (h : Steps s s')
    (hs : ∀ decl ∈ s.functions, ∀ p ∈ decl.params, s.IsType p) :
    ∀ decl ∈ s'.functions, ∀ p ∈ decl.params, s'.IsType p := by
  induction h with
  | refl => exact hs
  | @tail s₁ s₂ _ hstep ih =>
    have hkept : ∀ decl ∈ s₁.functions, ∀ p ∈ decl.params, s₂.IsType p := fun decl hdecl p hp =>
      hstep.grows.isType (ih decl hdecl p hp)
    have hgrows := hstep.grows
    cases hstep with
    | function _ hparams _ =>
      intro decl hdecl p hp
      rcases List.mem_append.1 hdecl with hdecl | hdecl
      · exact hkept decl hdecl p hp
      · rw [List.mem_singleton.1 hdecl] at hp
        exact hgrows.isType (hparams p hp)
    | defined _ _ =>
      intro decl hdecl p hp
      obtain ⟨d, hd, rfl⟩ := List.mem_map.1 hdecl
      refine hkept d hd p ?_
      split at hp
      · exact hp
      · exact hp
    | _ => exact hkept

/-- Definitions and calls have the signature of their name and of parameters that can be written. -/
theorem Tree.reference_signature {source : Bytes} {t : Tree} (h : Tree.ofSource source = .ok t)
    {id : NodeId} (hid : id < t.size) (href : (t.node id).isReference = true) :
    IsIdentifier (t.node id).name ∧ ∃ params : List Shape, (∀ p ∈ params, p.IsWritten) ∧
      (t.node id).signature = signatureOf (t.node id).name params := by
  obtain ⟨s, hsteps, hsourced, decl, hdecl, hname, hsignature⟩ :=
    Tree.declared_of_reference h hid href
  obtain ⟨⟨token, htoken, hlexeme⟩, htext⟩ := hsourced.2.1 decl hdecl
  rw [← hname, ← hsignature]
  refine ⟨tokenize_isIdentifier htoken.mem hlexeme, decl.params, fun p hp => ?_, htext⟩
  have htyped := hsteps.params_typed (fun decl hdecl => by cases hdecl) decl hdecl p hp
  exact htyped.isWritten (hsourced.structsNamed hsteps)

end ShaderCost
