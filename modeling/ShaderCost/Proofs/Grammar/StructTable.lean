import Mathlib.Data.List.Infix
import Mathlib.Data.List.Perm.Subperm
import ShaderCost.Proofs.Grammar.RecordedShapes

/-! # The table of structures

A structure is entered into the table when its fields are complete, so the structures of its fields
were entered before (`Steps.founded`). While no name is entered twice, no structure contains itself
(`Founded.acyclic`).

Nothing but the definition of a structure changes the table. `Registers` is what every run does to
it: each entry takes a name that stands behind the keyword among the tokens consumed, and a name
that is entered again contains itself. The second is the whole of what is known then, for the name
of a structure is looked up when its definition begins and taken when it ends.
-/

namespace ShaderCost

open Relation (TransGen ReflTransGen)

/-! ## Containment -/

/-- The shape is the structure of that name or an array of it. -/
def Shape.IsOf (shape : Shape) (name : String) : Prop :=
  shape.basic = .struct ∧ shape.typeName = name

/-- A structure of the table has a field of another one. -/
def Contains (table : List StructDecl) (outer inner : String) : Prop :=
  ∃ decl ∈ table, decl.name = outer ∧ ∃ field ∈ decl.fields, field.shape.IsOf inner

theorem Contains.mono {table table' : List StructDecl} (h : table ⊆ table') {outer inner : String} :
    Contains table outer inner → Contains table' outer inner :=
  fun ⟨decl, hdecl, hfield⟩ => ⟨decl, h hdecl, hfield⟩

/-- The structures of the fields were entered before. -/
def Founded (table : List StructDecl) : Prop :=
  ∀ decl before, decl :: before <:+ table → ∀ field ∈ decl.fields, ∀ inner,
    field.shape.IsOf inner → inner ∈ before.map (·.name)

/-- A name that is entered again contains itself. -/
def Looped (table : List StructDecl) : Prop :=
  ∀ decl before, decl :: before <:+ table → decl.name ∈ before.map (·.name) →
    TransGen (Contains table) decl.name decl.name

namespace Founded

variable {decl : StructDecl} {table : List StructDecl}

theorem tail (h : Founded (decl :: table)) : Founded table :=
  fun d before hd => h d before (hd.trans (List.suffix_cons decl table))

/-- The structure that was entered last is in none of those before, and they are not changed. -/
theorem contains_before (h : Founded (decl :: table)) {outer inner : String}
    (hcontains : Contains (decl :: table) outer inner) : inner ∈ table.map (·.name) := by
  obtain ⟨d, hd, -, field, hfield, hinner⟩ := hcontains
  rcases List.mem_cons.1 hd with rfl | hd
  · exact h d table List.suffix_rfl field hfield inner hinner
  · obtain ⟨after, before, rfl⟩ := List.append_of_mem hd
    have hbefore := h d before ((List.suffix_append after _).trans (List.suffix_cons _ _)) field
      hfield inner hinner
    rw [List.map_append, List.map_cons]
    exact List.mem_append_right _ (List.mem_cons_of_mem _ hbefore)

theorem contains_of_mem (hfresh : decl.name ∉ table.map (·.name)) {outer inner : String}
    (houter : outer ∈ table.map (·.name)) (hcontains : Contains (decl :: table) outer inner) :
    Contains table outer inner := by
  obtain ⟨d, hd, hname, hfield⟩ := hcontains
  rcases List.mem_cons.1 hd with rfl | hd
  · exact absurd (hname ▸ houter) hfresh
  · exact ⟨d, hd, hname, hfield⟩

/-- Without repetitions the table is a list of layers. -/
theorem acyclic {table : List StructDecl} (h : Founded table)
    (hnames : (table.map (·.name)).Nodup) (name : String) :
    ¬ TransGen (Contains table) name name := by
  induction table with
  | nil =>
    intro hcycle
    obtain ⟨_, ⟨decl, hdecl, -⟩, -⟩ := TransGen.head'_iff.1 hcycle
    cases hdecl
  | cons decl table ih =>
    rw [List.map_cons, List.nodup_cons] at hnames
    obtain ⟨hfresh, hnames⟩ := hnames
    have hbelow : ∀ {a b}, TransGen (Contains (decl :: table)) a b →
        a ∈ table.map (·.name) → TransGen (Contains table) a b := by
      intro a b hab ha
      induction hab with
      | single hcontains => exact .single (contains_of_mem hfresh ha hcontains)
      | tail hab hcontains ih =>
        obtain ⟨_, -, hlast⟩ := TransGen.tail'_iff.1 hab
        exact .tail ih (contains_of_mem hfresh (h.contains_before hlast) hcontains)
    intro hcycle
    obtain ⟨_, -, hlast⟩ := TransGen.tail'_iff.1 hcycle
    exact ih h.tail hnames (hbelow hcycle (h.contains_before hlast))

end Founded

theorem Step.founded {s s' : ParserState} (h : Step s s') (hs : Founded s.structs) :
    Founded s'.structs := by
  cases h with
  | struct _ hfields =>
    intro d before hsuffix field hfield inner hinner
    rcases List.suffix_cons_iff.1 hsuffix with heq | hsuffix
    · obtain ⟨rfl, rfl⟩ := List.cons.inj heq
      obtain ⟨decl', hdecl', hname⟩ := (hfields field hfield).knows hinner.1
      exact List.mem_map.2 ⟨decl', hdecl', hname.trans hinner.2⟩
    · exact hs d before hsuffix field hfield inner hinner
  | _ => exact hs

theorem Steps.founded {s s' : ParserState} (h : Steps s s') (hs : Founded s.structs) :
    Founded s'.structs := by
  induction h with
  | refl => exact hs
  | tail _ hstep ih => exact hstep.founded ih

/-- Without cycles no name is entered twice. -/
theorem Looped.nodup {table : List StructDecl} (h : Looped table)
    (hacyclic : ∀ name, ¬ TransGen (Contains table) name name) :
    (table.map (·.name)).Nodup := by
  have hsuffixes : ∀ {before}, before <:+ table → (before.map (·.name)).Nodup := by
    intro before hbefore
    induction before with
    | nil => exact List.nodup_nil
    | cons decl before ih =>
      rw [List.map_cons, List.nodup_cons]
      refine ⟨fun hagain => hacyclic _ (h decl before hbefore hagain), ?_⟩
      exact ih ((List.suffix_cons decl before).trans hbefore)
  exact hsuffixes List.suffix_rfl

/-! ## Names behind the keyword -/

/-- The name that the structure beginning at a token has, if one begins there. -/
def Token.structName? (token next : Token) : Option String :=
  match token.lexeme, next.lexeme with
  | .keyword .struct, .name name => some name
  | _, _ => none

/-- The names that stand behind the keyword of a structure. -/
def structNames : List Token → List String
  | [] => []
  | token :: rest => (token.structName? (rest.headD .nowhere)).toList ++ structNames rest

theorem structNames_append (front back : List Token) :
    (structNames front ++ structNames back).Sublist (structNames (front ++ back)) := by
  induction front with
  | nil => exact List.Sublist.refl _
  | cons token front ih =>
    rw [List.cons_append, structNames, structNames, List.append_assoc]
    cases front with
    | nil =>
      -- the last token of the front may begin a structure only with the back behind it
      have hnone : token.structName? Token.nowhere = none := by
        unfold Token.structName?
        split
        · next hnowhere => cases hnowhere
        · rfl
      rw [List.headD_nil, hnone]
      exact ih.trans (List.sublist_append_right _ _)
    | cons next front => exact List.Sublist.append (List.Sublist.refl _) ih

/-! ## What a run does to the table -/

/-- The entries made between two states. -/
structure Registers (s s' : ParserState) : Prop where
  names : ∃ passed new, passed ++ s'.rest = s.rest ∧ s'.structs = new ++ s.structs ∧
    (new.map (·.name)).Subperm (structNames passed)
  looped : Looped s.structs → Looped s'.structs

namespace Registers

variable {s s' s'' : ParserState}

theorem rest (h : Registers s s') : s'.rest <:+ s.rest := by
  obtain ⟨passed, _, hpassed, -⟩ := h.names
  exact ⟨passed, hpassed⟩

theorem of_eq (hrest : s'.rest <:+ s.rest) (hstructs : s'.structs = s.structs) :
    Registers s s' := by
  obtain ⟨passed, hpassed⟩ := hrest
  refine ⟨⟨passed, [], hpassed, hstructs, List.nil_subperm⟩, fun h => ?_⟩
  rwa [hstructs]

theorem trans (h : Registers s s') (h' : Registers s' s'') : Registers s s'' := by
  obtain ⟨passed, new, hpassed, hnew, hnames⟩ := h.names
  obtain ⟨passed', new', hpassed', hnew', hnames'⟩ := h'.names
  refine ⟨⟨passed ++ passed', new' ++ new, ?_, ?_, ?_⟩, fun hs => h'.looped (h.looped hs)⟩
  · rw [List.append_assoc, hpassed', hpassed]
  · rw [hnew', hnew, List.append_assoc]
  · rw [List.map_append]
    refine (List.perm_append_comm.subperm.trans (hnames.append hnames')).trans ?_
    exact (structNames_append passed passed').subperm

end Registers

/-- Every structure entered since `s` is the one of the shape or is contained in it. -/
def Covers (s : ParserState) (shape : Shape) (s' : ParserState) : Prop :=
  ∀ decl ∈ s'.structs, decl ∈ s.structs ∨
    ∃ name, shape.IsOf name ∧ ReflTransGen (Contains s'.structs) name decl.name

/-- Every structure entered since `s` is one of a field or is contained in one. -/
def FieldsCover (s : ParserState) (fields : List Field) (s' : ParserState) : Prop :=
  ∀ decl ∈ s'.structs, decl ∈ s.structs ∨ ∃ field ∈ fields, ∃ name, field.shape.IsOf name ∧
    ReflTransGen (Contains s'.structs) name decl.name

theorem FieldsCover.reaches {s s' : ParserState} {fields : List Field}
    (h : FieldsCover s fields s') (name : String) {decl : StructDecl} (hdecl : decl ∈ s'.structs)
    (hnew : decl ∉ s.structs) :
    TransGen (Contains ({ name, fields } :: s'.structs)) name decl.name := by
  obtain hold | ⟨field, hfield, inner, hinner, hreach⟩ := h decl hdecl
  · exact absurd hold hnew
  · refine .head' ⟨_, List.mem_cons_self, rfl, field, hfield, hinner⟩ ?_
    exact ReflTransGen.mono (fun _ _ h => h.mono (List.subset_cons_self _ _)) _ _ hreach

/-- The definition of a structure, from behind its name to its entry. -/
theorem Registers.struct {start s s' : ParserState} {name : String} {fields : List Field}
    (hnames : ∃ passed, passed ++ s.rest = start.rest ∧ name ∈ structNames passed)
    (hstructs : s.structs = start.structs) (hfresh : name ∉ start.structs.map (·.name))
    (h : Registers s s') (hcover : FieldsCover start fields s') :
    Registers start (s'.addStruct { name, fields }) ∧
      Covers start (.ofStruct name) (s'.addStruct { name, fields }) := by
  obtain ⟨passed, hpassed, hname⟩ := hnames
  obtain ⟨passed', new, hpassed', hnew, hnames'⟩ := h.names
  refine ⟨⟨⟨passed ++ passed', { name, fields } :: new, ?_, ?_, ?_⟩, fun hlooped => ?_⟩, ?_⟩
  · rw [List.append_assoc]
    change passed ++ (passed' ++ s'.rest) = start.rest
    rw [hpassed', hpassed]
  · change { name, fields } :: s'.structs = _
    rw [hnew, hstructs]
    rfl
  · rw [List.map_cons]
    have hboth : ([name] ++ new.map (·.name)).Subperm (structNames passed ++ structNames passed') :=
      (List.singleton_subperm_iff.2 hname).append hnames'
    exact hboth.trans (structNames_append passed passed').subperm
  · intro decl before hsuffix hagain
    rcases List.suffix_cons_iff.1 hsuffix with heq | hsuffix
    · -- the entry that was made inside the fields is not one of those before
      obtain ⟨rfl, rfl⟩ := List.cons.inj heq
      obtain ⟨inner, hinner, hsame⟩ := List.mem_map.1 hagain
      have houtside : inner ∉ start.structs := fun hold =>
        hfresh (List.mem_map.2 ⟨inner, hold, hsame⟩)
      have hreach := hcover.reaches name hinner houtside
      rwa [hsame] at hreach
    · have hlooped' := h.looped (hstructs ▸ hlooped) decl before hsuffix hagain
      exact TransGen.mono (fun _ _ h => h.mono (List.subset_cons_self _ _)) _ _ hlooped'
  · intro decl hdecl
    by_cases hold : decl ∈ start.structs
    · exact Or.inl hold
    · refine Or.inr ⟨name, ⟨rfl, rfl⟩, ?_⟩
      rcases List.mem_cons.1 hdecl with rfl | hdecl
      · exact .refl
      · exact (hcover.reaches _ hdecl hold).to_reflTransGen

end ShaderCost
