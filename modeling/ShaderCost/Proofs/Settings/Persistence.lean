import ShaderCost.Proofs.Files.Writing
import ShaderCost.Proofs.Text.Utf8
import ShaderCost.Proofs.Yaml.Numbers
import ShaderCost.Settings.Store

/-! # Settings survive saving

A field of a document gives a value whatever it is laid over (`Sets`), but for the two texts that are
left out when they are empty: they give the old value, which the defaults have empty too. So the
document of settings gives the settings again (`sets_settings`), with empty lists for those that are
gone.

How documents are laid out is not looked at here: `Yaml.ReadsBack` says of a document that its text is
read as the document. A file holds the text that was written to it, so valid settings whose document
reads back are loaded as they were saved (`load_of_save`).
-/

namespace ShaderCost

open Yaml (View Entries)

/-! ## Fields of a record -/

/-- A key that is read as its text. -/
structure IsFieldName (key : String) : Prop where
  meaning_eq : Yaml.meaning key = .text
  ne_merge : key ≠ "<<"

/-- The keys of settings files. -/
def fieldNames : List String :=
  ["version", "project_name", "analysis", "output", "files", "loop_nesting", "function_identity",
    "recursion", "max_workers", "heat_thresholds", "warm", "hot", "critical", "format", "colors",
    "verbose", "show_functions", "top_lines", "output_file", "extensions", "exclude", "max_file_size"]

theorem isFieldName_of_mem {key : String} (h : key ∈ fieldNames) : IsFieldName key := by
  have hall : ∀ key ∈ fieldNames, Yaml.meaning key = .text ∧ key ≠ "<<" := by decide +kernel
  obtain ⟨hmeaning, hmerge⟩ := hall key h
  exact ⟨hmeaning, hmerge⟩

/-- The keys of a record are those of settings files, each at most once. -/
structure WellNamed (fields : List (String × Yaml)) : Prop where
  names : ∀ field ∈ fields, IsFieldName field.1
  nodup : (fields.map (·.1)).Nodup

theorem WellNamed.of_sublist {fields : List (String × Yaml)} (names : List String)
    (h : (fields.map (·.1)).Sublist names) (hnames : ∀ key ∈ names, key ∈ fieldNames)
    (hnodup : names.Nodup) : WellNamed fields :=
  ⟨fun field hfield =>
      isFieldName_of_mem (hnames _ (h.subset (List.mem_map.2 ⟨field, hfield, rfl⟩))),
    hnodup.sublist h⟩

namespace Yaml

theorem Scalar.meaning?_untagged (style : ScalarStyle) (text : String) :
    meaning? { style, text } = some (if style == .plain then meaning text else .text) := rfl

theorem View.settle_scalar {v : View} {s : Scalar} (hv : v.value = .scalar s) : v.settle = some v := by
  unfold settle
  rw [hv]

theorem View.text?_scalar {v : View} {s : Scalar} (hv : v.value = .scalar s)
    (hmeaning : s.meaning? = some .text) (htag : s.tag = none) : v.text? = some (some s.text) := by
  unfold text?
  simp only [settle_scalar hv, bind, Option.bind, hv, hmeaning, Scalar.content?, htag]
  rfl

/-- The values of a record by their keys. -/
def View.children (v : View) (fields : List (String × Yaml)) : Entries :=
  fields.map fun field => (field.1, v.child field.2)

/-- The entries of a record. -/
def entriesOf (fields : List (String × Yaml)) : List (Yaml × Yaml) :=
  fields.map fun field => (scalar { text := field.1 }, field.2)

theorem record_eq (fields : List (String × Yaml)) : record fields = mapping (entriesOf fields) := rfl

section Record

variable {v : View} {fields : List (String × Yaml)}

theorem View.distinctKeys_record (h : (fields.map (·.1)).Nodup) :
    distinctKeys (entriesOf fields) = true := by
  induction fields with
  | nil => rfl
  | cons field fields ih =>
    obtain ⟨hnew, hrest⟩ := List.nodup_cons.1 h
    rw [entriesOf, List.map_cons, distinctKeys, Bool.and_eq_true, Bool.not_eq_true']
    refine ⟨List.any_eq_false.2 fun entry hentry => ?_, ih hrest⟩
    obtain ⟨other, hmem, rfl⟩ := List.mem_map.1 hentry
    simp only [sameKey, beq_iff_eq]
    exact fun heq => hnew (List.mem_map.2 ⟨other, hmem, heq.symm⟩)

theorem View.isMergeKey_of_ne {key : String} (h : key ≠ "<<") :
    isMergeKey (scalar { text := key }) = false := by
  simp [isMergeKey, h]

theorem View.ownEntries_record (h : ∀ field ∈ fields, IsFieldName field.1) :
    v.ownEntries (entriesOf fields) = some (v.children fields) := by
  induction fields with
  | nil => rfl
  | cons field fields ih =>
    obtain ⟨hmeaning, hmerge⟩ := h field List.mem_cons_self
    have hplain : Scalar.meaning? { text := field.1 } = some .text := by
      rw [Scalar.meaning?_untagged, hmeaning]
      rfl
    have hname : (v.child (scalar { text := field.1 })).text? = some (some field.1) :=
      text?_scalar rfl hplain rfl
    have hothers := ih fun f hf => h f (List.mem_cons_of_mem _ hf)
    rw [entriesOf] at hothers ⊢
    rw [List.map_cons, ownEntries, isMergeKey_of_ne hmerge]
    simp only [Bool.false_eq_true, if_false, hname, hothers]
    rfl

theorem View.entries?_record (h : WellNamed fields) :
    v.entries? (entriesOf fields) = some (v.children fields) := by
  have hmerge : v.mergeOf (entriesOf fields) = none := by
    unfold mergeOf
    rw [List.find?_eq_none.2, Option.map_none]
    intro entry hentry
    obtain ⟨field, hmem, rfl⟩ := List.mem_map.1 hentry
    rw [isMergeKey_of_ne (h.names field hmem).ne_merge]
    exact Bool.false_ne_true
  unfold entries?
  rw [distinctKeys_record h.nodup, ownEntries_record h.names, hmerge]
  rfl

end Record

end Yaml

namespace Overlay

/-- A value of a document gives a value over an old one. -/
def Sets {α : Type} (field : Field α) (value : Yaml) (old new : α) : Prop :=
  ∀ v : View, v.value = value → field v old = some new

section Fields

variable {α : Type} {fields : List (String × Yaml)} {v : View}

theorem filter_children {key : String} (h : ∀ f ∈ fields, f.1 ≠ key) :
    (v.children fields).filter (·.1 == key) = [] := by
  refine List.filter_eq_nil_iff.2 fun entry hentry => ?_
  obtain ⟨f, hf, rfl⟩ := List.mem_map.1 hentry
  simpa using h f hf

theorem at?_of_mem (key : String) {value : Yaml} {field : Field α} {old new : α}
    (hfields : WellNamed fields) (hmem : (key, value) ∈ fields) (h : Sets field value old new) :
    at? (v.children fields) key field old = some new := by
  obtain ⟨before, after, rfl⟩ := List.append_of_mem hmem
  have hnodup := hfields.nodup
  rw [List.map_append, List.map_cons, List.nodup_append] at hnodup
  obtain ⟨-, hafter, hbefore⟩ := hnodup
  have hfilter : (v.children (before ++ (key, value) :: after)).filter (·.1 == key) =
      [(key, v.child value)] := by
    rw [View.children, List.map_append, List.map_cons, List.filter_append,
      List.filter_cons_of_pos (by simp)]
    have hfront : (v.children before).filter (·.1 == key) = [] := filter_children fun f hf =>
      hbefore f.1 (List.mem_map.2 ⟨f, hf, rfl⟩) key List.mem_cons_self
    have hback : (v.children after).filter (·.1 == key) = [] := filter_children fun f hf heq =>
      (List.nodup_cons.1 hafter).1 (List.mem_map.2 ⟨f, hf, heq⟩)
    rw [View.children] at hfront hback
    rw [hfront, hback]
    rfl
  unfold at?
  rw [hfilter]
  exact h (v.child value) rfl

theorem at?_of_not_mem {key : String} (field : Field α) (old : α) (h : ∀ f ∈ fields, f.1 ≠ key) :
    at? (v.children fields) key field old = some old := by
  unfold at?
  rw [filter_children h]

/-- A record is laid over another one by its fields. -/
theorem sets_record {read : Entries → α → Option α} {old new : α} (hfields : WellNamed fields)
    (h : ∀ v : View, read (v.children fields) old = some new) :
    Sets (record read) (.record fields) old new := by
  intro v hv
  have hsettle : v.settle = some v := by
    unfold View.settle
    rw [hv]
    rfl
  unfold record
  simp only [hsettle, bind, Option.bind, hv, Yaml.record_eq, View.entries?_record hfields]
  exact h v

end Fields

/-! ## Single fields -/

theorem sets_scalar {α : Type} {read : Yaml.Scalar → Yaml.Meaning → Option α} {s : Yaml.Scalar}
    {meaning : Yaml.Meaning} (hmeaning : s.meaning? = some meaning) (hne : meaning ≠ .null) (old new : α)
    (h : read s meaning = some new) : Sets (scalar read) (.scalar s) old new := by
  intro v hv
  unfold scalar
  simp only [View.settle_scalar hv, bind, Option.bind, hv, hmeaning]
  cases meaning with
  | null => exact absurd rfl hne
  | _ => exact h

theorem meaning_of_plain {t : String} (h : Yaml.styleOf t = .plain) : Yaml.meaning t = .text := by
  have hread : Yaml.isMisread t = false := by
    refine Bool.eq_false_iff.2 fun hmisread => ?_
    unfold Yaml.styleOf at h
    simp only [hmisread, if_true] at h
    split at h
    · split at h <;> cases h
    · cases h
  simp only [Yaml.isMisread, Bool.or_eq_false_iff, bne_eq_false_iff_eq] at hread
  exact hread.1.1

/-- However a text is written, it means itself. -/
theorem meaning?_ofText (t : String) :
    Yaml.Scalar.meaning? { style := Yaml.styleOf t, text := t } = some .text := by
  rw [Yaml.Scalar.meaning?_untagged]
  by_cases hplain : Yaml.styleOf t = .plain
  · rw [hplain, meaning_of_plain hplain]
    rfl
  · rw [beq_false_of_ne hplain]
    rfl

theorem sets_text (t old : String) : Sets text (Document.ofText t) old t :=
  sets_scalar (meaning?_ofText t) (by simp) old t rfl

theorem sets_word (n old : Int64) : Sets word (Document.ofWord n) old n := by
  have hmeaning : Yaml.Scalar.meaning? { text := toString n.toInt } = some (.int n.toInt) := by
    rw [Yaml.Scalar.meaning?_untagged, Yaml.meaning_word]
    rfl
  have hword : (Yaml.Meaning.int n.toInt).word? = some n.toInt := by
    have hleast : Int64.minValue.toInt = -0x8000000000000000 := by decide +kernel
    have hgreatest : Int64.maxValue.toInt = 0x7fffffffffffffff := by decide +kernel
    have hle := n.le_toInt
    have hlt := n.toInt_lt
    simp only [Yaml.Meaning.word?, hleast, hgreatest]
    rw [if_pos]
    simp only [Bool.and_eq_true, decide_eq_true_eq]
    omega
  refine sets_scalar hmeaning (by simp) old n ?_
  rw [hword, Option.map_some, Int64.ofInt_toInt]

theorem sets_bool (b old : Bool) : Sets bool (Document.ofBool b) old b := by
  have hmeaning : ∀ b : Bool, Yaml.Scalar.meaning? { text := if b then "true" else "false" } =
      some (.bool b) := by
    decide +kernel
  exact sets_scalar (hmeaning b) (by simp) old b rfl

theorem sets_texts (items old : Option (List String)) :
    Sets texts (Document.ofTexts items) old (some (items.getD [])) := by
  intro v hv
  have hsettle : v.settle = some v := by
    unfold View.settle
    rw [hv]
    rfl
  have hread : ∀ texts : List String,
      (texts.map Document.ofText).mapM (fun item => (v.child item).text?) = some (texts.map some) := by
    intro texts
    induction texts with
    | nil => rfl
    | cons t texts ih =>
      have ht : (v.child (Document.ofText t)).text? = some (some t) :=
        View.text?_scalar rfl (meaning?_ofText t) rfl
      rw [List.map_cons, List.mapM_cons, ht, ih]
      rfl
  unfold texts
  simp only [hsettle, bind, Option.bind, hv, Document.ofTexts, hread]
  simp

/-- A text that is left out when it is empty gives the old one, which has to be empty then too. -/
theorem at?_unlessEmpty (key t : String) {old : String} {fields : List (String × Yaml)} {v : View}
    (hfields : WellNamed fields) (hmem : t ≠ "" → (key, Document.ofText t) ∈ fields)
    (hother : t = "" → old = "" ∧ ∀ f ∈ fields, f.1 ≠ key) :
    at? (v.children fields) key text old = some t := by
  by_cases ht : t = ""
  · obtain ⟨hold, hkey⟩ := hother ht
    rw [at?_of_not_mem text old hkey, hold, ht]
  · exact at?_of_mem key hfields (hmem ht) (sets_text t old)

end Overlay

/-! ## Documents of settings -/

namespace Document

def heatThresholdFields (t : HeatThresholds) : List (String × Yaml) :=
  [("warm", ofWord t.warm), ("hot", ofWord t.hot), ("critical", ofWord t.critical)]

def analysisFields (a : AnalysisSettings) : List (String × Yaml) :=
  [("loop_nesting", ofText a.loopNesting), ("function_identity", ofText a.functionIdentity),
    ("recursion", ofText a.recursion), ("max_workers", ofWord a.maxWorkers),
    ("heat_thresholds", ofHeatThresholds a.heatThresholds)]

def outputFields (o : OutputSettings) : List (String × Yaml) :=
  [("format", ofText o.format), ("colors", ofBool o.colors), ("verbose", ofBool o.verbose),
    ("show_functions", ofBool o.showFunctions), ("top_lines", ofWord o.topLines)] ++
    unlessEmpty "output_file" o.outputFile

def fileFields (f : FileSettings) : List (String × Yaml) :=
  [("extensions", ofTexts f.extensions), ("exclude", ofTexts f.exclude),
    ("max_file_size", ofWord f.maxFileSize)]

def settingsFields (s : Settings) : List (String × Yaml) :=
  [("version", ofText s.version)] ++ unlessEmpty "project_name" s.projectName ++
    [("analysis", ofAnalysis s.analysis), ("output", ofOutput s.output), ("files", ofFiles s.files)]

theorem ofHeatThresholds_eq (t : HeatThresholds) :
    ofHeatThresholds t = .record (heatThresholdFields t) := rfl

theorem ofAnalysis_eq (a : AnalysisSettings) : ofAnalysis a = .record (analysisFields a) := rfl

theorem ofOutput_eq (o : OutputSettings) : ofOutput o = .record (outputFields o) := rfl

theorem ofFiles_eq (f : FileSettings) : ofFiles f = .record (fileFields f) := rfl

theorem ofSettings_eq (s : Settings) : ofSettings s = .record (settingsFields s) := rfl

theorem unlessEmpty_sublist (key t : String) : ((unlessEmpty key t).map (·.1)).Sublist [key] := by
  unfold unlessEmpty
  split
  · exact List.nil_sublist _
  · exact List.Sublist.refl _

theorem wellNamed_heatThresholds (t : HeatThresholds) : WellNamed (heatThresholdFields t) :=
  .of_sublist ["warm", "hot", "critical"] (.refl _) (by decide) (by decide)

theorem wellNamed_analysis (a : AnalysisSettings) : WellNamed (analysisFields a) :=
  .of_sublist ["loop_nesting", "function_identity", "recursion", "max_workers", "heat_thresholds"]
    (.refl _) (by decide) (by decide)

theorem wellNamed_output (o : OutputSettings) : WellNamed (outputFields o) := by
  refine .of_sublist
    (["format", "colors", "verbose", "show_functions", "top_lines"] ++ ["output_file"]) ?_
    (by decide) (by decide)
  rw [outputFields, List.map_append]
  exact (List.Sublist.refl _).append (unlessEmpty_sublist _ _)

theorem wellNamed_files (f : FileSettings) : WellNamed (fileFields f) :=
  .of_sublist ["extensions", "exclude", "max_file_size"] (.refl _) (by decide) (by decide)

theorem wellNamed_settings (s : Settings) : WellNamed (settingsFields s) := by
  refine .of_sublist (["version"] ++ ["project_name"] ++ ["analysis", "output", "files"]) ?_
    (by decide) (by decide)
  rw [settingsFields, List.map_append, List.map_append]
  exact ((List.Sublist.refl _).append (unlessEmpty_sublist _ _)).append (List.Sublist.refl _)

theorem mem_unlessEmpty {key t : String} (h : t ≠ "") : (key, ofText t) ∈ unlessEmpty key t := by
  simp [unlessEmpty, h]

end Document

namespace Overlay

open Document

theorem sets_heatThresholds (t old : HeatThresholds) :
    Sets heatThresholds (ofHeatThresholds t) old t := by
  have hfields := wellNamed_heatThresholds t
  rw [ofHeatThresholds_eq]
  refine sets_record hfields fun v => ?_
  rw [at?_of_mem "warm" hfields (by simp [heatThresholdFields]) (sets_word t.warm _),
    at?_of_mem "hot" hfields (by simp [heatThresholdFields]) (sets_word t.hot _),
    at?_of_mem "critical" hfields (by simp [heatThresholdFields]) (sets_word t.critical _)]
  rfl

theorem sets_analysis (a old : AnalysisSettings) : Sets analysis (ofAnalysis a) old a := by
  have hfields := wellNamed_analysis a
  rw [ofAnalysis_eq]
  refine sets_record hfields fun v => ?_
  rw [at?_of_mem "loop_nesting" hfields (by simp [analysisFields]) (sets_text a.loopNesting _),
    at?_of_mem "function_identity" hfields (by simp [analysisFields]) (sets_text a.functionIdentity _),
    at?_of_mem "recursion" hfields (by simp [analysisFields]) (sets_text a.recursion _),
    at?_of_mem "max_workers" hfields (by simp [analysisFields]) (sets_word a.maxWorkers _),
    at?_of_mem "heat_thresholds" hfields (by simp [analysisFields])
      (sets_heatThresholds a.heatThresholds _)]
  rfl

/-- The file of the report is left out if it is empty, so it has to be empty before. -/
theorem sets_output (o old : OutputSettings) (hold : old.outputFile = "") :
    Sets output (ofOutput o) old o := by
  have hfields := wellNamed_output o
  rw [ofOutput_eq]
  refine sets_record hfields fun v => ?_
  rw [at?_of_mem "format" hfields (by simp [outputFields]) (sets_text o.format _),
    at?_of_mem "colors" hfields (by simp [outputFields]) (sets_bool o.colors _),
    at?_of_mem "verbose" hfields (by simp [outputFields]) (sets_bool o.verbose _),
    at?_of_mem "show_functions" hfields (by simp [outputFields]) (sets_bool o.showFunctions _),
    at?_of_mem "top_lines" hfields (by simp [outputFields]) (sets_word o.topLines _),
    at?_unlessEmpty "output_file" o.outputFile hfields
      (fun ht => by simp [outputFields, mem_unlessEmpty ht])
      (fun ht => ⟨hold, by simp [outputFields, unlessEmpty, ht]⟩)]
  rfl

/-- Lists that are gone come back empty. -/
def restored (f : FileSettings) : FileSettings :=
  { f with extensions := some (f.extensions.getD []), exclude := some (f.exclude.getD []) }

theorem sets_files (f old : FileSettings) : Sets files (ofFiles f) old (restored f) := by
  have hfields := wellNamed_files f
  rw [ofFiles_eq]
  refine sets_record hfields fun v => ?_
  rw [at?_of_mem "extensions" hfields (by simp [fileFields]) (sets_texts f.extensions _),
    at?_of_mem "exclude" hfields (by simp [fileFields]) (sets_texts f.exclude _),
    at?_of_mem "max_file_size" hfields (by simp [fileFields]) (sets_word f.maxFileSize _)]
  rfl

theorem sets_settings (s old : Settings) (hname : old.projectName = "")
    (hfile : old.output.outputFile = "") :
    Sets settings (ofSettings s) old { s with files := restored s.files } := by
  have hfields := wellNamed_settings s
  rw [ofSettings_eq]
  refine sets_record hfields fun v => ?_
  rw [at?_of_mem "version" hfields (by simp [settingsFields]) (sets_text s.version _),
    at?_unlessEmpty "project_name" s.projectName hfields
      (fun ht => by simp [settingsFields, mem_unlessEmpty ht])
      (fun ht => ⟨hname, by simp [settingsFields, unlessEmpty, ht]⟩),
    at?_of_mem "analysis" hfields (by simp [settingsFields]) (sets_analysis s.analysis _),
    at?_of_mem "output" hfields (by simp [settingsFields]) (sets_output s.output _ hfile),
    at?_of_mem "files" hfields (by simp [settingsFields]) (sets_files s.files _)]
  rfl

end Overlay

/-! ## Writing and reading -/

namespace Yaml

/-- The text of a document is read as the document. -/
def ReadsBack (value : Yaml) : Prop := (parse? value.write).map (·.value) = some value

mutual

/-- Whether two values without references are the same. -/
def same : Yaml → Yaml → Bool
  | .scalar s, .scalar s' => s == s'
  | .list items, .list items' => sameItems items items'
  | .mapping entries, .mapping entries' => sameEntries entries entries'
  | _, _ => false

def sameItems : List Yaml → List Yaml → Bool
  | [], [] => true
  | item :: rest, item' :: rest' => same item item' && sameItems rest rest'
  | _, _ => false

def sameEntries : List (Yaml × Yaml) → List (Yaml × Yaml) → Bool
  | [], [] => true
  | (key, value) :: rest, (key', value') :: rest' =>
    same key key' && same value value' && sameEntries rest rest'
  | _, _ => false

end

mutual

theorem eq_of_same : ∀ {a b : Yaml}, same a b = true → a = b
  | .scalar _, .scalar _, h => congrArg scalar (beq_iff_eq.1 h)
  | .list _, .list _, h => congrArg list (eq_of_sameItems h)
  | .mapping _, .mapping _, h => congrArg mapping (eq_of_sameEntries h)

theorem eq_of_sameItems : ∀ {a b : List Yaml}, sameItems a b = true → a = b
  | [], [], _ => rfl
  | _ :: _, _ :: _, h => by
    simp only [sameItems, Bool.and_eq_true] at h
    rw [eq_of_same h.1, eq_of_sameItems h.2]

theorem eq_of_sameEntries : ∀ {a b : List (Yaml × Yaml)}, sameEntries a b = true → a = b
  | [], [], _ => rfl
  | (_, _) :: _, (_, _) :: _, h => by
    simp only [sameEntries, Bool.and_eq_true] at h
    rw [eq_of_same h.1.1, eq_of_same h.1.2, eq_of_sameEntries h.2]

end

theorem ReadsBack.of_same {value : Yaml}
    (h : (parse? value.write).any (fun document => same document.value value) = true) :
    ReadsBack value := by
  obtain ⟨document, hread, hsame⟩ := (Option.any_eq_true _ _).1 h
  rw [ReadsBack, hread, Option.map_some, eq_of_same hsame]

end Yaml

namespace Settings

variable {s : Settings}

/-- Settings are read from their text as they were, with empty lists for those that are gone. -/
theorem parse?_render (h : Yaml.ReadsBack (Document.ofSettings s)) :
    parse? s.render = some { s with files := Overlay.restored s.files } := by
  obtain ⟨document, hread, hvalue⟩ := Option.map_eq_some_iff.1 h
  unfold parse? render
  rw [hread]
  change Overlay.settings document.view {} = _
  exact Overlay.sets_settings s {} rfl rfl document.view hvalue

/-- Empty lists are as valid as lists that are gone. -/
theorem validate_restored (h : s.validate = .ok s) :
    validate { s with files := Overlay.restored s.files } =
      .ok { s with files := Overlay.restored s.files } := by
  have hsame : fault? { s with files := Overlay.restored s.files } = s.fault? := rfl
  unfold validate at h ⊢
  rw [hsame]
  cases hfault : s.fault? with
  | none => rfl
  | some fault =>
    rw [hfault] at h
    cases h

theorem mapError_eq_ok {ε ε' α : Type} {x : Except ε α} {f : ε → ε'} {a : α} :
    x.mapError f = .ok a ↔ x = .ok a := by
  cases x <;> simp [Except.mapError]

theorem write_of_save {disk disk' : Disk} {path : Path} (h : s.save disk path = .ok disk') :
    ∃ made : Disk, made.write path (Bytes.ofString s.render) = .ok disk' := by
  unfold save at h
  cases hmade : (disk.makeDirectories path.parent).mapError (SaveError.directory ·.error) with
  | error error =>
    rw [hmade] at h
    cases h
  | ok made =>
    rw [hmade] at h
    exact ⟨made, mapError_eq_ok.1 h⟩

/-- Valid settings are loaded from the file they were saved to as they were, with empty lists for those
that are gone. -/
theorem load_of_save {disk disk' : Disk} {path : Path} (hvalid : s.validate = .ok s)
    (hyaml : Yaml.ReadsBack (Document.ofSettings s)) (hsave : s.save disk path = .ok disk') :
    load disk' path = .ok { s with files :=
      { s.files with extensions := some (s.files.extensions.getD []),
                     exclude := some (s.files.exclude.getD []) } } := by
  obtain ⟨made, hwrite⟩ := write_of_save hsave
  obtain ⟨hpath, hread⟩ := Disk.read_write hwrite
  have hplace : place? disk' path = some path := by
    unfold place?
    rw [if_pos (by simpa using hpath)]
  have hparse : decode? (Bytes.ofString s.render) =
      some { s with files := Overlay.restored s.files } := by
    rw [decode?, Bytes.toString?_ofString, Option.bind_eq_bind, Option.bind_some,
      parse?_render hyaml]
  unfold load
  simp only [hplace, hread, Except.mapError, bind, Except.bind] at hparse ⊢
  rw [hparse]
  simp only [validate_restored hvalid]
  rfl

/-- Settings with fields that are empty though the defaults are not, and with texts that need quotes. -/
def sparse : Settings :=
  { version := ""
    projectName := "it's: a #1"
    analysis := { maxWorkers := 1 }
    output := { format := "json", colors := false, showFunctions := false, topLines := 0 }
    files := { extensions := none, exclude := some ["", "*.tmp"], maxFileSize := 0 } }

open Yaml Document in
theorem readsBack_sparse : Yaml.ReadsBack (Document.ofSettings sparse) := by
  have hname : sparse.projectName.isEmpty = false := by decide +kernel
  have hfile : sparse.output.outputFile.isEmpty = true := by decide +kernel
  refine .of_same ?_
  -- the characters of a text are fast to compute only line by line
  simp only [Yaml.parse?, characters?, ofSettings, ofAnalysis, ofOutput, ofFiles, ofTexts,
    ofHeatThresholds, unlessEmpty, hname, hfile, if_true, Bool.false_eq_true, if_false, Yaml.record,
    List.map_cons, List.map_nil, List.cons_append, List.nil_append, List.append_nil, write,
    writeEntries, writeValue, String.toList_append]
  decide +kernel

theorem load_of_save_sparse : sparse.validate = .ok sparse ∧
    ∃ disk', sparse.save {} "conf/tune.yml" = .ok disk' ∧ load disk' "conf/tune.yml" =
      .ok { sparse with files := { sparse.files with extensions := some [] } } := by
  have hvalid : sparse.validate = .ok sparse := by
    have hfault : sparse.fault? = none := by decide +kernel
    rw [validate, hfault]
  have hsave : sparse.save {} "conf/tune.yml" = .ok
      { root := .directory [("conf",
          .directory [("tune.yml", .file (Bytes.ofString sparse.render))])] } := by
    have hparent : Path.parent "conf/tune.yml" = "conf" := by decide +kernel
    have hleading : Disk.leading "conf" = ["conf"] := by decide +kernel
    have habsolute : Path.isAbsolute "conf" = false ∧ Path.isAbsolute "conf/tune.yml" = false := by
      decide +kernel
    have helements : Path.elements "conf" = ["conf"] ∧
        Path.elements "conf/tune.yml" = ["conf", "tune.yml"] := by
      decide +kernel
    have hsplit : Disk.splitLast "conf" = ([], "conf") ∧
        Disk.splitLast "conf/tune.yml" = (["conf"], "tune.yml") := by
      decide +kernel
    simp [save, hparent, Disk.makeDirectories, hleading, Disk.makeAll, Disk.find, Disk.start,
      Disk.Place.step, Disk.place, Disk.write, habsolute, helements, hsplit, Disk.Place.names,
      Entry.isDirectory, Entry.put, Entry.insertNamed, Except.mapError, bind, Except.bind, pure,
      Except.pure]
  have hload := load_of_save hvalid readsBack_sparse hsave
  exact ⟨hvalid, _, hsave, hload⟩

end Settings

end ShaderCost
