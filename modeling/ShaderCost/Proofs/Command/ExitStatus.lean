import ShaderCost.Command.Run
import ShaderCost.Proofs.Files.Writing
import ShaderCost.Proofs.Report.Batches

/-! # What the status of a run tells

A run goes through several stages before its report, and gives up at the first that fails. The stages
are taken one by one: the settings (`loadSettings_eq_ok`), the shaders (`analyze_eq_report`) and their
analysis (`hasFailures_analyzeFiles`). What is left is a run with nothing wrong before its report
(`Sound`), and these are the runs that end with status zero (`status_zero_iff_sound`), beside those
whose arguments are answered before the command runs. All this holds whatever reads the arguments
and decodes the settings.

The report comes after that, and the status does not tell what became of it. That a report could not
be written is only said (`finish_lost`); directories that were made for it stay, and no file is
changed (`writeFile_error`).
-/

namespace ShaderCost

/-! ## Settings -/

namespace Settings

theorem validate_eq_ok {s s' : Settings} : s.validate = .ok s' ↔ s.fault? = none ∧ s' = s := by
  unfold validate
  cases s.fault? with
  | none => simp [eq_comm]
  | some fault => simp

/-- Settings without a fault name choices that are understood. -/
theorem costOptions_of_fault? {s : Settings} (h : s.fault? = none) :
    ∃ options, s.costOptions = .ok options := by
  unfold fault? at h
  cases hoptions : s.costOptions with
  | ok options => exact ⟨options, rfl⟩
  | error e =>
    rw [hoptions] at h
    cases hversion : versionFault? s.version with
    | none => simp [hversion] at h
    | some fault => simp [hversion] at h

end Settings

theorem Analyzer.ofSettings_eq_ok {settings : Settings} {a : Analyzer} :
    Analyzer.ofSettings settings = .ok a ↔
      a.settings = settings ∧ settings.costOptions = .ok a.options := by
  unfold ofSettings
  cases settings.costOptions with
  | error e => simp [bind, Except.bind]
  | ok options =>
    obtain ⟨options', settings'⟩ := a
    simp [bind, Except.bind, pure, Except.pure, eq_comm, and_comm]

/-! ## Analysis -/

namespace Analyzer

theorem error?_toResult (a : Analyzer) (disk : Disk) (file : Path) :
    (toResult file (a.analyzeFile disk file)).error? = none ↔
      ∃ summary, a.analyzeFile disk file = .ok summary := by
  cases a.analyzeFile disk file with
  | ok summary => simp [toResult, FileResult.error?]
  | error e => simp [toResult, FileResult.error?]

/-- No file fails when each of them can be analysed. -/
theorem hasFailures_analyzeFiles (a : Analyzer) (disk : Disk) (files : List Path) :
    (a.analyzeFiles disk files).hasFailures = false ↔
      ∀ file ∈ files, ∃ summary, a.analyzeFile disk file = .ok summary := by
  unfold analyzeFiles
  rw [Batch.hasFailures_ofList]
  simp only [List.forall_mem_map, error?_toResult]

end Analyzer

namespace Command

theorem loadSettings_eq_ok {s : Surroundings} {c : CommandLine} {settings : Settings} :
    loadSettings s c = .ok settings ↔
      (∃ file, Settings.load s.disk ((c.text? .config).getD "") s.decode? = .ok file ∧
        settings = applyFlags c file) ∧ settings.fault? = none := by
  unfold loadSettings
  cases Settings.load s.disk ((c.text? .config).getD "") s.decode? with
  | error e => simp [bind, Except.bind]
  | ok file =>
    change (applyFlags c file).validate.mapError LoadError.invalid = .ok settings ↔ _
    have hvalidate : (applyFlags c file).validate.mapError LoadError.invalid = .ok settings ↔
        (applyFlags c file).validate = .ok settings := by
      cases (applyFlags c file).validate with
      | error fault =>
        constructor
        · rintro ⟨⟩
        · rintro ⟨⟩
      | ok valid =>
        constructor
        · rintro ⟨⟩
          rfl
        · rintro ⟨⟩
          rfl
    rw [hvalidate, Settings.validate_eq_ok]
    constructor
    · rintro ⟨hvalid, rfl⟩
      exact ⟨⟨file, rfl, rfl⟩, hvalid⟩
    · rintro ⟨⟨file', hfile, rfl⟩, hvalid⟩
      cases hfile
      exact ⟨hvalid, rfl⟩

/-! ## Runs -/

/-- There is something to analyse: the settings load and are valid, also with the flags laid over
them, every path leads somewhere, and there are shaders. -/
structure Ready (s : Surroundings) (c : CommandLine) (a : Analyzer) (files : List Path) : Prop where
  loaded : ∃ file, Settings.load s.disk ((c.text? .config).getD "") s.decode? = .ok file ∧
    a.settings = applyFlags c file
  valid : a.settings.fault? = none
  understood : a.settings.costOptions = .ok a.options
  collected : a.settings.files.collectAll s.disk c.paths = .ok files
  found : files ≠ []

/-- Nothing is wrong before the report: all shaders can be analysed. -/
structure Sound (s : Surroundings) (c : CommandLine) (a : Analyzer) (files : List Path) : Prop
    extends Ready s c a files where
  analysed : ∀ file ∈ files, ∃ summary, a.analyzeFile s.disk file = .ok summary

/-- The job that is to be reported on. -/
def jobOf (s : Surroundings) (c : CommandLine) (a : Analyzer) (files : List Path) : Job :=
  { commandLine := c, analyzer := a, files, batch := a.analyzeFiles s.disk files }

variable {s : Surroundings} {c : CommandLine} {a : Analyzer} {files : List Path}

theorem analyze_eq_report (h : Ready s c a files) :
    analyze s c = .report (jobOf s c a files) := by
  have hsettings : loadSettings s c = .ok a.settings :=
    loadSettings_eq_ok.2 ⟨h.loaded, h.valid⟩
  have ha : Analyzer.ofSettings a.settings = .ok a :=
    Analyzer.ofSettings_eq_ok.2 ⟨rfl, h.understood⟩
  obtain ⟨file, others, rfl⟩ := List.exists_cons_of_ne_nil h.found
  unfold analyze
  simp only [hsettings, h.collected, ha]
  rfl

/-- A run that has nothing to analyse gives up. -/
theorem analyze_cases (s : Surroundings) (c : CommandLine) :
    (∃ style text, analyze s c = .done (giveUp s style text)) ∨ ∃ a files, Ready s c a files := by
  cases hsettings : loadSettings s c with
  | error e =>
    refine Or.inl ⟨.failure, "Error loading configuration: " ++ e.message, ?_⟩
    rw [analyze, hsettings]
  | ok settings =>
    obtain ⟨hloaded, hvalid⟩ := loadSettings_eq_ok.1 hsettings
    obtain ⟨options, hoptions⟩ := Settings.costOptions_of_fault? hvalid
    cases hfiles : settings.files.collectAll s.disk c.paths with
    | error e =>
      obtain ⟨path, e⟩ := e
      refine Or.inl ⟨.failure, "error collecting files from " ++ path ++ ": " ++ e.message, ?_⟩
      rw [analyze, hsettings]
      simp only [hfiles]
    | ok files =>
      cases files with
      | nil =>
        refine Or.inl ⟨.caution, "No shader files found to analyze", ?_⟩
        rw [analyze, hsettings]
        simp only [hfiles]
      | cons file files =>
        exact Or.inr ⟨⟨options, settings⟩, file :: files, hloaded, hvalid, hoptions, hfiles,
          List.cons_ne_nil file files⟩

theorem Ready.paths_ne_nil (h : Ready s c a files) : c.paths ≠ [] := by
  intro hpaths
  have hcollected := h.collected
  rw [hpaths] at hcollected
  cases hcollected
  exact h.found rfl

section

variable {arguments : List String} {duration : String}

variable (hcommand : s.understand arguments = .command c) (hplain : c.isOn .generateConfig = false)

include hcommand hplain

theorem run_of_ready (h : Ready s c a files) :
    run s arguments duration = (jobOf s c a files).finish s duration := by
  have hpaths : c.paths.isEmpty = false := by simpa using h.paths_ne_nil
  simp [run, start, hcommand, hplain, hpaths, analyze_eq_report h]

theorem status_of_not_ready (h : ∀ a files, ¬ Ready s c a files) :
    (run s arguments duration).status = 1 := by
  rcases analyze_cases s c with ⟨style, text, hgives⟩ | ⟨a, files, hready⟩
  · cases hpaths : c.paths.isEmpty with
    | true => simp [run, start, hcommand, hplain, hpaths]
    | false => simp [run, start, hcommand, hplain, hpaths, hgives, giveUp]
  · exact absurd hready (h a files)

end

/-- A job that is not watched fails when one of its files did. -/
theorem status_finish (hwatch : c.isOn .watch = false) (duration : String) :
    ((jobOf s c a files).finish s duration).status = 0 ↔
      ∀ file ∈ files, ∃ summary, a.analyzeFile s.disk file = .ok summary := by
  rw [← a.hasFailures_analyzeFiles]
  unfold Job.finish jobOf
  simp only [hwatch]
  cases (a.analyzeFiles s.disk files).hasFailures with
  | true => simp
  | false => simp

theorem status_zero_iff {arguments : List String} {duration : String}
    (hcommand : s.understand arguments = .command c) (hplain : c.isOn .generateConfig = false)
    (hwatch : c.isOn .watch = false) :
    (run s arguments duration).status = 0 ↔ ∃ a files, Sound s c a files := by
  constructor
  · intro hzero
    by_cases hready : ∃ a files, Ready s c a files
    · obtain ⟨a, files, hready⟩ := hready
      rw [run_of_ready hcommand hplain hready, status_finish hwatch] at hzero
      exact ⟨a, files, hready, hzero⟩
    · have hfailed : (run s arguments duration).status = 1 := by
        apply status_of_not_ready hcommand hplain
        intro a files h
        exact hready ⟨a, files, h⟩
      omega
  · rintro ⟨a, files, hsound⟩
    rw [run_of_ready hcommand hplain hsound.toReady, status_finish hwatch]
    exact hsound.analysed

/-! ## Reports -/

/-- A file that cannot be written leaves nothing but directories. -/
theorem writeFile_error {disk : Disk} {path : Path} {content : Bytes} {e : Disk.Interrupted}
    (h : writeFile disk path content = .error e) : disk.AddsDirectories e.disk := by
  unfold writeFile at h
  cases hmade : disk.makeDirectories path.parent with
  | error e' =>
    rw [hmade] at h
    cases h
    exact (Disk.AddsDirectories.makeAll disk _).2 e hmade
  | ok made =>
    rw [hmade] at h
    have hadds := (Disk.AddsDirectories.makeAll disk _).1 made hmade
    cases hwrite : made.write path content with
    | ok written =>
      simp only [bind, Except.bind, hwrite] at h
      cases h
    | error error =>
      simp only [bind, Except.bind, hwrite] at h
      cases h
      exact hadds

/-- A path that ends in a slash names a directory, which is made before writing fails. -/
example : writeFile {} "new/" [] = .error
    ⟨⟨"open", "new/", .isDirectory⟩, { root := .directory [("new", .directory [])] }⟩ := by
  rfl

/-- The report of a job that took the given time. -/
def Job.reportText (job : Job) (s : Surroundings) (duration : String) : Bytes :=
  report job.settings (.ofName job.settings.output.format) s.color job.batch duration

/-- The report is given out: it is shown, or its file can be written. -/
def Delivered (s : Surroundings) (job : Job) (duration : String) : Prop :=
  job.settings.output.outputFile = "" ∨
    ∃ disk, writeFile s.disk job.settings.output.outputFile (job.reportText s duration) = .ok disk

section

variable {job : Job} {duration : String} (hwatch : job.commandLine.isOn .watch = false)

include hwatch

theorem finish_shown (hfile : job.settings.output.outputFile = "") :
    (job.finish s duration).output = job.announcement s ++ job.reportText s duration := by
  unfold Job.finish emit Job.reportText
  simp [hwatch, hfile]

variable (hfile : job.settings.output.outputFile ≠ "")

include hfile

theorem finish_written {disk : Disk}
    (h : writeFile s.disk job.settings.output.outputFile (job.reportText s duration) = .ok disk) :
    (job.finish s duration).disk = disk ∧
      (job.finish s duration).written =
        [(job.settings.output.outputFile, job.reportText s duration)] := by
  unfold Job.finish emit
  unfold Job.reportText at h ⊢
  simp [hwatch, hfile, h]

/-- A report that cannot be written is gone, and the failure is only said. -/
theorem finish_lost {e : Disk.Interrupted}
    (h : writeFile s.disk job.settings.output.outputFile (job.reportText s duration) = .error e) :
    (job.finish s duration).disk = e.disk ∧ (job.finish s duration).written = [] ∧
      (job.finish s duration).output = job.announcement s ++
        (say s .failure ("Failed to write report to file: " ++ e.error.message) ++
          failureLines job.batch) := by
  unfold Job.finish emit
  unfold Job.reportText at h
  simp [hwatch, hfile, h]

end

theorem Sound.failureLines (h : Sound s c a files) :
    failureLines (jobOf s c a files).batch = [] := by
  have hnone : ∀ result ∈ (jobOf s c a files).batch.results, result.error? = none := by
    unfold jobOf Analyzer.analyzeFiles
    simpa [Analyzer.error?_toResult] using h.analysed
  unfold Command.failureLines
  rw [List.filterMap_eq_nil_iff.2 hnone]
  rfl

/-- **Status zero tells that all was analysed, not that it was reported.** Whatever reads the
arguments and decodes the settings, a run that neither watches nor writes sample settings ends with
status zero exactly when its arguments are answered before the command runs, or when the settings
load and are valid with the flags laid over them, the paths lead to at least one shader and every
shader can be analysed. Whether the report is given out has no part in it: a report that cannot be
written leaves no file and the status zero, and the failure is only said. What was on the disk is
still there, beside the directories that were made before the failure. -/
theorem status_zero_iff_sound (s : Surroundings) (arguments : List String) (duration : String)
    (hplain : ∀ c, s.understand arguments = .command c →
      c.isOn .watch = false ∧ c.isOn .generateConfig = false) :
    ((run s arguments duration).status = 0 ↔
      (∃ output messages, s.understand arguments = .answered output messages) ∨
      ∃ c, s.understand arguments = .command c ∧ ∃ a files, Sound s c a files) ∧
    ∀ c a files, s.understand arguments = .command c → Sound s c a files →
      let job := jobOf s c a files
      let outcome := run s arguments duration
      let file := job.settings.output.outputFile
      let text := job.reportText s duration
      (Delivered s job duration →
        file = "" ∧ outcome.output = job.announcement s ++ text ∨
        writeFile s.disk file text = .ok outcome.disk ∧ outcome.written = [(file, text)]) ∧
      (¬ Delivered s job duration →
        outcome.status = 0 ∧ outcome.written = [] ∧ s.disk.AddsDirectories outcome.disk ∧
        ∃ e, writeFile s.disk file text = .error e ∧ outcome.disk = e.disk ∧
          outcome.output = job.announcement s ++
            say s .failure ("Failed to write report to file: " ++ e.error.message)) := by
  constructor
  · cases hunderstood : s.understand arguments with
    | refused error messages => simp [run, start, hunderstood]
    | answered output messages => simp [run, start, hunderstood]
    | command c =>
      obtain ⟨hwatch, hgenerate⟩ := hplain c hunderstood
      rw [status_zero_iff hunderstood hgenerate hwatch]
      simp
  · intro c a files hcommand hsound job outcome file text
    obtain ⟨hwatch, hgenerate⟩ := hplain c hcommand
    have houtcome : outcome = job.finish s duration :=
      run_of_ready hcommand hgenerate hsound.toReady
    rw [houtcome]
    constructor
    · intro hdelivered
      by_cases hfile : file = ""
      · exact Or.inl ⟨hfile, finish_shown hwatch hfile⟩
      · obtain ⟨disk, hwrite⟩ := hdelivered.resolve_left hfile
        obtain ⟨hdisk, hwritten⟩ := finish_written hwatch hfile hwrite
        exact Or.inr ⟨hdisk ▸ hwrite, hwritten⟩
    · intro hlost
      have hfile : file ≠ "" := fun h => hlost (Or.inl h)
      cases hwrite : writeFile s.disk file text with
      | ok disk => exact absurd (Or.inr ⟨disk, hwrite⟩) hlost
      | error e =>
        obtain ⟨hdisk, hwritten, houtput⟩ := finish_lost hwatch hfile hwrite
        rw [hsound.failureLines, List.append_nil] at houtput
        have hzero : (job.finish s duration).status = 0 := (status_finish hwatch duration).2
          hsound.analysed
        exact ⟨hzero, hwritten, hdisk ▸ writeFile_error hwrite, e, rfl, hdisk, houtput⟩

/-- A disk with one shader. -/
def oneShader : Surroundings where
  disk := { root := .directory [("a.frag", .file (Bytes.ofString "void main() {}\n"))] }

/-- The shader is analysed with the settings that hold without a file. -/
theorem status_zero_iff_oneShader :
    (run oneShader ["a.frag"] "1ms").status = 0 ∧
      ∃ a files, Sound oneShader { paths := ["a.frag"] } a files := by
  have hcommand : oneShader.understand ["a.frag"] = .command { paths := ["a.frag"] } := by rfl
  have hzero : (run oneShader ["a.frag"] "1ms").status = 0 := by decide +kernel
  have hplain : ∀ c, oneShader.understand ["a.frag"] = .command c →
      c.isOn .watch = false ∧ c.isOn .generateConfig = false := by
    intro c hc
    cases hcommand.symm.trans hc
    decide
  have hiff := (status_zero_iff_sound oneShader ["a.frag"] "1ms" hplain).1
  rw [hcommand] at hiff
  obtain ⟨_, _, hanswered⟩ | ⟨c, hc, hsound⟩ := hiff.1 hzero
  · cases hanswered
  · cases hc
    exact ⟨hzero, hsound⟩

/-- The same shader, with a report that would have to stand below it. -/
def reportBelowShader : CommandLine where
  values := [(.output, "a.frag/x")]
  paths := ["a.frag"]

theorem writeFile_belowShader (text : Bytes) : writeFile oneShader.disk "a.frag/x" text =
    .error ⟨⟨"mkdir", "a.frag", .notDirectory⟩, oneShader.disk⟩ := by
  have hmake : oneShader.disk.makeDirectories (Path.parent "a.frag/x") =
      .error ⟨⟨"mkdir", "a.frag", .notDirectory⟩, oneShader.disk⟩ := by rfl
  unfold writeFile
  rw [hmake]
  rfl

/-- The report is lost, and the status is zero all the same. -/
theorem status_zero_of_lost_report :
    oneShader.understand ["-o", "a.frag/x", "a.frag"] = .command reportBelowShader ∧
      (run oneShader ["-o", "a.frag/x", "a.frag"] "1ms").status = 0 ∧
      (∃ a files, Sound oneShader reportBelowShader a files) ∧
      ∀ a files, Sound oneShader reportBelowShader a files →
        ¬ Delivered oneShader (jobOf oneShader reportBelowShader a files) "1ms" := by
  have hcommand : oneShader.understand ["-o", "a.frag/x", "a.frag"] =
      .command reportBelowShader := by
    rfl
  have hzero : (run oneShader ["-o", "a.frag/x", "a.frag"] "1ms").status = 0 := by decide +kernel
  have hload : Settings.load oneShader.disk "" oneShader.decode? = .ok {} := by rfl
  have hsound : ∃ a files, Sound oneShader reportBelowShader a files :=
    (status_zero_iff hcommand (by decide) (by decide)).1 hzero
  refine ⟨hcommand, hzero, hsound, ?_⟩
  intro a files h hdelivered
  obtain ⟨file, hfile, hsettings⟩ := h.loaded
  cases hload.symm.trans hfile
  have houtput : a.settings.output.outputFile = "a.frag/x" := by
    rw [hsettings]
    decide +kernel
  unfold Delivered jobOf Job.settings at hdelivered
  simp only [houtput, writeFile_belowShader] at hdelivered
  simp at hdelivered

end Command

end ShaderCost
