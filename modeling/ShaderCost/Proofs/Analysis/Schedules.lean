import Mathlib.Logic.Relation
import ShaderCost.Analysis.Files
import ShaderCost.Proofs.Report.Batches
import ShaderCost.Proofs.Report.HotLines

/-! # Analysing files side by side

Files are analysed by a pool of workers. Each file is a task of its own; the tasks are handed to the
pool in the order of the files, each as soon as a worker is free, and from then on they go their own
ways. A task looks whether the pool was cancelled, analyses its file, puts the result in the slot of
the file and returns. When all tasks have returned, the batch is made of the slots.

Which task moves next is left open (`Pool.Step`), so a run of the pool stands for any order in which
tasks start and finish. What carries the proof is that a task has written nothing but the result of
its own file to its own slot (`Pool.Sound`). Every run comes to an end (`step_wellFounded`) and none
gets stuck as long as there is a worker (`exists_step`), and at its end the batch is the one that the
files give one by one.
-/

namespace ShaderCost

/-! ## Pools -/

/-- How far the task of a file has come. -/
inductive Task where
  /-- It was not handed to the pool yet. -/
  | waiting
  | started
  /-- It has seen that the pool is not cancelled. -/
  | admitted
  /-- It has a result, which is not in its slot yet. -/
  | analysed (result : FileResult)
  | stored
  | returned

namespace Task

/-- The task keeps a worker busy. -/
def isRunning : Task → Bool
  | waiting | returned => false
  | started | admitted | analysed _ | stored => true

/-- The greatest number of steps up to its return. -/
def stepsLeft : Task → Nat
  | waiting => 5
  | started => 4
  | admitted => 3
  | analysed _ => 2
  | stored => 1
  | returned => 0

end Task

/-- The tasks of a list of files, and a slot for the result of each. -/
structure Pool where
  tasks : List Task
  slots : List (Option FileResult)
  /-- Tasks that have not been admitted come back with an error. -/
  cancelled : Bool := false
  /-- A task has come back with an error. -/
  failed : Bool := false

namespace Pool

def start (count : Nat) : Pool :=
  { tasks := List.replicate count .waiting, slots := List.replicate count none }

/-- The number of workers that are busy. -/
def running (p : Pool) : Nat := p.tasks.countP Task.isRunning

def move (p : Pool) (i : Nat) (task : Task) : Pool := { p with tasks := p.tasks.set i task }

/-- One step of one task. -/
inductive Step (workers : Nat) (files : List Path) (analyze : Path → FileResult) :
    Pool → Pool → Prop where
  /-- The first task that waits is handed to a free worker. -/
  | launch {p : Pool} {i : Nat} (h : p.tasks[i]? = some .waiting)
      (hfirst : ∀ j < i, p.tasks[j]? ≠ some .waiting) (hfree : p.running < workers) :
      Step workers files analyze p (p.move i .started)
  | enter {p : Pool} {i : Nat} (h : p.tasks[i]? = some .started) (hgo : p.cancelled = false) :
      Step workers files analyze p (p.move i .admitted)
  | refuse {p : Pool} {i : Nat} (h : p.tasks[i]? = some .started) (hstop : p.cancelled = true) :
      Step workers files analyze p { p.move i .returned with failed := true }
  | analyse {p : Pool} {i : Nat} {file : Path} (h : p.tasks[i]? = some .admitted)
      (hfile : files[i]? = some file) :
      Step workers files analyze p (p.move i (.analysed (analyze file)))
  | store {p : Pool} {i : Nat} {result : FileResult} (h : p.tasks[i]? = some (.analysed result)) :
      Step workers files analyze p
        { p.move i .stored with slots := p.slots.set i (some result) }
  | finish {p : Pool} {i : Nat} (h : p.tasks[i]? = some .stored) :
      Step workers files analyze p (p.move i .returned)

/-- All tasks have returned. -/
def Ended (p : Pool) : Prop := ∀ task ∈ p.tasks, task = .returned

/-- The batch of the slots. There is none if a task has come back with an error or a slot is empty. -/
def batch? (p : Pool) : Option Batch :=
  if p.failed then none else (p.slots.mapM id).map Batch.ofList

variable {workers : Nat} {files : List Path} {analyze : Path → FileResult} {p q : Pool}

/-! ## What a step keeps -/

/-- What a task has done so far for its file, given what is in its slot. -/
def Done (result : FileResult) (slot : Option FileResult) : Task → Prop
  | .waiting | .started | .admitted => True
  | .analysed result' => result' = result
  | .stored | .returned => slot = some result

/-- No task was turned away, and each has done what it should for its own file. -/
structure Sound (files : List Path) (analyze : Path → FileResult) (p : Pool) : Prop where
  length_tasks : p.tasks.length = files.length
  length_slots : p.slots.length = files.length
  cancelled : p.cancelled = false
  failed : p.failed = false
  done : ∀ {i : Nat} {file : Path} {task : Task} {slot : Option FileResult}, files[i]? = some file →
    p.tasks[i]? = some task → p.slots[i]? = some slot → Done (analyze file) slot task

namespace Sound

theorem start (files : List Path) (analyze : Path → FileResult) :
    Sound files analyze (start files.length) := by
  refine ⟨List.length_replicate, List.length_replicate, rfl, rfl, fun {i file task slot} _ htask _ => ?_⟩
  obtain rfl := List.eq_of_mem_replicate (List.mem_of_getElem? htask)
  trivial

/-- A task that moves on in its own slot leaves the others as they are. -/
theorem move (h : Sound files analyze p) {i : Nat} {task : Task} {slots : List (Option FileResult)}
    (hlength : slots.length = p.slots.length) (hothers : ∀ j, j ≠ i → slots[j]? = p.slots[j]?)
    (hown : ∀ {file slot}, files[i]? = some file → slots[i]? = some slot →
      Done (analyze file) slot task) :
    Sound files analyze { p.move i task with slots } := by
  refine ⟨?_, hlength.trans h.length_slots, h.cancelled, h.failed, ?_⟩
  · exact List.length_set.trans h.length_tasks
  · intro j file task' slot hfile htask hslot
    by_cases hj : j = i
    · subst hj
      obtain rfl : task = task' := by
        have hlt := (List.getElem?_eq_some_iff.1 hfile).1
        rw [← h.length_tasks] at hlt
        simpa [Pool.move, hlt] using htask
      exact hown hfile hslot
    · have hsame : p.tasks[j]? = some task' := by
        rw [← htask]
        exact (List.getElem?_set_ne (Ne.symm hj)).symm
      exact h.done hfile hsame ((hothers j hj).symm.trans hslot)

theorem step (h : Sound files analyze p) (hstep : Step workers files analyze p q) :
    Sound files analyze q := by
  have keep := @move files analyze p h
  cases hstep with
  | launch _ _ _ => exact keep rfl (fun _ _ => rfl) fun _ _ => trivial
  | enter _ _ => exact keep rfl (fun _ _ => rfl) fun _ _ => trivial
  | refuse _ hstop => exact absurd (h.cancelled.symm.trans hstop) Bool.false_ne_true
  | @analyse i file htask hfile =>
    refine keep rfl (fun _ _ => rfl) fun {file' _} hfile' _ => ?_
    obtain rfl : file = file' := Option.some.inj (hfile.symm.trans hfile')
    exact rfl
  | @store i result htask =>
    refine keep List.length_set (fun j hj => List.getElem?_set_ne (Ne.symm hj)) ?_
    intro file slot hfile hslot
    have hlt := (List.getElem?_eq_some_iff.1 hfile).1
    rw [← h.length_slots] at hlt
    obtain rfl : some result = slot := by simpa [hlt] using hslot
    exact congrArg some (h.done hfile htask (List.getElem?_eq_getElem hlt))
  | @finish i htask =>
    refine keep rfl (fun _ _ => rfl) fun {file slot} hfile hslot => ?_
    have hdone : slot = some (analyze file) := h.done hfile htask hslot
    exact hdone

theorem run (hrun : Relation.ReflTransGen (Step workers files analyze) (Pool.start files.length) p) :
    Sound files analyze p := by
  induction hrun with
  | refl => exact start files analyze
  | tail _ hstep ih => exact ih.step hstep

/-- At the end every slot holds the result of its file. -/
theorem slots_eq (h : Sound files analyze p) (hended : p.Ended) :
    p.slots = files.map fun file => some (analyze file) := by
  refine List.ext_getElem? fun i => ?_
  rw [List.getElem?_map]
  cases hfile : files[i]? with
  | none =>
    rw [List.getElem?_eq_none_iff, ← h.length_slots] at hfile
    exact List.getElem?_eq_none hfile
  | some file =>
    have hlt := (List.getElem?_eq_some_iff.1 hfile).1
    obtain ⟨task, htask⟩ : ∃ task, p.tasks[i]? = some task :=
      ⟨_, List.getElem?_eq_getElem (h.length_tasks.symm ▸ hlt)⟩
    obtain ⟨slot, hslot⟩ : ∃ slot, p.slots[i]? = some slot :=
      ⟨_, List.getElem?_eq_getElem (h.length_slots.symm ▸ hlt)⟩
    obtain rfl := hended task (List.mem_of_getElem? htask)
    have hdone : slot = some (analyze file) := h.done hfile htask hslot
    rw [hslot, hdone]
    rfl

theorem batch?_eq (h : Sound files analyze p) (hended : p.Ended) :
    p.batch? = some (Batch.ofList (files.map analyze)) := by
  have hslots : p.slots.mapM id = some (files.map analyze) := by
    rw [h.slots_eq hended, List.mapM_map]
    exact List.mapM_pure
  rw [batch?, h.failed, hslots]
  rfl

end Sound

/-! ## Runs come to an end -/

/-- The greatest number of steps that are left. -/
def stepsLeft (p : Pool) : Nat := (p.tasks.map Task.stepsLeft).sum

theorem stepsLeft_move (p : Pool) {i : Nat} {task : Task} (h : p.tasks[i]? = some task)
    (task' : Task) : (p.move i task').stepsLeft + task.stepsLeft = p.stepsLeft + task'.stepsLeft := by
  obtain ⟨hlt, rfl⟩ := List.getElem?_eq_some_iff.1 h
  have hsame : p.tasks.set i p.tasks[i] = p.tasks := List.set_getElem_self hlt
  have hbefore := List.sum_set (p.tasks.map Task.stepsLeft) i p.tasks[i].stepsLeft
  have hafter := List.sum_set (p.tasks.map Task.stepsLeft) i task'.stepsLeft
  rw [← List.map_set, List.length_map, if_pos hlt] at hbefore hafter
  rw [hsame] at hbefore
  change ((p.tasks.set i task').map Task.stepsLeft).sum + p.tasks[i].stepsLeft =
    (p.tasks.map Task.stepsLeft).sum + task'.stepsLeft
  omega

theorem stepsLeft_lt (h : Step workers files analyze p q) : q.stepsLeft < p.stepsLeft := by
  have less : ∀ {i task task'}, p.tasks[i]? = some task → task'.stepsLeft < task.stepsLeft →
      (p.move i task').stepsLeft < p.stepsLeft := by
    intro i task task' htask hlt
    have hmove := stepsLeft_move p htask task'
    omega
  cases h with
  | launch h _ _ => exact less h (by decide)
  | enter h _ => exact less h (by decide)
  | refuse h _ => exact less h (by decide)
  | analyse h _ => exact less h (Nat.lt_succ_self 2)
  | store h => exact less h (Nat.lt_succ_self 1)
  | finish h => exact less h (by decide)

/-- No run goes on for ever. -/
theorem step_wellFounded (workers : Nat) (files : List Path) (analyze : Path → FileResult) :
    WellFounded fun q p => Step workers files analyze p q :=
  Subrelation.wf stepsLeft_lt (measure stepsLeft).wf

/-- A task that keeps a worker busy can move on. -/
theorem exists_step_of_isRunning (h : Sound files analyze p) {i : Nat} {task : Task}
    (htask : p.tasks[i]? = some task) (hrunning : task.isRunning = true) :
    ∃ q, Step workers files analyze p q := by
  cases task with
  | waiting => cases hrunning
  | started => exact ⟨_, .enter htask h.cancelled⟩
  | admitted =>
    have hlt := (List.getElem?_eq_some_iff.1 htask).1
    rw [h.length_tasks] at hlt
    exact ⟨_, .analyse htask (List.getElem?_eq_getElem hlt)⟩
  | analysed result => exact ⟨_, .store htask⟩
  | stored => exact ⟨_, .finish htask⟩
  | returned => cases hrunning

/-- With a worker, a run that has not come to its end can go on. -/
theorem exists_step (h : Sound files analyze p) (hworkers : 1 ≤ workers) (hended : ¬p.Ended) :
    ∃ q, Step workers files analyze p q := by
  by_cases hidle : p.running = 0
  · -- all workers are free, so the first task that waits can be launched
    have hwaits : ∃ i : Nat, p.tasks[i]? = some .waiting := by
      unfold Ended at hended
      push Not at hended
      obtain ⟨task, hmem, hne⟩ := hended
      have hfree := List.countP_eq_zero.1 hidle task hmem
      obtain ⟨i, htask⟩ := List.getElem?_of_mem hmem
      cases task with
      | waiting => exact ⟨i, htask⟩
      | returned => exact absurd rfl hne
      | _ => exact absurd rfl hfree
    classical
    refine ⟨_, .launch (Nat.find_spec hwaits) (fun j hj => Nat.find_min hwaits hj) ?_⟩
    omega
  · obtain ⟨task, hmem, hrunning⟩ := List.countP_pos_iff.1 (Nat.pos_of_ne_zero hidle)
    obtain ⟨i, htask⟩ := List.getElem?_of_mem hmem
    exact exists_step_of_isRunning h htask hrunning

theorem exists_ended (h : Sound files analyze p) (hworkers : 1 ≤ workers) :
    ∃ q, Relation.ReflTransGen (Step workers files analyze) p q ∧ q.Ended := by
  induction p using (step_wellFounded workers files analyze).induction with
  | _ p ih =>
    by_cases hended : p.Ended
    · exact ⟨p, .refl, hended⟩
    · obtain ⟨q, hstep⟩ := exists_step h hworkers hended
      obtain ⟨last, hrun, hlast⟩ := ih q hstep (h.step hstep)
      exact ⟨last, .head hstep hrun, hlast⟩

end Pool

/-! ## The results of the files -/

/-- Taken at all its places, in their order, a list is itself. -/
theorem filterMap_getElem?_range {α : Type} (l : List α) :
    (List.range l.length).filterMap (l[·]?) = l := by
  induction l with
  | nil => rfl
  | cons x l ih =>
    rw [List.length_cons, List.range_succ_eq_map, List.filterMap_cons, List.filterMap_map]
    simpa using ih

theorem Bytes.ofString_ne_nil {s : String} (h : s ≠ "") : Bytes.ofString s ≠ [] := by
  unfold Bytes.ofString
  cases hs : s.toList with
  | nil => exact absurd (String.toList_eq_nil_iff.1 hs) h
  | cons c rest =>
    have hc : String.utf8EncodeChar c ≠ [] := by
      have hlength := String.length_utf8EncodeChar c
      have hpos := c.utf8Size_pos
      intro hnil
      rw [hnil] at hlength
      simp at hlength
      omega
    simp [hc]

/-- An error always has a text. -/
theorem AnalysisError.message_ne_nil (e : AnalysisError) : e.message ≠ [] := by
  have head : ∀ {s : String} {after : Bytes}, s ≠ "" → Bytes.ofString s ++ after ≠ [] :=
    fun hs => List.append_ne_nil_of_left_ne_nil (Bytes.ofString_ne_nil hs) _
  cases e with
  | unreadable file error =>
    simp only [message, List.append_assoc]
    exact head (by decide)
  | tooLarge file kilobytes =>
    simp only [message, List.append_assoc]
    exact List.append_ne_nil_of_right_ne_nil _ (head (by decide))
  | source error =>
    cases error with
    | parse file error =>
      simp only [message, SourceError.message, Bytes.ofString_append, List.append_assoc]
      exact head (by decide)
    | recursion error =>
      change Bytes.ofString error.message ≠ []
      unfold RecursionError.message
      rw [Bytes.ofString_append]
      exact head (by decide)

theorem LineTable.total_nonneg (entries : List (Int × Int64)) : 0 ≤ (total entries).toInt := by
  rw [toInt_total]
  refine le_min (by decide) (List.sum_nonneg fun cost hcost => ?_)
  obtain ⟨entry, -, rfl⟩ := List.mem_map.1 hcost
  exact Int.le_max_right _ _

namespace Analyzer

variable {a : Analyzer} {disk : Disk} {file : Path} {files : List Path}

/-- The summary of a file bears its name, and its total is a sum of costs. -/
theorem analyzeFile_eq_ok {summary : FileSummary} (h : a.analyzeFile disk file = .ok summary) :
    summary.file = file ∧ 0 ≤ summary.total.toInt := by
  unfold analyzeFile summarize examineFile at h
  cases hload : a.load disk file with
  | error e =>
    rw [hload] at h
    cases h
  | ok source =>
    rw [hload] at h
    change ((a.examine file source).result a.settings).mapError AnalysisError.source =
      .ok summary at h
    have hresult : (a.examine file source).result a.settings = .ok summary := by
      cases hresult : (a.examine file source).result a.settings with
      | error e =>
        rw [hresult] at h
        cases h
      | ok summary' =>
        rw [hresult] at h
        cases h
        rfl
    unfold Examination.result at hresult
    split at hresult
    · cases hresult
    · split at hresult
      · cases hresult
      · cases hresult
        exact ⟨rfl, LineTable.total_nonneg _⟩

/-- The result of a file that is analysed by itself. -/
def resultOf (a : Analyzer) (disk : Disk) (file : Path) : FileResult :=
  toResult file (a.analyzeFile disk file)

theorem file_resultOf (a : Analyzer) (disk : Disk) (file : Path) :
    (a.resultOf disk file).file = file := by
  unfold resultOf
  cases h : a.analyzeFile disk file with
  | ok summary => exact (analyzeFile_eq_ok h).1
  | error e => rfl

/-- A result is worth its total, which is zero for one that failed. -/
theorem worth_resultOf (a : Analyzer) (disk : Disk) (file : Path) :
    (Saturating.worth (a.resultOf disk file).total : Int) = (a.resultOf disk file).total.toInt := by
  rw [Saturating.natCast_worth]
  refine max_eq_left ?_
  unfold resultOf
  cases h : a.analyzeFile disk file with
  | ok summary => exact (analyzeFile_eq_ok h).2
  | error e => exact le_refl 0

/-- What a batch holds for a list of files. -/
structure Covers (a : Analyzer) (disk : Disk) (files : List Path) (batch : Batch) : Prop where
  files_eq : batch.files = files
  analysed : ∀ {i : Nat} {file : Path} {summary : FileSummary}, files[i]? = some file →
    a.analyzeFile disk file = .ok summary → batch.results[i]? = some (.analysed summary)
  failed : ∀ {i : Nat} {file : Path} {e : AnalysisError}, files[i]? = some file →
    a.analyzeFile disk file = .error e →
      batch.results[i]? = some (.failed file e.message) ∧ e.message ≠ []
  failures_eq : batch.failures = batch.results.countP fun result => result.error?.isSome
  total_eq : batch.total.toInt = min Int64.maxValue.toInt
    ((batch.results.filter fun result => result.error?.isNone).map (·.total.toInt)).sum

theorem analyzeFiles_eq (a : Analyzer) (disk : Disk) (files : List Path) :
    a.analyzeFiles disk files = Batch.ofList (files.map (a.resultOf disk)) := rfl

theorem sum_worth (a : Analyzer) (disk : Disk) (files : List Path) :
    (((files.map (a.resultOf disk)).map fun result => Saturating.worth result.total).sum : Int) =
      (((files.map (a.resultOf disk)).filter fun result => result.error?.isNone).map
        (·.total.toInt)).sum := by
  induction files with
  | nil => rfl
  | cons file files ih =>
    have hworth := worth_resultOf a disk file
    simp only [List.map_cons, List.sum_cons, Nat.cast_add, ih, hworth]
    cases hresult : a.resultOf disk file with
    | analysed summary => simp [FileResult.error?]
    | failed file error => simp [FileResult.error?, FileResult.total]

theorem analyzeFiles_covers (a : Analyzer) (disk : Disk) (files : List Path) :
    a.Covers disk files (a.analyzeFiles disk files) := by
  rw [analyzeFiles_eq]
  constructor
  case files_eq =>
    unfold Batch.files
    rw [Batch.results_ofList, List.map_map]
    exact (List.map_congr_left fun file _ => file_resultOf a disk file).trans (List.map_id files)
  case analysed =>
    intro i file summary hfile hok
    rw [Batch.results_ofList, List.getElem?_map, hfile]
    exact congrArg some (congrArg (toResult file) hok)
  case failed =>
    intro i file e hfile herror
    rw [Batch.results_ofList, List.getElem?_map, hfile]
    exact ⟨congrArg some (congrArg (toResult file) herror), e.message_ne_nil⟩
  case failures_eq => rw [Batch.results_ofList, Batch.failures_ofList]
  case total_eq =>
    rw [Batch.results_ofList, Batch.total_ofList, Saturating.toInt_ofNat, sum_worth]
    rfl

/-- Files in another order give the same results in that order. -/
theorem analyzeFiles_of_perm (a : Analyzer) (disk : Disk) (files : List Path) {places : List Nat}
    (h : places.Perm (List.range files.length)) :
    (a.analyzeFiles disk (places.filterMap (files[·]?))).results =
        places.filterMap ((a.analyzeFiles disk files).results[·]?) ∧
      (a.analyzeFiles disk (places.filterMap (files[·]?))).failures =
        (a.analyzeFiles disk files).failures ∧
      (a.analyzeFiles disk (places.filterMap (files[·]?))).total =
        (a.analyzeFiles disk files).total := by
  have hperm : (places.filterMap (files[·]?)).Perm files :=
    (h.filterMap _).trans (List.Perm.of_eq (filterMap_getElem?_range files))
  obtain ⟨hfailures, htotal⟩ := Batch.ofList_of_perm (hperm.symm.map (a.resultOf disk))
  refine ⟨?_, hfailures, htotal⟩
  rw [analyzeFiles_eq, analyzeFiles_eq, Batch.results_ofList, Batch.results_ofList,
    List.map_filterMap]
  simp only [List.getElem?_map]

/-- One step of the pool that analyses files with as many workers as the settings allow. -/
def PoolStep (a : Analyzer) (disk : Disk) (files : List Path) : Pool → Pool → Prop :=
  Pool.Step a.settings.analysis.maxWorkers.toNatClampNeg files (a.resultOf disk)

end Analyzer

/-- **The order in which files are analysed cannot be seen.** Let a pool with at least one worker
analyse a list of files and not be cancelled. No run of it goes on for ever, and each can be brought to
its end; there, whatever the order in which tasks started, went on and returned, it has the batch that
the files give one by one: the files in their order, each with what analysing it alone gives or with the
text of its error, the number of those that failed, and the sum of the other totals up to the cap. The
files in another order give the same results in that order, as many failures and the same total. -/
theorem batch_same_under_any_schedule (a : Analyzer) (disk : Disk) (files : List Path)
    (hworkers : 1 ≤ a.settings.analysis.maxWorkers) :
    (WellFounded fun q p => a.PoolStep disk files p q) ∧
    (∀ p, Relation.ReflTransGen (a.PoolStep disk files) (Pool.start files.length) p →
      (∃ q, Relation.ReflTransGen (a.PoolStep disk files) p q ∧ q.Ended) ∧
      (p.Ended → p.batch? = some (a.analyzeFiles disk files))) ∧
    a.Covers disk files (a.analyzeFiles disk files) ∧
    ∀ places : List Nat, places.Perm (List.range files.length) →
      (a.analyzeFiles disk (places.filterMap (files[·]?))).results =
          places.filterMap ((a.analyzeFiles disk files).results[·]?) ∧
        (a.analyzeFiles disk (places.filterMap (files[·]?))).failures =
          (a.analyzeFiles disk files).failures ∧
        (a.analyzeFiles disk (places.filterMap (files[·]?))).total =
          (a.analyzeFiles disk files).total := by
  have hlimit : 1 ≤ a.settings.analysis.maxWorkers.toNatClampNeg := by
    rw [Int64.le_iff_toInt_le] at hworkers
    change 1 ≤ a.settings.analysis.maxWorkers.toInt.toNat
    have hone : (1 : Int64).toInt = 1 := rfl
    omega
  refine ⟨Pool.step_wellFounded _ _ _, fun p hrun => ?_, a.analyzeFiles_covers disk files,
    fun places hplaces => a.analyzeFiles_of_perm disk files hplaces⟩
  have hsound := Pool.Sound.run hrun
  exact ⟨Pool.exists_ended hsound hlimit, hsound.batch?_eq⟩

/-- A disk with one file, which is empty. -/
def oneEmptyFile : Disk := { root := .directory [("a.frag", .file [])] }

/-- Of two files one is missing; whichever is looked at first, it is the first result that failed. -/
theorem batch_same_under_any_schedule_oneMissing :
    (1 : Int64) ≤ ({} : Analyzer).settings.analysis.maxWorkers ∧
    (∃ p, Relation.ReflTransGen (({} : Analyzer).PoolStep oneEmptyFile ["b.frag", "a.frag"])
      (Pool.start 2) p ∧ p.Ended) ∧
    ∀ p, Relation.ReflTransGen (({} : Analyzer).PoolStep oneEmptyFile ["b.frag", "a.frag"])
      (Pool.start 2) p → p.Ended →
      ∃ batch, p.batch? = some batch ∧ batch.files = ["b.frag", "a.frag"] ∧ batch.failures = 1 ∧
        batch.total = 0 ∧
        (({} : Analyzer).analyzeFiles oneEmptyFile ["a.frag", "b.frag"]).failures = 1 := by
  have hworkers : (1 : Int64) ≤ ({} : Analyzer).settings.analysis.maxWorkers := by decide
  have hfailures : (({} : Analyzer).analyzeFiles oneEmptyFile ["b.frag", "a.frag"]).failures = 1 := by
    decide +kernel
  have htotal : (({} : Analyzer).analyzeFiles oneEmptyFile ["b.frag", "a.frag"]).total = 0 := by
    decide +kernel
  obtain ⟨-, hruns, hcovers, horders⟩ :=
    batch_same_under_any_schedule {} oneEmptyFile ["b.frag", "a.frag"] hworkers
  refine ⟨hworkers, (hruns _ .refl).1, fun p hrun hended => ?_⟩
  refine ⟨_, (hruns p hrun).2 hended, hcovers.files_eq, hfailures, htotal, ?_⟩
  exact (horders [1, 0] (List.Perm.swap 0 1 [])).2.1.trans hfailures

end ShaderCost
