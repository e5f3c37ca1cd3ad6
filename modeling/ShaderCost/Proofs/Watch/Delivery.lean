import Mathlib.Data.List.DropRight
import ShaderCost.Proofs.Cost.ProcessingOrder
import ShaderCost.Watch.Watcher

/-! # What a queue delivers

A queue keeps one change of each path, so what it hands out can be told from the actions before: it
holds the latest change since the last flush of every path (`run_holds`), until it is stopped. From
that follows what each flush delivers, over any run of a queue (`flushes_deliver_latest`).

No handler has a part in it. Two runs that differ in their handlers only call them with the same
paths (`run_alike`).
-/

namespace ShaderCost

namespace QueueAction

def isFlush : QueueAction → Bool
  | flush _ => true
  | _ => false

/-- The change of a path that is added. -/
def changeOf? (path : Path) : QueueAction → Option FileChange
  | add path' change => if path' = path then some change else none
  | _ => none

/-- The actions are the same, but for the handlers of a flush. -/
inductive Alike : QueueAction → QueueAction → Prop where
  | add (path : Path) (change : FileChange) : Alike (.add path change) (.add path change)
  | flush (handler handler' : List Path → Option Bytes) : Alike (.flush handler) (.flush handler')
  | stop : Alike .stop .stop

/-- The actions since the last flush. -/
def sinceFlush (actions : List QueueAction) : List QueueAction :=
  actions.rtakeWhile fun action => !action.isFlush

/-- The latest change of a path. -/
def latest? (actions : List QueueAction) (path : Path) : Option FileChange :=
  actions.reverse.findSome? (changeOf? path)

/-- The paths to deliver after some actions: in strictly ascending order, all those that were added
since the last flush and whose latest change neither removed nor renamed the file. -/
structure Due (before : List QueueAction) (batch : List Path) : Prop where
  ascending : batch.Pairwise (· < ·)
  mem_iff : ∀ path, path ∈ batch ↔
    ∃ change, latest? (sinceFlush before) path = some change ∧
      change ≠ .remove ∧ change ≠ .rename

/-! ## One action more -/

variable (actions : List QueueAction) (action : QueueAction) (path : Path)

theorem sinceFlush_flush (handler : List Path → Option Bytes) :
    sinceFlush (actions ++ [flush handler]) = [] := by
  unfold sinceFlush
  rw [List.rtakeWhile_concat_neg]
  simp [isFlush]

theorem sinceFlush_concat (h : action.isFlush = false) :
    sinceFlush (actions ++ [action]) = sinceFlush actions ++ [action] := by
  unfold sinceFlush
  rw [List.rtakeWhile_concat_pos]
  simp [h]

theorem latest?_concat :
    latest? (actions ++ [action]) path = (action.changeOf? path).or (latest? actions path) := by
  unfold latest?
  rw [List.reverse_append, List.reverse_singleton, List.singleton_append, List.findSome?_cons]
  cases action.changeOf? path with
  | none => rfl
  | some change => rfl

/-! ## The change that stands

The latest change of a path since the last flush is one behind which neither a flush nor another
change of the path comes. -/

/-- A change of a path was added, and since then neither was the queue flushed nor did the path change
again. -/
def Stands (before : List QueueAction) (path : Path) (change : FileChange) : Prop :=
  ∃ earlier later, before = earlier ++ .add path change :: later ∧
    ∀ action ∈ later, action.isFlush = false ∧ action.changeOf? path = none

variable {actions action path} {change : FileChange}

theorem stands_concat : Stands (actions ++ [action]) path change ↔
    action = .add path change ∨
      (action.isFlush = false ∧ action.changeOf? path = none) ∧ Stands actions path change := by
  constructor
  · rintro ⟨earlier, later, heq, hlater⟩
    rcases List.eq_nil_or_concat later with rfl | ⟨later, last, rfl⟩
    · exact Or.inl (by simpa using (List.append_inj' heq rfl).2)
    · rw [List.concat_eq_append] at heq hlater
      rw [← List.cons_append, ← List.append_assoc] at heq
      obtain ⟨hactions, hlast⟩ := List.append_inj' heq rfl
      obtain rfl : action = last := by simpa using hlast
      refine Or.inr ⟨hlater action (by simp), earlier, later, hactions, fun a ha => ?_⟩
      exact hlater a (List.mem_append_left _ ha)
  · rintro (rfl | ⟨haction, earlier, later, rfl, hlater⟩)
    · exact ⟨actions, [], rfl, by simp⟩
    · refine ⟨earlier, later ++ [action], by simp, fun a ha => ?_⟩
      rcases List.mem_append.1 ha with ha | ha
      · exact hlater a ha
      · rwa [List.mem_singleton.1 ha]

theorem latest?_eq_some_iff_stands :
    latest? (sinceFlush actions) path = some change ↔ Stands actions path change := by
  induction actions using List.reverseRecOn with
  | nil => simp [latest?, sinceFlush, Stands]
  | append_singleton actions action ih =>
    rw [stands_concat, ← ih]
    cases action with
    | flush handler =>
      rw [sinceFlush_flush]
      simp [latest?, isFlush]
    | add path' change' =>
      rw [sinceFlush_concat _ _ rfl, latest?_concat]
      by_cases hpath : path' = path
      · simp [changeOf?, hpath]
      · simp [changeOf?, hpath, isFlush]
    | stop =>
      rw [sinceFlush_concat _ _ rfl, latest?_concat]
      simp [changeOf?, isFlush]

theorem Due.mem_iff_stands {before : List QueueAction} {batch : List Path} (h : Due before batch)
    (path : Path) :
    path ∈ batch ↔
      ∃ change, Stands before path change ∧ change ≠ .remove ∧ change ≠ .rename := by
  simp only [h.mem_iff, latest?_eq_some_iff_stands]

end QueueAction

open QueueAction

namespace ChangeQueue

variable {q : ChangeQueue}

/-! ## The paths that are handed out -/

theorem mem_changed (pending : Std.TreeMap Path FileChange) (path : Path) :
    path ∈ changed pending.toList ↔
      ∃ change, pending[path]? = some change ∧ change ≠ .remove ∧ change ≠ .rename := by
  unfold changed
  rw [List.mem_mergeSort, List.mem_map]
  constructor
  · rintro ⟨⟨path, change⟩, hentry, rfl⟩
    obtain ⟨hentry, hkept⟩ := List.mem_filter.1 hentry
    exact ⟨change, Std.TreeMap.mem_toList_iff_getElem?_eq_some.1 hentry,
      change.not_leavesNothing_iff.1 hkept⟩
  · rintro ⟨change, hentry, hkept⟩
    refine ⟨(path, change), List.mem_filter.2 ⟨?_, change.not_leavesNothing_iff.2 hkept⟩, rfl⟩
    exact Std.TreeMap.mem_toList_iff_getElem?_eq_some.2 hentry

theorem changed_pairwise (pending : Std.TreeMap Path FileChange) :
    (changed pending.toList).Pairwise (· < ·) := by
  refine sortKeys_pairwise_lt ?_
  have hkeys : pending.toList.Pairwise fun a b => a.1 ≠ b.1 := by
    refine Std.TreeMap.distinct_keys_toList.imp fun h heq => h ?_
    rw [heq]
    exact Std.ReflCmp.compare_self
  exact List.pairwise_map.2 (hkeys.filter _)

/-! ## Runs -/

theorem run_concat (q : ChangeQueue) (actions : List QueueAction) (action : QueueAction) :
    (q.run (actions ++ [action])).2 = ((q.run actions).2.act action).2 := by
  induction actions generalizing q with
  | nil => rfl
  | cons first actions ih => exact ih (q.act first).2

/-- An effect depends on what went before. -/
theorem getElem?_run (q : ChangeQueue) (before after : List QueueAction) (action : QueueAction) :
    (q.run (before ++ action :: after)).1[before.length]? =
      some ((q.run before).2.act action).1 := by
  induction before generalizing q with
  | nil => rfl
  | cons first before ih => exact ih (q.act first).2

/-- Once it is stopped, a queue never changes and calls no handler. -/
theorem act_stopped (h : q.stopped = true) (action : QueueAction) : q.act action = ({}, q) := by
  cases action with
  | add path change => simp [act, add, h]
  | flush handler => simp [act, flush, h, deliver]
  | stop =>
    have hq : q.stop = q := by
      unfold stop
      rw [← h]
    simp [act, hq]

/-- What a queue holds after some actions: the latest change of each path since the last flush, and
whether it was stopped. -/
structure Holds (before : List QueueAction) (q : ChangeQueue) : Prop where
  stopped_iff : q.stopped = true ↔ .stop ∈ before
  pending_eq : .stop ∉ before → ∀ path, q.pending[path]? = latest? (sinceFlush before) path

namespace Holds

variable {before : List QueueAction}

theorem empty : Holds [] {} := by
  refine ⟨by simp, fun _ path => ?_⟩
  exact Std.TreeMap.getElem?_emptyc

/-- What each action does to a queue. -/
theorem act (h : Holds before q) (action : QueueAction) :
    Holds (before ++ [action]) (q.act action).2 := by
  by_cases hstop : .stop ∈ before
  · rw [act_stopped (h.stopped_iff.2 hstop)]
    have hstop' : .stop ∈ before ++ [action] := List.mem_append_left [action] hstop
    exact ⟨iff_of_true (h.stopped_iff.2 hstop) hstop', fun hnot => absurd hstop' hnot⟩
  · have hrunning : q.stopped = false := by
      rw [← Bool.not_eq_true, h.stopped_iff]
      exact hstop
    have hpending := h.pending_eq hstop
    cases action with
    | add path change =>
      refine ⟨by simp [ChangeQueue.act, add, hrunning, hstop], fun _ path' => ?_⟩
      rw [sinceFlush_concat _ _ rfl, latest?_concat, ← hpending]
      simp only [ChangeQueue.act, add, hrunning, Bool.false_eq_true, if_false, changeOf?]
      rw [Std.TreeMap.getElem?_insert]
      by_cases hpath : path = path'
      · simp [hpath]
      · simp [hpath]
    | flush handler =>
      refine ⟨by simp [ChangeQueue.act, flush, hrunning, hstop], fun _ path => ?_⟩
      rw [sinceFlush_flush]
      simp [ChangeQueue.act, flush, hrunning, latest?]
    | stop =>
      have hstop' : QueueAction.stop ∈ before ++ [.stop] := by simp
      exact ⟨iff_of_true rfl hstop', fun hnot => absurd hstop' hnot⟩

/-- A flush hands out the paths that are due. -/
theorem flush_due (h : Holds before q) (hstop : .stop ∉ before) : Due before q.flush.1 := by
  have hrunning : q.stopped = false := by
    rw [← Bool.not_eq_true, h.stopped_iff]
    exact hstop
  have hflush : q.flush.1 = changed q.pending.toList := by
    simp [flush, hrunning]
  refine ⟨?_, fun path => ?_⟩
  · rw [hflush]
    exact changed_pairwise q.pending
  · rw [hflush, mem_changed, h.pending_eq hstop]

end Holds

theorem run_holds (actions : List QueueAction) :
    Holds actions (ChangeQueue.run {} actions).2 := by
  induction actions using List.reverseRecOn with
  | nil => exact .empty
  | append_singleton before action ih =>
    rw [run_concat]
    exact ih.act action

/-! ## Handlers -/

theorem deliver_handled (batch : List Path) (handler : List Path → Option Bytes) :
    (deliver batch handler).handled = if batch = [] then [] else [batch] := by
  cases batch with
  | nil => rfl
  | cons path batch => rfl

theorem act_alike {action action' : QueueAction} (h : action.Alike action') :
    (q.act action').1.handled = (q.act action).1.handled ∧
      (q.act action').2 = (q.act action).2 := by
  cases h with
  | add path change => exact ⟨rfl, rfl⟩
  | flush handler handler' => exact ⟨by simp only [act, deliver_handled], rfl⟩
  | stop => exact ⟨rfl, rfl⟩

theorem run_alike {actions actions' : List QueueAction} (h : List.Forall₂ Alike actions actions') :
    (q.run actions').1.map QueueEffect.handled = (q.run actions).1.map QueueEffect.handled := by
  induction h generalizing q with
  | nil => rfl
  | @cons action action' actions actions' haction _ ih =>
    obtain ⟨hhandled, hqueue⟩ := q.act_alike haction
    simp only [run, List.map_cons, hhandled, hqueue, ih]

end ChangeQueue

/-- **A queue delivers each change once.** Over any run of a new queue: a flush before the first stop
calls its handler once with the paths that are due, and not at all when none are; no other action
calls one, and after a stop neither a flush does nor does the queue change any more. A path is due
while a change of it stands that is neither a removal nor a renaming, so none is lost, delivered
twice or delivered when it is gone. What handlers answer makes no difference to later calls, but for
what is told of a failure. -/
theorem flushes_deliver_latest (actions : List QueueAction) :
    (∀ before action after, actions = before ++ action :: after →
      ∃ effect, (ChangeQueue.run {} actions).1[before.length]? = some effect ∧
        (∀ handler, action = .flush handler → .stop ∉ before → ∃ batch, Due before batch ∧
          (∀ path, path ∈ batch ↔
            ∃ change, Stands before path change ∧ change ≠ .remove ∧ change ≠ .rename) ∧
          effect.handled = (if batch = [] then [] else [batch]) ∧
          (batch ≠ [] → effect.told =
            (handler batch).toList.map (Watcher.handlerFailed batch))) ∧
        (action.isFlush = false ∨ .stop ∈ before → effect.handled = []) ∧
        (.stop ∈ before → (ChangeQueue.run {} (before ++ [action])).2 =
          (ChangeQueue.run {} before).2)) ∧
    ∀ actions', List.Forall₂ Alike actions actions' →
      (ChangeQueue.run {} actions').1.map QueueEffect.handled =
        (ChangeQueue.run {} actions).1.map QueueEffect.handled := by
  refine ⟨?_, fun actions' h => ChangeQueue.run_alike h⟩
  rintro before action after rfl
  have hholds := ChangeQueue.run_holds before
  refine ⟨_, ChangeQueue.getElem?_run {} before after action, ?_, ?_, ?_⟩
  · rintro handler rfl hstop
    have hdue := hholds.flush_due hstop
    refine ⟨_, hdue, hdue.mem_iff_stands, ChangeQueue.deliver_handled _ handler, fun hne => ?_⟩
    simp [ChangeQueue.act, ChangeQueue.deliver, hne]
  · rintro (hflush | hstop)
    · cases action with
      | flush handler => cases hflush
      | add path change => rfl
      | stop => rfl
    · rw [ChangeQueue.act_stopped (hholds.stopped_iff.2 hstop)]
  · intro hstop
    rw [ChangeQueue.run_concat, ChangeQueue.act_stopped (hholds.stopped_iff.2 hstop)]

end ShaderCost
