import ShaderCost.Proofs.Cost.Saturation
import ShaderCost.Report.Summary

/-! # What a batch adds up to

A batch takes its results one after another. Its results are those it was given, in their order
(`results_ofList`); its failures are the results with an error (`failures_ofList`), and its total is
the sum of what the others are worth, cut off at the cap (`total_ofList`). The last two are counts and
sums, so the order of the results makes no difference to them.
-/

namespace ShaderCost

namespace Batch

theorem foldl_add (results : List FileResult) (batch : Batch) :
    (results.foldl add batch).results = batch.results ++ results ∧
      (results.foldl add batch).failures =
        batch.failures + results.countP fun result => result.error?.isSome := by
  induction results generalizing batch with
  | nil => simp
  | cons result results ih =>
    obtain ⟨hresults, hfailures⟩ := ih (batch.add result)
    rw [List.foldl_cons, hresults, hfailures, List.countP_cons]
    cases result with
    | analysed summary => simp [add, FileResult.error?]
    | failed file error =>
      simp only [add, FileResult.error?, Option.isSome_some, if_true, List.append_assoc,
        List.singleton_append, true_and]
      omega

@[simp]
theorem results_ofList (results : List FileResult) : (ofList results).results = results := by
  unfold ofList
  simpa using (foldl_add results {}).1

theorem failures_ofList (results : List FileResult) :
    (ofList results).failures = results.countP fun result => result.error?.isSome := by
  unfold ofList
  simpa using (foldl_add results {}).2

theorem hasFailures_ofList (results : List FileResult) :
    (ofList results).hasFailures = false ↔ ∀ result ∈ results, result.error? = none := by
  unfold hasFailures
  rw [failures_ofList]
  simp

/-! ## Totals -/

open Saturating

theorem total_add {batch : Batch} {n : Nat} (h : batch.total = ofNat n) (result : FileResult) :
    (batch.add result).total = ofNat (n + worth result.total) := by
  cases result with
  | analysed summary =>
    change Saturating.add batch.total summary.total = ofNat (n + worth summary.total)
    rw [h, add_eq_ofNat, ofNat_worth_add]
  | failed file error => exact h

theorem total_foldl_add (results : List FileResult) {batch : Batch} {n : Nat}
    (h : batch.total = ofNat n) : (results.foldl add batch).total =
      ofNat (n + (results.map fun result => worth result.total).sum) := by
  induction results generalizing batch n with
  | nil => exact h
  | cons result results ih =>
    rw [List.foldl_cons, ih (total_add h result), List.map_cons, List.sum_cons, Nat.add_assoc]

theorem total_ofList (results : List FileResult) :
    (ofList results).total = ofNat (results.map fun result => worth result.total).sum := by
  have hempty : ({} : Batch).total = ofNat 0 := rfl
  unfold ofList
  rw [total_foldl_add results hempty, Nat.zero_add]

/-- Failures and total do not depend on the order of the results. -/
theorem ofList_of_perm {results results' : List FileResult} (h : results.Perm results') :
    (ofList results').failures = (ofList results).failures ∧
      (ofList results').total = (ofList results).total := by
  rw [failures_ofList, failures_ofList, total_ofList, total_ofList]
  exact ⟨(h.countP_eq _).symm, congrArg ofNat (h.map _).sum_eq.symm⟩

end Batch

end ShaderCost
