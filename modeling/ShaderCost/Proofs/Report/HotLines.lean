import Mathlib.Algebra.Order.BigOperators.Group.List
import ShaderCost.Proofs.Report.Enumeration

/-! # The hottest lines

The lines of a table are ranked by two sorts: first by line, then by cost. Sorting keeps the order
of entries that tie (`filter_mergeSort_of_tied`), so of equal costs the earlier line comes first,
and since no two entries of a table have the same line there are no other ties
(`LineTable.ranked_pairwise`). Whatever is cut off from such a ranking comes behind all of what is
kept, which makes the kept lines the top of the table (`TopLines.of_ranked`).
-/

namespace ShaderCost

/-! ## Sorting keeps what ties -/

section Stable

variable {α : Type} {le : α → α → Bool}
  (htrans : ∀ a b c, le a b = true → le b c = true → le a c = true)
  (htotal : ∀ a b, (le a b || le b a) = true)
include htrans htotal

/-- Entries that all tie with each other come out of a sort in the order in which they went in. -/
theorem filter_mergeSort_of_tied {tied : α → Bool}
    (htied : ∀ a b, tied a = true → tied b = true → le a b = true) (l : List α) :
    (l.mergeSort le).filter tied = l.filter tied := by
  have hsorted : (l.filter tied).Pairwise fun a b => le a b = true := by
    refine List.pairwise_of_forall_mem_list fun a ha b hb => ?_
    exact htied a b (List.mem_filter.1 ha).2 (List.mem_filter.1 hb).2
  have hkept : (l.filter tied).Sublist ((l.mergeSort le).filter tied) := by
    have hfiltered := (List.sublist_mergeSort htrans htotal hsorted List.filter_sublist).filter tied
    simpa only [List.filter_filter, Bool.and_self] using hfiltered
  exact (hkept.eq_of_length ((List.mergeSort_perm l le).filter tied).length_eq.symm).symm

/-- What holds along a list holds after a sort along each run of ties. -/
theorem pairwise_mergeSort_of_tied {r : α → α → Prop} {l : List α} (h : l.Pairwise r) :
    (l.mergeSort le).Pairwise fun a b => le a b = true ∧ (le b a = true → r a b) := by
  rw [List.pairwise_iff_forall_sublist]
  intro a b hpair
  have hab : le a b = true :=
    List.pairwise_iff_forall_sublist.1 (List.pairwise_mergeSort htrans htotal l) hpair
  refine ⟨hab, fun hba => ?_⟩
  -- the two stand in the same order among the entries that tie with the first of them
  have haa : le a a = true := htrans a b a hab hba
  have hboth : [a, b].filter (fun x => le x a && le a x) = [a, b] := by
    simp [haa, hab, hba]
  have hfiltered := hpair.filter fun x => le x a && le a x
  rw [hboth, filter_mergeSort_of_tied htrans htotal] at hfiltered
  · exact List.pairwise_iff_forall_sublist.1 h (hfiltered.trans List.filter_sublist)
  · intro x y hx hy
    rw [Bool.and_eq_true] at hx hy
    exact htrans x a y hx.1 hy.2

end Stable

/-! ## The ranking -/

namespace LineTable

/-- The first entry comes before the second: it costs more, or the same on an earlier line. -/
def Outranks (a b : Int × Int64) : Prop := b.2 < a.2 ∨ a.2 = b.2 ∧ a.1 < b.1

theorem ranked_perm (entries : List (Int × Int64)) :
    (ranked entries).Perm (entries.filter (0 < ·.2)) :=
  (List.mergeSort_perm _ _).trans (List.mergeSort_perm _ _)

/-- Of entries with different lines each outranks all that come behind it. -/
theorem ranked_pairwise {entries : List (Int × Int64)}
    (hlines : entries.Pairwise fun a b => a.1 ≠ b.1) : (ranked entries).Pairwise Outranks := by
  have hbyLine : ((entries.filter (0 < ·.2)).mergeSort (·.1 ≤ ·.1)).Pairwise
      fun a b => a.1 < b.1 := by
    have hdistinct := (List.mergeSort_perm (entries.filter (0 < ·.2))
      (·.1 ≤ ·.1)).symm.pairwise (hlines.filter _) Ne.symm
    refine ((List.pairwise_mergeSort (fun a b c hab hbc => ?_) (fun a b => ?_) _).and
      hdistinct).imp fun hab => ?_
    · simp only [decide_eq_true_eq] at *
      omega
    · simpa using le_total a.1 b.1
    · exact lt_of_le_of_ne (of_decide_eq_true hab.1) hab.2
  refine (pairwise_mergeSort_of_tied (fun a b c hab hbc => ?_) (fun a b => ?_) hbyLine).imp ?_
  · simp only [ge_iff_le, decide_eq_true_eq] at *
    exact Int64.le_trans hbc hab
  · simpa using Int64.le_total b.2 a.2
  · intro a b hab
    simp only [ge_iff_le, decide_eq_true_eq] at hab
    by_cases htie : a.2 ≤ b.2
    · exact Or.inr ⟨Int64.le_antisymm htie hab.1, hab.2 htie⟩
    · exact Or.inl (Int64.not_le.1 htie)

/-- Different entries of a table have different lines. -/
theorem distinct_lines (lines : LineTable Int64) :
    lines.toList.Pairwise fun a b => a.1 ≠ b.1 := by
  refine lines.distinct_keys_toList.imp fun hab => ?_
  rwa [Ne, ← Std.LawfulEqOrd.compare_eq_iff_eq]

/-- The ranking holds the positive entries of the table. -/
theorem mem_ranked {lines : LineTable Int64} {line : Int} {cost : Int64} :
    (line, cost) ∈ ranked lines.toList ↔ lines[line]? = some cost ∧ 0 < cost := by
  rw [(ranked_perm _).mem_iff, List.mem_filter, Std.TreeMap.mem_toList_iff_getElem?_eq_some,
    decide_eq_true_iff]

/-! ## Totals and largest costs -/

theorem toInt_foldl_add (entries : List (Int × Int64)) {sum : Int64} (hsum : 0 ≤ sum.toInt) :
    (entries.foldl (fun sum entry => Tally.add sum entry.2) sum).toInt =
      min Int64.maxValue.toInt
        (sum.toInt + (entries.map fun entry => max entry.2.toInt 0).sum) := by
  have hcap : Int64.maxValue.toInt = 9223372036854775807 := Saturating.toInt_cap
  induction entries generalizing sum with
  | nil =>
    have hle := Int64.toInt_le sum
    rw [List.foldl_nil, List.map_nil, List.sum_nil]
    omega
  | cons entry entries ih =>
    have hadd : (Tally.add sum entry.2).toInt =
        min Int64.maxValue.toInt (max sum.toInt 0 + max entry.2.toInt 0) :=
      Saturating.toInt_add sum entry.2
    have hrest : 0 ≤ (entries.map fun entry => max entry.2.toInt 0).sum := by
      refine List.sum_nonneg fun cost hcost => ?_
      obtain ⟨entry, -, rfl⟩ := List.mem_map.1 hcost
      exact Int.le_max_right _ _
    rw [List.foldl_cons, ih (by omega), List.map_cons, List.sum_cons]
    omega

/-- The total is the sum of the costs up to the cap, where no cost counts for less than zero. -/
theorem toInt_total (entries : List (Int × Int64)) : (total entries).toInt =
    min Int64.maxValue.toInt (entries.map fun entry => max entry.2.toInt 0).sum := by
  have hzero : (0 : Int64).toInt = 0 := rfl
  have hfold := toInt_foldl_add entries (Int.le_of_eq hzero.symm)
  rw [hzero, Int.zero_add] at hfold
  exact hfold

/-- The largest cost is the cost of a line, where there is one, and no line costs more. -/
theorem largest_greatest (lines : LineTable Int64) :
    (∀ (line : Int) cost, lines[line]? = some cost → cost ≤ largest lines.toList) ∧
      ((∃ line : Int, lines[line]? = some (largest lines.toList)) ∨
        lines.toList = [] ∧ largest lines.toList = 0) := by
  have hcosts : ∀ cost, cost ∈ lines.toList.map (·.2) ↔ ∃ line : Int, lines[line]? = some cost := by
    intro cost
    simp only [List.mem_map, Prod.exists, Std.TreeMap.mem_toList_iff_getElem?_eq_some,
      exists_eq_right]
  unfold largest
  cases hlist : lines.toList.map (·.2) with
  | nil =>
    have hnone : lines.toList = [] := List.map_eq_nil_iff.1 hlist
    refine ⟨fun line cost hline => ?_, Or.inr ⟨hnone, rfl⟩⟩
    have hmem := (hcosts cost).2 ⟨line, hline⟩
    rw [hlist] at hmem
    cases hmem
  | cons first others =>
    rw [hlist] at hcosts
    obtain ⟨hmem, hle⟩ := foldl_max_greatest first others
    refine ⟨fun line cost hline => ?_, Or.inl ((hcosts _).1 hmem)⟩
    exact hle cost ((hcosts cost).2 ⟨line, hline⟩)

end LineTable

/-! ## The top -/

/-- A hot line as an entry of its table. -/
def HotLine.entry (hot : HotLine) : Int × Int64 := (hot.line, hot.cost)

/-- The first `count` of the positive entries of a table: no more of them than asked for and no
fewer than there are, each once and with its cost, in their order, and before all others. -/
structure TopLines (lines : LineTable Int64) (count : Nat) (top : List HotLine) : Prop where
  length : top.length = min count (lines.toList.countP (0 < ·.2))
  distinct : (top.map (·.line)).Nodup
  costs : ∀ hot ∈ top, lines[hot.line]? = some hot.cost ∧ 0 < hot.cost
  ordered : top.Pairwise fun a b => LineTable.Outranks a.entry b.entry
  others : ∀ (line : Int) cost, lines[line]? = some cost → 0 < cost → line ∉ top.map (·.line) →
    ∀ hot ∈ top, LineTable.Outranks hot.entry (line, cost)

/-- What is kept of the ranking is the top of the table. -/
theorem TopLines.of_ranked {lines : LineTable Int64} {count : Nat} {top : List HotLine}
    (h : top.map HotLine.entry = (LineTable.ranked lines.toList).take count) :
    TopLines lines count top := by
  have hranked := LineTable.ranked_pairwise (LineTable.distinct_lines lines)
  have hkept : ∀ hot ∈ top, hot.entry ∈ (LineTable.ranked lines.toList).take count := by
    intro hot hhot
    rw [← h]
    exact List.mem_map_of_mem hhot
  have hcosts : ∀ hot ∈ top, lines[hot.line]? = some hot.cost ∧ 0 < hot.cost :=
    fun hot hhot => LineTable.mem_ranked.1 (List.mem_of_mem_take (hkept hot hhot))
  have hordered : top.Pairwise fun a b => LineTable.Outranks a.entry b.entry := by
    rw [← List.pairwise_map, h]
    exact hranked.sublist (List.take_sublist _ _)
  refine ⟨?_, ?_, hcosts, hordered, fun line cost hline hpos hnot hot hhot => ?_⟩
  · rw [← List.length_map HotLine.entry, h, List.length_take, (LineTable.ranked_perm _).length_eq,
      ← List.countP_eq_length_filter]
  · refine List.pairwise_map.2 (hordered.imp_of_mem fun {a b} ha hb hab heq => ?_)
    have hsame : a.cost = b.cost := by
      have hfirst := (hcosts a ha).1
      rw [heq, (hcosts b hb).1] at hfirst
      exact (Option.some.inj hfirst).symm
    rcases hab with hless | ⟨-, hless⟩
    · exact Int64.ne_of_lt hless hsame.symm
    · exact Int.ne_of_lt hless heq
  · have hmem := LineTable.mem_ranked.2 ⟨hline, hpos⟩
    rw [← List.take_append_drop count (LineTable.ranked lines.toList)] at hranked hmem
    rcases List.mem_append.1 hmem with htake | hdrop
    · rw [← h] at htake
      obtain ⟨listed, hlisted, hentry⟩ := List.mem_map.1 htake
      exact absurd (List.mem_map.2 ⟨listed, hlisted, congrArg Prod.fst hentry⟩) hnot
    · exact (List.pairwise_append.1 hranked).2.2 _ (hkept hot hhot) _ hdrop

/-! ## The text of a line -/

theorem FileSummary.sourceLine_of_index (source : List Bytes) {index : Nat}
    (h : index < source.length) :
    source[index]? = some (FileSummary.sourceLine source (index + 1)) := by
  have hpos : ¬ (index : Int) + 1 < 1 := by omega
  have hindex : ((index : Int) + 1 - 1).toNat = index := by omega
  unfold FileSummary.sourceLine
  rw [if_neg hpos, hindex, List.getElem?_eq_getElem h, Option.getD_some]

theorem FileSummary.sourceLine_of_outside (source : List Bytes) {line : Int}
    (h : line < 1 ∨ (source.length : Int) < line) : FileSummary.sourceLine source line = [] := by
  unfold FileSummary.sourceLine
  split
  · rfl
  · next hpos =>
    have hlength : source.length ≤ (line - 1).toNat := by omega
    rw [List.getElem?_eq_none hlength, Option.getD_none]

/-- The hot lines of a summary are the top of its table, each with its heat and its text: line one
has the first text of the source, and a line that the source does not have is shown without a text.
The total is the sum of the costs that are not negative, up to the cap, and the largest cost is the
greatest of the costs, or zero where there are none. -/
theorem hot_lines_are_top (file : String) (source : List Bytes) (lines : LineTable Int64)
    (functions : Option (List FunctionSummary)) (loops : List LoopSummary) (topLines : Nat)
    (thresholds : HeatThresholds) :
    let summary := FileSummary.ofLines file source lines functions loops topLines thresholds
    TopLines lines topLines summary.hotLines ∧
    (∀ hot ∈ summary.hotLines,
      (∀ index : Nat, index < source.length → hot.line = index + 1 →
        source[index]? = some hot.source) ∧
      (hot.line < 1 ∨ (source.length : Int) < hot.line → hot.source = []) ∧
      hot.heat = HeatLevel.ofCost thresholds hot.cost summary.largest) ∧
    summary.total.toInt =
      min Int64.maxValue.toInt (lines.toList.map fun entry => max entry.2.toInt 0).sum ∧
    (∀ (line : Int) cost, lines[line]? = some cost → cost ≤ summary.largest) ∧
    ((∃ line : Int, lines[line]? = some summary.largest) ∨
      lines.toList = [] ∧ summary.largest = 0) := by
  refine ⟨.of_ranked ?_, fun hot hhot => ?_, LineTable.toInt_total _,
    (LineTable.largest_greatest lines).1, (LineTable.largest_greatest lines).2⟩
  · exact (List.map_map ..).trans (List.map_id _)
  · obtain ⟨⟨line, cost⟩, -, rfl⟩ := List.mem_map.1 hhot
    refine ⟨fun index hindex hline => ?_, FileSummary.sourceLine_of_outside source, rfl⟩
    rw [FileSummary.sourceLine_of_index source hindex, ← hline]

end ShaderCost
