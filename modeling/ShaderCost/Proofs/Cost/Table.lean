import Mathlib.Algebra.BigOperators.Group.List.Basic
import ShaderCost.Cost.Resolution
import ShaderCost.Proofs.Cost.Tally

/-! # Tables of costs

Three ways to look at a table that is filled by a fold.

* `Entrywise r m m'`: the tables have the same keys, and their entries are related by `r`. Insertion
  keeps it, and so does every operation of the analysis that keeps `r`.
* `Image φ m m'`: the table `m'` is the table `m` with `φ` applied to every entry. Tables so related
  have the same entries in the same order, up to `φ` (`Image.toList`).
* `weighted w m`: the sum of the entries of a table of natural numbers, each times the weight of its
  key. Adding to an entry adds to the sum (`weighted_add`), so a table that is filled by additions
  sums up what was added, whatever the keys were.
-/

namespace ShaderCost

variable {κ : Type} [Ord κ] [Std.TransOrd κ]

/-! ## Related entries -/

section

variable {α β : Type}

/-- The tables have the same keys, and under each key related entries. -/
def Entrywise (r : α → β → Prop) (m : Std.TreeMap κ α) (m' : Std.TreeMap κ β) : Prop :=
  ∀ k : κ, Option.Rel r m[k]? m'[k]?

namespace Entrywise

variable {r : α → β → Prop} {m : Std.TreeMap κ α} {m' : Std.TreeMap κ β} {v : α} {v' : β}

theorem empty : Entrywise r (∅ : Std.TreeMap κ α) (∅ : Std.TreeMap κ β) := by
  intro k
  rw [Std.TreeMap.getElem?_emptyc, Std.TreeMap.getElem?_emptyc]
  exact .none

theorem insert (h : Entrywise r m m') (k : κ) (hv : r v v') :
    Entrywise r (m.insert k v) (m'.insert k v') := by
  intro a
  rw [Std.TreeMap.getElem?_insert, Std.TreeMap.getElem?_insert]
  split
  · exact .some hv
  · exact h a

omit [Std.TransOrd κ] in
/-- What the tables hold under a key. -/
theorem entries (h : Entrywise r m m') (k : κ) :
    (∃ a b, m[k]? = some a ∧ m'[k]? = some b ∧ r a b) ∨ (m[k]? = none ∧ m'[k]? = none) := by
  have hentries := h k
  generalize m[k]? = entry, m'[k]? = entry' at hentries
  cases hentries with
  | some hab => exact Or.inl ⟨_, _, rfl, rfl, hab⟩
  | none => exact Or.inr ⟨rfl, rfl⟩

theorem mem_iff (h : Entrywise r m m') (k : κ) : k ∈ m' ↔ k ∈ m := by
  rw [Std.TreeMap.mem_iff_isSome_getElem?, Std.TreeMap.mem_iff_isSome_getElem?]
  rcases h.entries k with ⟨a, b, ha, hb, -⟩ | ⟨ha, hb⟩
  · rw [ha, hb]
    exact Iff.rfl
  · rw [ha, hb]
    exact Iff.rfl

theorem insertIfNew (h : Entrywise r m m') (k : κ) (hv : r v v') :
    Entrywise r (m.insertIfNew k v) (m'.insertIfNew k v') := by
  intro a
  rw [Std.TreeMap.getElem?_insertIfNew, Std.TreeMap.getElem?_insertIfNew]
  simp only [h.mem_iff]
  split
  · exact .some hv
  · exact h a

theorem getD (h : Entrywise r m m') (k : κ) (hv : r v v') : r (m.getD k v) (m'.getD k v') := by
  rw [Std.TreeMap.getD_eq_getD_getElem?, Std.TreeMap.getD_eq_getD_getElem?]
  rcases h.entries k with ⟨a, b, ha, hb, hab⟩ | ⟨ha, hb⟩
  · rw [ha, hb]
    exact hab
  · rw [ha, hb]
    exact hv

theorem keys [Std.LawfulEqOrd κ] (h : Entrywise r m m') : m'.keys = m.keys := by
  have hmap : (m'.map fun _ _ => ()).Equiv (m.map fun _ _ => ()) :=
    Std.TreeMap.Equiv.of_forall_constGet?_eq fun k => by
      rw [Std.TreeMap.getElem?_map, Std.TreeMap.getElem?_map]
      rcases h.entries k with ⟨a, b, ha, hb, -⟩ | ⟨ha, hb⟩
      · rw [ha, hb]
        rfl
      · rw [ha, hb]
        rfl
  rw [← Std.TreeMap.keys_map, hmap.keys_eq, Std.TreeMap.keys_map]

end Entrywise

namespace FunctionTable

variable [Tally α] [Tally β] {r : α → β → Prop} {m : FunctionTable α} {m' : FunctionTable β}

theorem add_entrywise (hr : Tally.Respects r) (h : Entrywise r m m') (key : String) {a : α} {b : β}
    (hab : r a b) : Entrywise r (m.add key a) (m'.add key b) :=
  h.insert key (hr.add (h.getD key (hr.ofNat 0)) hab)

theorem touch_entrywise (hr : Tally.Respects r) (h : Entrywise r m m') (key : String) :
    Entrywise r (m.touch key) (m'.touch key) :=
  h.insertIfNew key (hr.ofNat 0)

end FunctionTable

/-! ## Images -/

/-- `m'` holds under every key the image of what `m` holds there. -/
def Image (φ : α → β) (m : Std.TreeMap κ α) (m' : Std.TreeMap κ β) : Prop :=
  ∀ k : κ, m'[k]? = m[k]?.map φ

omit [Std.TransOrd κ] in
theorem image_iff {φ : α → β} {m : Std.TreeMap κ α} {m' : Std.TreeMap κ β} :
    Image φ m m' ↔ Entrywise (fun a b => b = φ a) m m' := by
  constructor
  · intro h k
    rw [h k]
    cases m[k]? with
    | none => exact .none
    | some a => exact .some rfl
  · intro h k
    rcases h.entries k with ⟨a, b, ha, hb, hab⟩ | ⟨ha, hb⟩
    · rw [ha, hb, hab]
      rfl
    · rw [ha, hb]
      rfl

namespace Image

variable {φ : α → β} {m : Std.TreeMap κ α} {m' : Std.TreeMap κ β}

theorem empty : Image φ (∅ : Std.TreeMap κ α) (∅ : Std.TreeMap κ β) := image_iff.2 .empty

theorem insert (h : Image φ m m') (k : κ) (v : α) : Image φ (m.insert k v) (m'.insert k (φ v)) :=
  image_iff.2 ((image_iff.1 h).insert k rfl)

theorem mem_iff (h : Image φ m m') (k : κ) : k ∈ m' ↔ k ∈ m := (image_iff.1 h).mem_iff k

theorem getD (h : Image φ m m') (k : κ) (v : α) : m'.getD k (φ v) = φ (m.getD k v) :=
  (image_iff.1 h).getD k rfl

theorem keys [Std.LawfulEqOrd κ] (h : Image φ m m') : m'.keys = m.keys := (image_iff.1 h).keys

/-- Images have the same entries in the same order, up to `φ`. -/
theorem toList [Std.LawfulEqOrd κ] (h : Image φ m m') :
    m'.toList = m.toList.map fun e => (e.1, φ e.2) := by
  have hm : m'.Equiv (m.map fun _ v => φ v) :=
    Std.TreeMap.Equiv.of_forall_constGet?_eq fun k => by rw [h k, Std.TreeMap.getElem?_map]
  rw [hm.toList_eq, Std.TreeMap.toList_map]

end Image

namespace FunctionTable

/-- What a fold of additions leaves under a key. -/
theorem getElem?_foldl_add {ι : Type} (key : ι → String) (amount : ι → Nat)
    (l : List ι) (table : FunctionTable Nat) (k : String) :
    (l.foldl (fun table i => table.add (key i) (amount i)) table)[k]? =
      if k ∈ l.map key then
        some (table.getD k 0 + ((l.filter (key · == k)).map amount).sum)
      else table[k]? := by
  induction l generalizing table with
  | nil => simp
  | cons i l ih =>
    have hget : (table.add (key i) (amount i)).getD k 0 =
        if key i = k then table.getD k 0 + amount i else table.getD k 0 := by
      simp only [add, Std.TreeMap.getD_insert, Std.LawfulEqOrd.compare_eq_iff_eq,
        Tally.add_nat, Tally.zero_nat]
      split
      · next h => rw [h]
      · rfl
    rw [List.foldl_cons, ih, hget, List.map_cons]
    by_cases hk : key i = k
    · rw [if_pos hk, if_pos (List.mem_cons.2 (Or.inl hk.symm)), List.filter_cons_of_pos (by simpa),
        List.map_cons, List.sum_cons, Nat.add_assoc]
      split
      · rfl
      · next hnot =>
        have hnone : l.filter (key · == k) = [] := by
          rw [List.filter_eq_nil_iff]
          intro j hj hjk
          exact hnot (List.mem_map.2 ⟨j, hj, by simpa using hjk⟩)
        rw [hnone, add, hk, Std.TreeMap.getElem?_insert_self]
        rfl
    · rw [if_neg hk, List.filter_cons_of_neg (by simpa)]
      simp only [List.mem_cons, Ne.symm hk, false_or]
      split
      · rfl
      · rw [add, Std.TreeMap.getElem?_insert, if_neg]
        rwa [Std.LawfulEqOrd.compare_eq_iff_eq]

end FunctionTable

end

/-! ## Weighted sums -/

section

variable [Std.LawfulEqOrd κ]

/-- The entries, found again by their keys. -/
theorem toList_eq_map_keys {α : Type} (m : Std.TreeMap κ α) (fallback : α) :
    m.toList = m.keys.map fun k => (k, m.getD k fallback) := by
  rw [← Std.TreeMap.map_fst_toList_eq_keys, List.map_map]
  refine (List.map_id _).symm.trans (List.map_congr_left fun e he => ?_)
  rw [Std.TreeMap.mem_toList_iff_getElem?_eq_some] at he
  rw [Function.comp_apply, Std.TreeMap.getD_eq_getD_getElem?, he]
  rfl

variable [BEq κ] [LawfulBEq κ]

/-- The sum of the entries, each times the weight of its key. -/
def weighted (w : κ → Nat) (m : Std.TreeMap κ Nat) : Nat :=
  (m.toList.map fun e => e.2 * w e.1).sum

omit [BEq κ] [LawfulBEq κ] in
theorem weighted_eq_sum_keys (w : κ → Nat) (m : Std.TreeMap κ Nat) :
    weighted w m = (m.keys.map fun k => m.getD k 0 * w k).sum := by
  rw [weighted, toList_eq_map_keys m 0, List.map_map]
  rfl

omit [BEq κ] [LawfulBEq κ] in
/-- Weights of one and zero pick entries out. -/
theorem weighted_filter (p : κ → Bool) (m : Std.TreeMap κ Nat) :
    weighted (fun k => if p k then 1 else 0) m = ((m.keys.filter p).map (m.getD · 0)).sum := by
  rw [weighted_eq_sum_keys]
  simp only [mul_ite, Nat.mul_one, Nat.mul_zero]
  induction m.keys with
  | nil => rfl
  | cons k keys ih => cases hk : p k <;> simp [hk, ih]

/-- One entry, apart from all others. -/
theorem toList_perm_of_getElem? {α : Type} {m : Std.TreeMap κ α} {k : κ} {v : α}
    (h : m[k]? = some v) : m.toList.Perm ((k, v) :: m.toList.filter (¬k == ·.1)) := by
  have hm : m.Equiv (m.insert k v) := Std.TreeMap.Equiv.of_forall_constGet?_eq fun a => by
    rw [Std.TreeMap.getElem?_insert]
    split
    · next hka => rw [← Std.LawfulEqOrd.compare_eq_iff_eq.1 hka, h]
    · rfl
  exact (List.Perm.of_eq hm.toList_eq).trans Std.TreeMap.toList_insert_perm

/-- The sum over all entries, with the entry under one key taken apart. -/
theorem weighted_eq (w : κ → Nat) (m : Std.TreeMap κ Nat) (k : κ) :
    weighted w m = m.getD k 0 * w k +
      ((m.toList.filter (¬k == ·.1)).map fun e => e.2 * w e.1).sum := by
  unfold weighted
  cases h : m[k]? with
  | some v =>
    rw [((toList_perm_of_getElem? h).map _).sum_eq, List.map_cons, List.sum_cons,
      Std.TreeMap.getD_eq_getD_getElem?, h]
    rfl
  | none =>
    have hall : m.toList.filter (¬k == ·.1) = m.toList := by
      rw [List.filter_eq_self]
      rintro ⟨a, v⟩ ha
      rw [Std.TreeMap.mem_toList_iff_getElem?_eq_some] at ha
      have hne : k ≠ a := by
        rintro rfl
        rw [h] at ha
        cases ha
      simpa using hne
    rw [hall, Std.TreeMap.getD_eq_getD_getElem?, h]
    simp

theorem weighted_single (m : Std.TreeMap κ Nat) (k : κ) :
    weighted (fun a => if a == k then 1 else 0) m = m.getD k 0 := by
  have hothers : ((m.toList.filter (¬k == ·.1)).map fun e => e.2 * if e.1 == k then 1 else 0).sum =
      0 := by
    refine List.sum_eq_zero fun x hx => ?_
    obtain ⟨e, he, rfl⟩ := List.mem_map.1 hx
    have hne : e.1 ≠ k := by
      rintro rfl
      simp at he
    simp [hne]
  rw [weighted_eq _ m k, hothers]
  simp

theorem weighted_insert (w : κ → Nat) (m : Std.TreeMap κ Nat) (k : κ) (v : Nat) :
    weighted w (m.insert k v) =
      v * w k + ((m.toList.filter (¬k == ·.1)).map fun e => e.2 * w e.1).sum := by
  unfold weighted
  rw [(Std.TreeMap.toList_insert_perm.map _).sum_eq, List.map_cons, List.sum_cons]

/-- Adding to an entry adds to the sum. -/
theorem weighted_add (w : κ → Nat) (m : Std.TreeMap κ Nat) (k : κ) (a : Nat) :
    weighted w (m.insert k (m.getD k 0 + a)) = weighted w m + a * w k := by
  rw [weighted_insert, weighted_eq w m k, Nat.add_mul]
  omega

/-- A new entry of zero does not change the sum. -/
theorem weighted_insertIfNew_zero (w : κ → Nat) (m : Std.TreeMap κ Nat) (k : κ) :
    weighted w (m.insertIfNew k 0) = weighted w m := by
  by_cases hk : k ∈ m
  · have hm : (m.insertIfNew k 0).Equiv m := Std.TreeMap.Equiv.of_forall_constGet?_eq fun a => by
      rw [Std.TreeMap.getElem?_insertIfNew, if_neg (fun h => h.2 hk)]
    unfold weighted
    rw [hm.toList_eq]
  · have hm : (m.insertIfNew k 0).Equiv (m.insert k (m.getD k 0 + 0)) :=
      Std.TreeMap.Equiv.of_forall_constGet?_eq fun a => by
        rw [Std.TreeMap.getElem?_insertIfNew, Std.TreeMap.getElem?_insert,
          Std.TreeMap.getD_eq_fallback hk]
        simp only [hk, not_false_eq_true, and_true]
    have h := weighted_add w m k 0
    unfold weighted at h ⊢
    rw [hm.toList_eq, h, Nat.zero_mul, Nat.add_zero]

end

end ShaderCost
