import ShaderCost.Cost.Tally
import Mathlib.Algebra.BigOperators.Group.List.Basic
import Mathlib.Algebra.Order.Ring.Int

/-! # Saturating arithmetic is exact up to the cap

`toInt_add`, `toInt_mul` and `toInt_ofNat` read the 64-bit operations as numbers: each is the plain
operation on what is not negative, cut off at the cap, and no step on the way leaves the 64 bits.

Cutting off early therefore does no harm: a number can be cut off before it is added or multiplied,
or after (`Agrees.sum`, `Agrees.mul`). As a statement about the analysis this says that `ofNat`
is a homomorphism from the natural numbers to the words (`ofNat_hom`): everything that is computed
in both is related by it.
-/

namespace ShaderCost

/-! ## Homomorphisms -/

/-- A map that respects all that the analysis does with costs. -/
structure Tally.Hom {α β : Type} [Tally α] [Tally β] (φ : α → β) : Prop where
  ofNat : ∀ n, φ (Tally.ofNat n) = Tally.ofNat n
  add : ∀ a b, φ (Tally.add a b) = Tally.add (φ a) (φ b)
  mul : ∀ a b, φ (Tally.mul a b) = Tally.mul (φ a) (φ b)
  isZero : ∀ a, Tally.isZero (φ a) = Tally.isZero a

namespace Tally

variable {α β : Type} [Tally α] [Tally β] {φ : α → β}

theorem Hom.zero (h : Hom φ) : φ Tally.zero = Tally.zero := h.ofNat 0

theorem Hom.one (h : Hom φ) : φ Tally.one = Tally.one := h.ofNat 1

/-- A relation between costs that the analysis keeps once the loops are known. -/
structure Respects (r : α → β → Prop) : Prop where
  ofNat : ∀ n, r (Tally.ofNat n) (Tally.ofNat n)
  add : ∀ {a b a' b'}, r a a' → r b b' → r (Tally.add a b) (Tally.add a' b')
  mul : ∀ {a b a' b'}, r a a' → r b b' → r (Tally.mul a b) (Tally.mul a' b')

theorem Hom.respects (h : Hom φ) : Respects fun a b => b = φ a where
  ofNat n := (h.ofNat n).symm
  add := by
    rintro a b _ _ rfl rfl
    exact (h.add a b).symm
  mul := by
    rintro a b _ _ rfl rfl
    exact (h.mul a b).symm

@[simp] theorem ofNat_nat (n : Nat) : (Tally.ofNat n : Nat) = n := rfl

@[simp] theorem add_nat (a b : Nat) : Tally.add a b = a + b := rfl

@[simp] theorem mul_nat (a b : Nat) : Tally.mul a b = a * b := rfl

@[simp] theorem zero_nat : (Tally.zero : Nat) = 0 := rfl

@[simp] theorem one_nat : (Tally.one : Nat) = 1 := rfl

end Tally

namespace Saturating

/-! ## The operations as numbers -/

theorem toInt_cap : cap.toInt = 9223372036854775807 := rfl

theorem toInt_max_zero (a : Int64) : (max a 0).toInt = max a.toInt 0 := by
  have hz : (0 : Int64).toInt = 0 := rfl
  change (if a ≤ 0 then 0 else a).toInt = max a.toInt 0
  split
  · next h => rw [Int64.le_iff_toInt_le] at h; omega
  · next h => rw [Int64.le_iff_toInt_le] at h; omega

/-- The saturating sum is the sum of what is not negative, cut off at the cap. -/
theorem toInt_add (a b : Int64) :
    (add a b).toInt = min cap.toInt (max a.toInt 0 + max b.toInt 0) := by
  have ha := toInt_max_zero a
  have hb := toInt_max_zero b
  have hal := a.toInt_lt
  have hbl := b.toInt_lt
  have hcap := toInt_cap
  have hroom : (cap - max b 0).toInt = cap.toInt - max b.toInt 0 := by
    rw [Int64.toInt_sub, hb, Int.bmod_eq_of_le (by omega) (by omega)]
  unfold add
  simp only [gt_iff_lt, Int64.lt_iff_toInt_lt, hroom, ha]
  split
  · omega
  · rw [Int64.toInt_add, ha, hb, Int.bmod_eq_of_le (by omega) (by omega)]
    omega

/-- The saturating product is the product of what is not negative, cut off at the cap. -/
theorem toInt_mul (a b : Int64) :
    (mul a b).toInt = min cap.toInt (max a.toInt 0 * max b.toInt 0) := by
  have hz : (0 : Int64).toInt = 0 := rfl
  have hcap := toInt_cap
  unfold mul
  simp only [gt_iff_lt, Int64.lt_iff_toInt_lt, Int64.le_iff_toInt_le, hz, Bool.or_eq_true,
    decide_eq_true_eq]
  split
  · next h =>
    have hp : max a.toInt 0 * max b.toInt 0 = 0 := by
      rcases h with h | h
      · rw [max_eq_right h, zero_mul]
      · rw [max_eq_right h, mul_zero]
    rw [hp]; rfl
  · next h =>
    obtain ⟨ha, hb⟩ : 0 < a.toInt ∧ 0 < b.toInt := by omega
    have hne : b ≠ -1 := by
      rintro rfl
      exact absurd hb (by decide)
    have hnn := mul_nonneg ha.le hb.le
    rw [Int64.toInt_div_of_ne_right _ _ hne, max_eq_left ha.le, max_eq_left hb.le,
      Int.tdiv_eq_ediv_of_nonneg (by decide)]
    -- the test by division decides exactly whether the product fits
    simp only [Int.ediv_lt_iff_lt_mul hb]
    split
    · omega
    · rw [Int64.toInt_mul, Int.bmod_eq_of_le (by omega) (by omega)]
      omega

theorem toInt_ofNat (n : Nat) : (ofNat n).toInt = min cap.toInt n := by
  unfold ofNat
  split
  · next h => rw [Int64.toInt_ofNat_of_lt h, toInt_cap]; omega
  · next h => rw [toInt_cap]; omega

theorem toInt_ofNat_nonneg (n : Nat) : 0 ≤ (ofNat n).toInt := by
  rw [toInt_ofNat, toInt_cap]; omega

/-! ## Cutting off early -/

/-- Two factors may be cut off before they are multiplied. -/
theorem cap_mul_cap {x y : Int} (hx : 0 ≤ x) (hy : 0 ≤ y) :
    min cap.toInt (min cap.toInt x * min cap.toInt y) = min cap.toInt (x * y) := by
  have hcap : (0 : Int) < cap.toInt := by decide
  rcases hx.eq_or_lt with rfl | hx
  · rw [min_eq_right hcap.le, zero_mul, zero_mul]
  rcases hy.eq_or_lt with rfl | hy
  · rw [min_eq_right hcap.le, mul_zero, mul_zero]
  rcases le_total cap.toInt x with h | h
  · -- a factor that is cut off makes both products too great
    have h1 : cap.toInt ≤ x * y := h.trans (le_mul_of_one_le_right hx.le hy)
    have h2 : cap.toInt ≤ cap.toInt * min cap.toInt y :=
      le_mul_of_one_le_right hcap.le (le_min hcap hy)
    rw [min_eq_left h, min_eq_left h1, min_eq_left h2]
  rcases le_total cap.toInt y with h' | h'
  · have h1 : cap.toInt ≤ x * y := h'.trans (le_mul_of_one_le_left hy.le hx)
    have h2 : cap.toInt ≤ x * cap.toInt := le_mul_of_one_le_left hcap.le hx
    rw [min_eq_right h, min_eq_left h', min_eq_left h1, min_eq_left h2]
  · rw [min_eq_right h, min_eq_right h']

/-- The integer and the natural number are the same once they are cut off. -/
def Agrees (x : Int) (n : Nat) : Prop := 0 ≤ x ∧ min cap.toInt x = min cap.toInt n

namespace Agrees

variable {x y : Int} {m n : Nat}

theorem natCast (n : Nat) : Agrees n n := ⟨Int.natCast_nonneg n, rfl⟩

theorem ofNat (n : Nat) : Agrees (Saturating.ofNat n).toInt n := by
  have hcap := toInt_cap
  refine ⟨toInt_ofNat_nonneg n, ?_⟩
  rw [toInt_ofNat]
  omega

theorem add (hx : Agrees x m) (hy : Agrees y n) : Agrees (x + y) (m + n) := by
  obtain ⟨hx, hxm⟩ := hx
  obtain ⟨hy, hyn⟩ := hy
  refine ⟨Int.add_nonneg hx hy, ?_⟩
  omega

theorem mul (hx : Agrees x m) (hy : Agrees y n) : Agrees (x * y) (m * n) := by
  obtain ⟨hx, hxm⟩ := hx
  obtain ⟨hy, hyn⟩ := hy
  refine ⟨Int.mul_nonneg hx hy, ?_⟩
  rw [← cap_mul_cap hx hy, hxm, hyn, cap_mul_cap (by omega) (by omega), Nat.cast_mul]

theorem sum {ι : Type} {f : ι → Int} {n : ι → Nat} {l : List ι}
    (h : ∀ i ∈ l, Agrees (f i) (n i)) : Agrees (l.map f).sum (l.map n).sum := by
  induction l with
  | nil => exact natCast 0
  | cons i l ih =>
    rw [List.map_cons, List.sum_cons, List.map_cons, List.sum_cons]
    exact (h i List.mem_cons_self).add (ih fun j hj => h j (List.mem_cons_of_mem i hj))

/-- A word that follows the natural number is the integer cut off. -/
theorem toInt_ofNat (h : Agrees x n) : (Saturating.ofNat n).toInt = min cap.toInt x := by
  rw [Saturating.toInt_ofNat, h.2]

end Agrees

/-! ## The homomorphism -/

/-- Words follow the natural numbers up to the cap. -/
theorem ofNat_hom : Tally.Hom (ofNat : Nat → Int64) where
  ofNat _ := rfl
  add a b := by
    apply Int64.toInt_inj.1
    change (ofNat (a + b)).toInt = (add (ofNat a) (ofNat b)).toInt
    have hcap := toInt_cap
    rw [toInt_add, toInt_ofNat, toInt_ofNat, toInt_ofNat]
    omega
  mul a b := by
    apply Int64.toInt_inj.1
    change (ofNat (a * b)).toInt = (mul (ofNat a) (ofNat b)).toInt
    rw [toInt_mul, max_eq_left (toInt_ofNat_nonneg a), max_eq_left (toInt_ofNat_nonneg b),
      toInt_ofNat, toInt_ofNat, toInt_ofNat, cap_mul_cap (by omega) (by omega), Nat.cast_mul]
  isZero n := by
    change (ofNat n == 0) = (n == 0)
    have hcap := toInt_cap
    have hz : ofNat n = 0 ↔ n = 0 := by
      rw [← Int64.toInt_inj, toInt_ofNat, show (0 : Int64).toInt = 0 from rfl]
      omega
    exact Bool.eq_iff_iff.2 (by simp [hz])

end Saturating

end ShaderCost
