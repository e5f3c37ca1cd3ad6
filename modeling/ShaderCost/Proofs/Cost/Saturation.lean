import ShaderCost.Proofs.Cost.Tally

/-! # The laws of saturating arithmetic

The saturating sum and product forget all that is beyond the cap and all that is below zero, and
nothing else. What a word counts for is a natural number, its `worth`; sums and products are those of
the worths, cut off at the cap (`add_eq_ofNat`, `mul_eq_ofNat`). A number may be cut off before it goes
into a further sum or product, so the laws of the natural numbers hold for words: this is what makes
the order of additions in the analysis irrelevant.

Words wrap around when a result does not fit, so the tests in front of the last sum and the last
product have to be right. To say so, both operations are also carried out on a machine that stops
where a result is no word or a divisor is zero (`checked`). It never stops, and gives the same.
-/

namespace ShaderCost.Saturating

/-! ## Machines -/

/-- The operations of a machine on words, each with what else it may do. -/
structure Machine (m : Type → Type) where
  add : Int64 → Int64 → m Int64
  sub : Int64 → Int64 → m Int64
  mul : Int64 → Int64 → m Int64
  div : Int64 → Int64 → m Int64

/-- Words wrap around, and a quotient by zero is zero. -/
def wrapping : Machine Id where
  add a b := a + b
  sub a b := a - b
  mul a b := a * b
  div a b := a / b

/-- The word that a number is, if it is one. -/
def word? (n : Int) : Option Int64 :=
  if Int64.minValue.toInt ≤ n ∧ n ≤ Int64.maxValue.toInt then some (Int64.ofInt n) else none

/-- Operations are those on numbers, rounded towards zero; a result that is no word stops the machine,
and so does a divisor of zero. -/
def checked : Machine Option where
  add a b := word? (a.toInt + b.toInt)
  sub a b := word? (a.toInt - b.toInt)
  mul a b := word? (a.toInt * b.toInt)
  div a b := if b = 0 then none else word? (a.toInt.tdiv b.toInt)

/-- The saturating sum, carried out on a machine. -/
def addOn {m : Type → Type} [Monad m] (machine : Machine m) (a b : Int64) : m Int64 := do
  let a := max a 0
  let b := max b 0
  let room ← machine.sub cap b
  if a > room then pure cap else machine.add a b

/-- The saturating product, carried out on a machine. -/
def mulOn {m : Type → Type} [Monad m] (machine : Machine m) (a b : Int64) : m Int64 :=
  if a ≤ 0 || b ≤ 0 then pure 0
  else do
    let quotient ← machine.div cap b
    if a > quotient then pure cap else machine.mul a b

theorem addOn_wrapping (a b : Int64) : addOn wrapping a b = pure (add a b) := rfl

theorem mulOn_wrapping (a b : Int64) : mulOn wrapping a b = pure (mul a b) := rfl

theorem word?_toInt (a : Int64) : word? a.toInt = some a := by
  have hlow := a.minValue_le_toInt
  have hhigh := a.toInt_le
  unfold word?
  rw [if_pos ⟨hlow, hhigh⟩, Int64.ofInt_toInt]

theorem word?_of_toInt_eq {a : Int64} {n : Int} (h : a.toInt = n) : word? n = some a := by
  rw [← h, word?_toInt]

/-- No step of a saturating sum leaves the words. -/
theorem addOn_checked (a b : Int64) : addOn checked a b = some (add a b) := by
  have ha := toInt_max_zero a
  have hb := toInt_max_zero b
  have hal := a.toInt_lt
  have hbl := b.toInt_lt
  have hcap := toInt_cap
  have hroom : (cap - max b 0).toInt = cap.toInt - (max b 0).toInt := by
    rw [Int64.toInt_sub, hb, Int.bmod_eq_of_le (by omega) (by omega)]
  have hsub : checked.sub cap (max b 0) = some (cap - max b 0) := word?_of_toInt_eq hroom
  simp only [addOn, hsub, Option.bind_eq_bind, Option.bind_some, add]
  split
  · rfl
  · next h =>
    rw [gt_iff_lt, Int64.lt_iff_toInt_lt, hroom] at h
    refine word?_of_toInt_eq ?_
    rw [Int64.toInt_add, Int.bmod_eq_of_le (by omega) (by omega)]

/-- No step of a saturating product leaves the words, and none divides by zero. -/
theorem mulOn_checked (a b : Int64) : mulOn checked a b = some (mul a b) := by
  have hz : (0 : Int64).toInt = 0 := rfl
  have hcap := toInt_cap
  unfold mulOn mul
  split
  · rfl
  · next h =>
    simp only [Bool.or_eq_true, decide_eq_true_eq, Int64.le_iff_toInt_le, hz] at h
    obtain ⟨ha, hb⟩ : 0 < a.toInt ∧ 0 < b.toInt := by omega
    have hb0 : b ≠ 0 := by
      rintro rfl
      exact absurd hb (by decide)
    have hb1 : b ≠ -1 := by
      rintro rfl
      exact absurd hb (by decide)
    have hquot : (cap / b).toInt = cap.toInt.tdiv b.toInt := Int64.toInt_div_of_ne_right _ _ hb1
    have hdiv : checked.div cap b = some (cap / b) := by
      change (if b = 0 then none else word? (cap.toInt.tdiv b.toInt)) = some (cap / b)
      rw [if_neg hb0, word?_of_toInt_eq hquot]
    simp only [hdiv, Option.bind_eq_bind, Option.bind_some]
    split
    · rfl
    · next hle =>
      -- the quotient is rounded down, so a factor that is not above it gives a product that fits
      rw [gt_iff_lt, Int64.lt_iff_toInt_lt, hquot, Int.tdiv_eq_ediv_of_nonneg (by decide),
        Int.ediv_lt_iff_lt_mul hb] at hle
      have hnn := mul_nonneg ha.le hb.le
      refine word?_of_toInt_eq ?_
      rw [Int64.toInt_mul, Int.bmod_eq_of_le (by omega) (by omega)]

/-! ## Worth -/

/-- What a word counts for. -/
def worth (a : Int64) : Nat := a.toInt.toNat

theorem natCast_worth (a : Int64) : (worth a : Int) = max a.toInt 0 := by
  unfold worth
  omega

theorem ofNat_worth {a : Int64} (h : 0 ≤ a.toInt) : ofNat (worth a) = a := by
  have hle := a.toInt_le
  apply Int64.toInt_inj.1
  rw [toInt_ofNat, natCast_worth, max_eq_left h]
  exact min_eq_right hle

theorem add_eq_ofNat (a b : Int64) : add a b = ofNat (worth a + worth b) := by
  apply Int64.toInt_inj.1
  rw [toInt_add, toInt_ofNat, Nat.cast_add, natCast_worth, natCast_worth]

theorem mul_eq_ofNat (a b : Int64) : mul a b = ofNat (worth a * worth b) := by
  apply Int64.toInt_inj.1
  rw [toInt_mul, toInt_ofNat, Nat.cast_mul, natCast_worth, natCast_worth]

/-- A term that was cut off may as well not have been. -/
theorem ofNat_worth_add (m n : Nat) : ofNat (worth (ofNat m) + n) = ofNat (m + n) := by
  have hcap := toInt_cap
  apply Int64.toInt_inj.1
  rw [toInt_ofNat, toInt_ofNat, Nat.cast_add, natCast_worth, toInt_ofNat]
  omega

/-- A factor that was cut off may as well not have been. -/
theorem ofNat_worth_mul (m n : Nat) : ofNat (worth (ofNat m) * n) = ofNat (m * n) := by
  apply Int64.toInt_inj.1
  have hm := Int.natCast_nonneg m
  have hn := Int.natCast_nonneg n
  have hcut : 0 ≤ min cap.toInt (m : Int) := le_min (by decide) hm
  rw [toInt_ofNat, toInt_ofNat, Nat.cast_mul, Nat.cast_mul, natCast_worth, toInt_ofNat,
    max_eq_left hcut, ← cap_mul_cap hcut hn, ← min_assoc, min_self, cap_mul_cap hm hn]

theorem ofNat_mono {m n : Nat} (h : m ≤ n) : ofNat m ≤ ofNat n := by
  rw [Int64.le_iff_toInt_le, toInt_ofNat, toInt_ofNat]
  omega

theorem worth_mono {a b : Int64} (h : a ≤ b) : worth a ≤ worth b := by
  rw [Int64.le_iff_toInt_le] at h
  unfold worth
  omega

/-! ## Laws -/

theorem add_comm (a b : Int64) : add a b = add b a := by
  rw [add_eq_ofNat, add_eq_ofNat, Nat.add_comm]

theorem mul_comm (a b : Int64) : mul a b = mul b a := by
  rw [mul_eq_ofNat, mul_eq_ofNat, Nat.mul_comm]

theorem add_assoc (a b c : Int64) : add (add a b) c = add a (add b c) :=
  calc add (add a b) c
    _ = ofNat (worth a + worth b + worth c) := by
      rw [add_eq_ofNat _ c, add_eq_ofNat a b, ofNat_worth_add]
    _ = ofNat (worth b + worth c + worth a) := by rw [Nat.add_assoc, Nat.add_comm]
    _ = add a (add b c) := by
      rw [add_comm a, add_eq_ofNat _ a, add_eq_ofNat b c, ofNat_worth_add]

theorem mul_assoc (a b c : Int64) : mul (mul a b) c = mul a (mul b c) :=
  calc mul (mul a b) c
    _ = ofNat (worth a * worth b * worth c) := by
      rw [mul_eq_ofNat _ c, mul_eq_ofNat a b, ofNat_worth_mul]
    _ = ofNat (worth b * worth c * worth a) := by rw [Nat.mul_assoc, Nat.mul_comm]
    _ = mul a (mul b c) := by
      rw [mul_comm a, mul_eq_ofNat _ a, mul_eq_ofNat b c, ofNat_worth_mul]

theorem mul_add (a b c : Int64) : mul a (add b c) = add (mul a b) (mul a c) :=
  calc mul a (add b c)
    _ = ofNat ((worth b + worth c) * worth a) := by
      rw [mul_comm a, mul_eq_ofNat _ a, add_eq_ofNat b c, ofNat_worth_mul]
    _ = ofNat (worth a * worth b + worth a * worth c) := by rw [Nat.mul_comm, Nat.mul_add]
    _ = add (mul a b) (mul a c) := by
      rw [mul_eq_ofNat, mul_eq_ofNat]
      exact ofNat_hom.add _ _

theorem add_le_add {a b c d : Int64} (hab : a ≤ b) (hcd : c ≤ d) : add a c ≤ add b d := by
  rw [add_eq_ofNat, add_eq_ofNat]
  exact ofNat_mono (Nat.add_le_add (worth_mono hab) (worth_mono hcd))

theorem mul_le_mul {a b c d : Int64} (hab : a ≤ b) (hcd : c ≤ d) : mul a c ≤ mul b d := by
  rw [mul_eq_ofNat, mul_eq_ofNat]
  exact ofNat_mono (Nat.mul_le_mul (worth_mono hab) (worth_mono hcd))

/-- **Saturating arithmetic is the arithmetic of the natural numbers, cut off at the cap.** For any
words, the saturating sum and product are the sum and product of what is not negative, or the
greatest word where these are greater, and no step on the way to them overflows or divides by zero.
Cutting off takes sums to sums and products to products and reaches every word that is not negative.
So both are commutative and associative, products distribute over sums, and both are monotone in
each operand. -/
theorem saturation_exact (a b c : Int64) :
    ((add a b).toInt = min Int64.maxValue.toInt (max a.toInt 0 + max b.toInt 0) ∧
      (mul a b).toInt = min Int64.maxValue.toInt (max a.toInt 0 * max b.toInt 0)) ∧
    ((addOn wrapping a b = pure (add a b) ∧ addOn checked a b = some (add a b)) ∧
      (mulOn wrapping a b = pure (mul a b) ∧ mulOn checked a b = some (mul a b))) ∧
    ((∀ m n : Nat, ofNat (m + n) = add (ofNat m) (ofNat n) ∧ ofNat (m * n) = mul (ofNat m) (ofNat n)) ∧
      (0 ≤ a → ∃ n, ofNat n = a)) ∧
    (add a b = add b a ∧ add (add a b) c = add a (add b c)) ∧
    (mul a b = mul b a ∧ mul (mul a b) c = mul a (mul b c)) ∧
    (mul a (add b c) = add (mul a b) (mul a c) ∧ mul (add a b) c = add (mul a c) (mul b c)) ∧
    (a ≤ b → (add a c ≤ add b c ∧ add c a ≤ add c b) ∧ mul a c ≤ mul b c ∧ mul c a ≤ mul c b) := by
  have hself : c ≤ c := Int64.le_iff_toInt_le.2 (le_refl c.toInt)
  refine ⟨⟨toInt_add a b, toInt_mul a b⟩, ?_, ⟨fun m n => ?_, fun ha => ?_⟩, ?_, ?_, ?_, fun hab => ?_⟩
  · exact ⟨⟨addOn_wrapping a b, addOn_checked a b⟩, mulOn_wrapping a b, mulOn_checked a b⟩
  · exact ⟨ofNat_hom.add m n, ofNat_hom.mul m n⟩
  · exact ⟨worth a, ofNat_worth (Int64.le_iff_toInt_le.1 ha)⟩
  · exact ⟨add_comm a b, add_assoc a b c⟩
  · exact ⟨mul_comm a b, mul_assoc a b c⟩
  · refine ⟨mul_add a b c, ?_⟩
    rw [mul_comm _ c, mul_add, mul_comm c a, mul_comm c b]
  · exact ⟨⟨add_le_add hab hself, add_le_add hself hab⟩, mul_le_mul hab hself, mul_le_mul hself hab⟩

/-- A third of the cap, rounded down and rounded up: the one times three still fits. -/
theorem saturation_exact_thirds :
    (0 : Int64) ≤ 3074457345618258602 ∧ (3074457345618258602 : Int64) ≤ 3074457345618258603 ∧
      mul 3074457345618258602 3 = 9223372036854775806 ∧ mul 3074457345618258603 3 = cap ∧
      (∃ n, ofNat n = 3074457345618258602) ∧
      mul 3074457345618258602 3 ≤ mul 3074457345618258603 3 := by
  have hnonneg : (0 : Int64) ≤ 3074457345618258602 := by decide
  have hle : (3074457345618258602 : Int64) ≤ 3074457345618258603 := by decide
  have h := saturation_exact 3074457345618258602 3074457345618258603 3
  exact ⟨hnonneg, hle, by decide, by decide, h.2.2.1.2 hnonneg, (h.2.2.2.2.2.2 hle).2.1⟩

end ShaderCost.Saturating
