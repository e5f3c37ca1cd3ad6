import ShaderCost.Yaml.Scalar

/-! # Numbers in documents

A number is written in decimal digits, and a plain scalar that starts like a number is read as one.
So the text of a 64-bit word means that word (`meaning_word`): it is not taken for a number in another
base, for a time or for a word of the language.
-/

namespace ShaderCost.Yaml

/-! ## Digits -/

theorem isDigit_of_mem_toDigits {n : Nat} {c : Char} (h : c ∈ Nat.toDigits 10 n) :
    c.isDigit = true :=
  Nat.isDigit_of_mem_toDigits (by decide) (by decide) h

theorem digitValue_of_isDigit {c : Char} (h : c.isDigit = true) :
    digitValue c = c.toNat - '0'.toNat := by
  rw [digitValue, if_pos h]

theorem digitValue_lt {c : Char} (h : c.isDigit = true) : digitValue c < 10 := by
  rw [digitValue_of_isDigit h]
  simp only [Char.isDigit, Bool.and_eq_true, decide_eq_true_eq] at h
  have hle : c.toNat ≤ 57 := h.2
  change c.toNat - 48 < 10
  omega

theorem foldl_digitValue {digits : List Char} (h : ∀ c ∈ digits, c.isDigit = true) (start : Nat) :
    digits.foldl (fun n c => n * 10 + digitValue c) start = Nat.ofDigitChars 10 digits start := by
  induction digits generalizing start with
  | nil => rfl
  | cons c digits ih =>
    rw [List.foldl_cons, Nat.ofDigitChars_cons, digitValue_of_isDigit (h c List.mem_cons_self),
      Nat.mul_comm]
    exact ih (fun d hd => h d (List.mem_cons_of_mem c hd)) _

theorem natOfDigits?_toDigits (n : Nat) : natOfDigits? 10 (Nat.toDigits 10 n) = some n := by
  unfold natOfDigits?
  rw [if_neg, foldl_digitValue fun c hc => isDigit_of_mem_toDigits hc,
    Nat.ofDigitChars_toDigits (by decide) (by decide)]
  simp only [Bool.or_eq_true, List.isEmpty_iff, Nat.toDigits_ne_nil, false_or, List.any_eq_true,
    decide_eq_true_eq, not_exists, not_and]
  exact fun c hc => Nat.not_le.2 (digitValue_lt (isDigit_of_mem_toDigits hc))

/-- The digits of a number of several digits do not start with zero. -/
theorem head_toDigits {n : Nat} {c : Char} {rest : List Char} (h : Nat.toDigits 10 n = c :: rest)
    (hrest : rest ≠ []) : c ≠ '0' := by
  induction n using Nat.strongRecOn generalizing rest with
  | ind n ih =>
    rw [Nat.toDigits_eq_if (by decide)] at h
    split at h
    · cases h
      exact absurd rfl hrest
    · next hn =>
      cases hdigits : Nat.toDigits 10 (n / 10) with
      | nil => exact absurd hdigits Nat.toDigits_ne_nil
      | cons first others =>
        rw [hdigits] at h
        cases h
        by_cases hothers : others = []
        · subst hothers
          have hsmall : n / 10 < 10 := by
            refine (Nat.length_toDigits_le_iff (b := 10) (by decide) Nat.one_pos).1 ?_
            rw [hdigits]
            exact Nat.le_refl 1
          rw [Nat.toDigits_of_lt_base hsmall] at hdigits
          cases hdigits
          have hpos : n / 10 ≠ 0 := by omega
          have hfacts : ∀ d < 10, d ≠ 0 → d.digitChar ≠ '0' := by decide
          exact hfacts _ hsmall hpos
        · exact ih (n / 10) (by omega) hdigits hothers

theorem magnitude?_toDigits (n : Nat) : magnitude? (Nat.toDigits 10 n) = some n := by
  have hvalue := natOfDigits?_toDigits n
  unfold magnitude?
  split
  · next mark rest h => exact absurd rfl (head_toDigits h (List.cons_ne_nil _ _))
  · exact hvalue

/-! ## Words -/

/-- A digit stands in front, or behind a hyphen. -/
def isNumeric (text : List Char) : Bool :=
  ((if text.head? == some '-' then text.tail else text).head?.map Char.isDigit).getD false

theorem contains_eq_false {words : List String} {text : String} (h : isNumeric text.toList = true)
    (hwords : ∀ word ∈ words, isNumeric word.toList = false) : words.contains text = false := by
  refine Bool.eq_false_iff.2 fun hmem => ?_
  exact Bool.false_ne_true ((hwords text (List.contains_iff_mem.1 hmem)).symm.trans h)

/-- A scalar that starts like a number means what the number means. -/
theorem meaning_of_isNumeric {text : String} (h : isNumeric text.toList = true) :
    meaning text = numberMeaning text.toList := by
  have hnotFinite : notFinite? text = none := by
    unfold notFinite?
    rw [contains_eq_false h (by decide), contains_eq_false h (by decide)]
    rfl
  unfold meaning
  rw [contains_eq_false h (by decide), contains_eq_false h (by decide), contains_eq_false h (by decide),
    hnotFinite]
  simp only [Bool.false_eq_true, if_false]
  cases htext : text.toList with
  | nil =>
    rw [htext] at h
    cases h
  | cons c rest =>
    rw [htext] at h
    have hc : (c.isDigit || c == '+' || c == '-') = true ∧ c ≠ '.' := by
      by_cases hhyphen : c = '-'
      · subst hhyphen
        decide
      · have hdigit : c.isDigit = true := by simpa [isNumeric, hhyphen] using h
        refine ⟨by rw [hdigit]; rfl, ?_⟩
        rintro rfl
        exact absurd hdigit (by decide)
    split
    · next hsome => cases hsome
    · next heq =>
      cases heq
      exact absurd rfl hc.2
    · next heq =>
      cases heq
      rw [if_pos hc.1]
    · next heq => cases heq

theorem isTime_toDigits (n : Nat) : isTime (Nat.toDigits 10 n) = false := by
  have hall : (Nat.toDigits 10 n).takeWhile Char.isDigit = Nat.toDigits 10 n := by
    rw [← List.append_nil (Nat.toDigits 10 n), List.takeWhile_append_of_pos]
    · rfl
    · exact fun c hc => isDigit_of_mem_toDigits hc
  have hdate : date? (Nat.toDigits 10 n) = none := by
    unfold date?
    simp only [hall]
    split
    · rfl
    · next hlength =>
      have hdrop : (Nat.toDigits 10 n).drop 4 = [] := by
        refine List.drop_eq_nil_of_le ?_
        simp only [bne_iff_ne, ne_eq, Decidable.not_not] at hlength
        omega
      rw [natOfDigits?_toDigits, hdrop]
      rfl
  unfold isTime
  rw [hdate]

theorem isTime_hyphen (rest : List Char) : isTime ('-' :: rest) = false := by
  rfl

theorem filter_toDigits (n : Nat) : (Nat.toDigits 10 n).filter (· != '_') = Nat.toDigits 10 n := by
  refine List.filter_eq_self.2 fun c hc => ?_
  have hdigit := isDigit_of_mem_toDigits hc
  refine bne_iff_ne.2 ?_
  rintro rfl
  exact absurd hdigit (by decide)

theorem numberMeaning_nat {n : Nat} (h : n < 0x10000000000000000) :
    numberMeaning (Nat.toDigits 10 n) = .int n := by
  have hint : int? (Nat.toDigits 10 n) = some (n : Int) := by
    have hsign : splitSign (Nat.toDigits 10 n) = (none, Nat.toDigits 10 n) := by
      unfold splitSign
      split
      · next heq => exact absurd (isDigit_of_mem_toDigits (heq ▸ List.mem_cons_self)) (by decide)
      · next heq => exact absurd (isDigit_of_mem_toDigits (heq ▸ List.mem_cons_self)) (by decide)
      · rfl
    unfold int?
    simp only [hsign, magnitude?_toDigits, h, if_true]
  unfold numberMeaning
  simp only [isTime_toDigits, filter_toDigits, hint, Bool.false_eq_true, if_false]

theorem numberMeaning_neg {n : Nat} (h : n ≤ 0x8000000000000000) :
    numberMeaning ('-' :: Nat.toDigits 10 n) = .int (-(n : Int)) := by
  have hint : int? ('-' :: Nat.toDigits 10 n) = some (-(n : Int)) := by
    unfold int? splitSign
    simp only [magnitude?_toDigits, h, if_true]
  have hfilter : ('-' :: Nat.toDigits 10 n).filter (· != '_') = '-' :: Nat.toDigits 10 n := by
    rw [List.filter_cons_of_pos (by decide), filter_toDigits]
  unfold numberMeaning
  simp only [isTime_hyphen, hfilter, hint, Bool.false_eq_true, if_false]

theorem toList_toString_nat (n : Nat) : (toString (n : Int)).toList = Nat.toDigits 10 n :=
  Nat.toList_repr

theorem toList_toString_neg (n : Nat) :
    (toString (Int.negSucc n)).toList = '-' :: Nat.toDigits 10 (n + 1) := by
  change ("-" ++ (n + 1).repr).toList = _
  rw [String.toList_append, Nat.toList_repr]
  rfl

theorem head?_toDigits (n : Nat) :
    ∃ c rest, Nat.toDigits 10 n = c :: rest ∧ c.isDigit = true ∧ c ≠ '-' := by
  obtain ⟨c, rest, hdigits⟩ := List.exists_cons_of_ne_nil (Nat.toDigits_ne_nil : Nat.toDigits 10 n ≠ [])
  have hdigit : c.isDigit = true := isDigit_of_mem_toDigits (hdigits ▸ List.mem_cons_self)
  refine ⟨c, rest, hdigits, hdigit, ?_⟩
  rintro rfl
  exact absurd hdigit (by decide)

theorem isNumeric_toDigits (n : Nat) : isNumeric (Nat.toDigits 10 n) = true := by
  obtain ⟨c, rest, hdigits, hdigit, hhyphen⟩ := head?_toDigits n
  simp [isNumeric, hdigits, hhyphen, hdigit]

theorem isNumeric_hyphen (n : Nat) : isNumeric ('-' :: Nat.toDigits 10 n) = true := by
  obtain ⟨c, rest, hdigits, hdigit, -⟩ := head?_toDigits n
  simp [isNumeric, hdigits, hdigit]

/-- The text of a word means the word. -/
theorem meaning_word (n : Int64) : meaning (toString n.toInt) = .int n.toInt := by
  have hlow : -0x8000000000000000 ≤ n.toInt := n.le_toInt
  have hhigh : n.toInt < 0x8000000000000000 := n.toInt_lt
  cases hn : n.toInt with
  | ofNat m =>
    rw [hn] at hhigh
    change (m : Int) < 0x8000000000000000 at hhigh
    have htext := toList_toString_nat m
    change meaning (toString (m : Int)) = .int m
    rw [meaning_of_isNumeric (by rw [htext]; exact isNumeric_toDigits m), htext]
    exact numberMeaning_nat (by omega)
  | negSucc m =>
    rw [hn] at hlow
    have htext := toList_toString_neg m
    rw [meaning_of_isNumeric (by rw [htext]; exact isNumeric_hyphen (m + 1)), htext]
    exact numberMeaning_neg (by omega)

end ShaderCost.Yaml
