import ShaderCost.Text.Utf8

/-! # Texts and their bytes

A text can be read back from its bytes (`toString?_ofString`). The bytes of a character are known by
the first of them, and each number of bytes is a case of its own, so what is read at the front does not
depend on what follows (`first_utf8EncodeChar`).
-/

namespace ShaderCost

namespace Utf8

/-! ## Sequences by their length -/

variable {a b c d : UInt8}

theorem first_pair (ha : 0x80 ≤ a) (h : isPair a b = true) (rest : Bytes) :
    first a (b :: rest) = (.char (scalar 5 a [b]), 2) := by
  unfold first
  rw [if_neg (UInt8.not_lt.2 ha)]
  rcases rest with _ | ⟨c, _ | ⟨d, rest⟩⟩ <;> simp only [h, if_true]

theorem first_triple (ha : 0xe0 ≤ a) (h : isTriple a b c = true) (rest : Bytes) :
    first a (b :: c :: rest) = (.char (scalar 4 a [b, c]), 3) := by
  have hpair : isPair a b = false := by
    unfold isPair
    have hnot : ¬ a ≤ 0xdf := by
      simp only [UInt8.le_iff_toNat_le] at ha ⊢
      simp at ha ⊢
      omega
    simp [hnot]
  have hmany : ¬ a < 0x80 := by
    simp only [UInt8.le_iff_toNat_le, UInt8.lt_iff_toNat_lt] at ha ⊢
    simp at ha ⊢
    omega
  unfold first
  rw [if_neg hmany]
  rcases rest with _ | ⟨d, rest⟩ <;> simp only [hpair, h, if_true, Bool.false_eq_true, if_false]

theorem first_quadruple (ha : 0xf0 ≤ a) (h : isQuadruple a b c d = true) (rest : Bytes) :
    first a (b :: c :: d :: rest) = (.char (scalar 3 a [b, c, d]), 4) := by
  have hbounds : ¬ a ≤ 0xdf ∧ ¬ a ≤ 0xef ∧ ¬ a < 0x80 := by
    simp only [UInt8.le_iff_toNat_le, UInt8.lt_iff_toNat_lt] at ha ⊢
    simp at ha ⊢
    omega
  have hpair : isPair a b = false := by simp [isPair, hbounds]
  have htriple : isTriple a b c = false := by simp [isTriple, hbounds]
  unfold first
  rw [if_neg hbounds.2.2]
  simp only [hpair, htriple, h, if_true, Bool.false_eq_true, if_false]

/-! ## The bytes of a character -/

theorem toNat_ofNat {n : Nat} (h : n < 256) : (UInt8.ofNat n).toNat = n := by
  rw [UInt8.toNat_ofNat', Nat.mod_eq_of_lt h]

theorem isTail_ofNat {n : Nat} (h : n < 64) : isTail (UInt8.ofNat (n + 128)) = true := by
  unfold isTail
  simp only [UInt8.le_iff_toNat_le, toNat_ofNat (show n + 128 < 256 by omega), Bool.and_eq_true,
    decide_eq_true_eq]
  exact ⟨by simp, by simp; omega⟩

/-- A character is no surrogate. -/
theorem toNat_valid (c : Char) : c.toNat < 0xd800 ∨ 0xdfff < c.toNat ∧ c.toNat < 0x110000 := by
  have h := c.valid
  simpa [UInt32.isValidChar, Nat.isValidChar] using h

theorem isPair_ofNat {high low : Nat} (hhigh : 2 ≤ high) (hhigh' : high < 32) (hlow : low < 64) :
    isPair (UInt8.ofNat (high + 192)) (UInt8.ofNat (low + 128)) = true := by
  unfold isPair
  rw [isTail_ofNat hlow]
  simp only [UInt8.le_iff_toNat_le, toNat_ofNat (show high + 192 < 256 by omega), Bool.and_eq_true,
    decide_eq_true_eq]
  simp
  omega

/-- The second of three or four bytes is one more of the sequence, and within bounds of its own
behind two of the first bytes. -/
theorem bounds_of_isTail {a b x y l u : UInt8} (hb : isTail b = true) (hl : a = x → l ≤ b)
    (hu : a = y → b ≤ u) :
    (if a == x then l else 0x80) ≤ b ∧ b ≤ (if a == y then u else 0xbf) := by
  obtain ⟨hlow, hhigh⟩ : 0x80 ≤ b ∧ b ≤ 0xbf := by simpa [isTail] using hb
  constructor
  · split
    · next heq => exact hl (beq_iff_eq.1 heq)
    · exact hlow
  · split
    · next heq => exact hu (beq_iff_eq.1 heq)
    · exact hhigh

theorem isTriple_ofNat {high mid low : Nat} (hhigh : high < 16) (hmid : mid < 64) (hlow : low < 64)
    (hlong : high = 0 → 32 ≤ mid) (hsurrogate : high = 13 → mid < 32) :
    isTriple (UInt8.ofNat (high + 224)) (UInt8.ofNat (mid + 128)) (UInt8.ofNat (low + 128)) =
      true := by
  unfold isTriple
  simp only [Bool.and_eq_true, decide_eq_true_eq, and_assoc]
  refine ⟨?_, ?_, and_assoc.1 ⟨bounds_of_isTail (isTail_ofNat hmid) ?_ ?_, isTail_ofNat hlow⟩⟩ <;>
    simp only [UInt8.le_iff_toNat_le, ← UInt8.toNat_inj,
      toNat_ofNat (show high + 224 < 256 by omega),
      toNat_ofNat (show mid + 128 < 256 by omega)] <;> simp <;> omega

theorem isQuadruple_ofNat {high mid mid' low : Nat} (hhigh : high < 5) (hmid : mid < 64)
    (hmid' : mid' < 64) (hlow : low < 64) (hlong : high = 0 → 16 ≤ mid)
    (hlast : high = 4 → mid < 16) :
    isQuadruple (UInt8.ofNat (high + 240)) (UInt8.ofNat (mid + 128)) (UInt8.ofNat (mid' + 128))
      (UInt8.ofNat (low + 128)) = true := by
  unfold isQuadruple
  simp only [Bool.and_eq_true, decide_eq_true_eq, and_assoc]
  refine ⟨?_, ?_, and_assoc.1 ⟨bounds_of_isTail (isTail_ofNat hmid) ?_ ?_, isTail_ofNat hmid',
    isTail_ofNat hlow⟩⟩ <;>
    simp only [UInt8.le_iff_toNat_le, ← UInt8.toNat_inj,
      toNat_ofNat (show high + 240 < 256 by omega),
      toNat_ofNat (show mid + 128 < 256 by omega)] <;> simp <;> omega

section Scalars

variable {n : Nat} (rest : Bytes)

theorem first_one (h : n < 0x80) : first (UInt8.ofNat n) rest = (.char (Char.ofNat n), 1) := by
  have hbyte := toNat_ofNat (show n < 256 by omega)
  unfold first
  rw [if_pos (by rw [UInt8.lt_iff_toNat_lt, hbyte]; exact h), Byte.toChar, hbyte]

theorem first_two (h : 0x80 ≤ n) (h' : n < 0x800) :
    first (UInt8.ofNat (n / 64 % 32 + 192)) (UInt8.ofNat (n % 64 + 128) :: rest) =
      (.char (Char.ofNat n), 2) := by
  have hhigh := toNat_ofNat (show n / 64 % 32 + 192 < 256 by omega)
  rw [first_pair _ (isPair_ofNat (by omega) (by omega) (by omega))]
  · have hsum : (n / 64 % 32 + 192) % Nat.pow 2 5 * 64 + (n % 64 + 128) % 64 = n := by
      change (n / 64 % 32 + 192) % 32 * 64 + (n % 64 + 128) % 64 = n
      omega
    simp only [scalar, List.foldl_cons, List.foldl_nil, hhigh,
      toNat_ofNat (show n % 64 + 128 < 256 by omega), hsum]
  · rw [UInt8.le_iff_toNat_le, hhigh]
    simp

theorem first_three (h : 0x800 ≤ n) (h' : n < 0x10000) (hvalid : n < 0xd800 ∨ 0xdfff < n) :
    first (UInt8.ofNat (n / 4096 % 16 + 224))
        (UInt8.ofNat (n / 64 % 64 + 128) :: UInt8.ofNat (n % 64 + 128) :: rest) =
      (.char (Char.ofNat n), 3) := by
  have hhigh := toNat_ofNat (show n / 4096 % 16 + 224 < 256 by omega)
  rw [first_triple _ (isTriple_ofNat (by omega) (by omega) (by omega) (by omega) (by omega))]
  · have hsum : ((n / 4096 % 16 + 224) % Nat.pow 2 4 * 64 + (n / 64 % 64 + 128) % 64) * 64 +
        (n % 64 + 128) % 64 = n := by
      change ((n / 4096 % 16 + 224) % 16 * 64 + (n / 64 % 64 + 128) % 64) * 64 +
        (n % 64 + 128) % 64 = n
      omega
    simp only [scalar, List.foldl_cons, List.foldl_nil, hhigh,
      toNat_ofNat (show n / 64 % 64 + 128 < 256 by omega),
      toNat_ofNat (show n % 64 + 128 < 256 by omega), hsum]
  · rw [UInt8.le_iff_toNat_le, hhigh]
    simp

theorem first_four (h : 0x10000 ≤ n) (h' : n < 0x110000) :
    first (UInt8.ofNat (n / 262144 % 8 + 240)) (UInt8.ofNat (n / 4096 % 64 + 128) ::
        UInt8.ofNat (n / 64 % 64 + 128) :: UInt8.ofNat (n % 64 + 128) :: rest) =
      (.char (Char.ofNat n), 4) := by
  have hhigh := toNat_ofNat (show n / 262144 % 8 + 240 < 256 by omega)
  rw [first_quadruple _
    (isQuadruple_ofNat (by omega) (by omega) (by omega) (by omega) (by omega) (by omega))]
  · have hsum : (((n / 262144 % 8 + 240) % Nat.pow 2 3 * 64 + (n / 4096 % 64 + 128) % 64) * 64 +
        (n / 64 % 64 + 128) % 64) * 64 + (n % 64 + 128) % 64 = n := by
      change (((n / 262144 % 8 + 240) % 8 * 64 + (n / 4096 % 64 + 128) % 64) * 64 +
        (n / 64 % 64 + 128) % 64) * 64 + (n % 64 + 128) % 64 = n
      omega
    simp only [scalar, List.foldl_cons, List.foldl_nil, hhigh,
      toNat_ofNat (show n / 4096 % 64 + 128 < 256 by omega),
      toNat_ofNat (show n / 64 % 64 + 128 < 256 by omega),
      toNat_ofNat (show n % 64 + 128 < 256 by omega), hsum]
  · rw [UInt8.le_iff_toNat_le, hhigh]
    simp

end Scalars

/-- A character is read at the front of its bytes. -/
theorem first_utf8EncodeChar (c : Char) (rest : Bytes) : ∃ a tail,
    String.utf8EncodeChar c = a :: tail ∧ first a (tail ++ rest) = (.char c, tail.length + 1) := by
  have hvalid := toNat_valid c
  have hchar : Char.ofNat c.val.toNat = c := Char.ofNat_toNat c
  unfold String.utf8EncodeChar
  change c.val.toNat < _ ∨ _ < c.val.toNat ∧ c.val.toNat < _ at hvalid
  simp only
  generalize c.val.toNat = n at *
  rw [← hchar]
  split
  · exact ⟨_, _, rfl, first_one _ (by omega)⟩
  split
  · exact ⟨_, _, rfl, first_two _ (by omega) (by omega)⟩
  split
  · exact ⟨_, _, rfl, first_three _ (by omega) (by omega) (by omega)⟩
  · exact ⟨_, _, rfl, first_four _ (by omega) (by omega)⟩

/-! ## Texts -/

theorem glyphsFrom_skip (acc : List Glyph) (passed rest : Bytes) :
    glyphsFrom acc passed.length (passed ++ rest) = glyphsFrom acc 0 rest := by
  induction passed with
  | nil => rfl
  | cons b passed ih =>
    rw [List.length_cons, List.cons_append, glyphsFrom]
    exact ih

theorem glyphsFrom_flatMap (acc : List Glyph) (text : List Char) :
    glyphsFrom acc 0 (text.flatMap String.utf8EncodeChar) = acc.reverse ++ text.map Glyph.char := by
  induction text generalizing acc with
  | nil => simp [glyphsFrom]
  | cons c text ih =>
    obtain ⟨a, tail, hbytes, hfirst⟩ :=
      first_utf8EncodeChar c (text.flatMap String.utf8EncodeChar)
    rw [List.flatMap_cons, hbytes, List.cons_append, glyphsFrom, hfirst]
    simp only [Nat.add_sub_cancel]
    rw [glyphsFrom_skip, ih]
    simp

end Utf8

/-- The text of a byte string that a text was written as is that text. -/
theorem Bytes.toString?_ofString (text : String) : (ofString text).toString? = some text := by
  have hglyphs : Utf8.glyphs (ofString text) = text.toList.map Glyph.char :=
    Utf8.glyphsFrom_flatMap [] text.toList
  have hshown : (text.toList.map Glyph.char).map Glyph.shown = text.toList := by
    rw [List.map_map]
    exact List.map_id _
  unfold toString?
  simp only [hglyphs, hshown, String.ofList_toList]
  rw [if_pos]
  simp

end ShaderCost
