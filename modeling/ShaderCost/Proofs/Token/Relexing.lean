import Mathlib.Data.List.Forall2
import ShaderCost.Proofs.Token.Kinds
import ShaderCost.Proofs.Token.Tiling

/-! # Reading tokens again, one on each line

What a lexeme is does not depend on what stands behind it, once that cannot go on with it: the bytes
of a lexeme, put in front of a line break or of nothing, are read as the same lexeme
(`Cursor.next_spells`). Every class of lexemes has its own reason. A run of bytes of one kind is not
longer there (`takeWhile_of_lineEnds`), so words and digits are the same; of the symbols none has a
line break in it, so none longer fits; and a directive takes a whole line anyway.

A source whose tokens can all be read is therefore read the same from the spellings of its tokens,
each on a line of its own (`relexing_round_trip`).
-/

namespace ShaderCost

/-- Nothing more on this line. -/
def LineEnds (bytes : Bytes) : Prop := ∀ b ∈ bytes.head?, b = Byte.newline

theorem LineEnds.nil : LineEnds [] := fun _ h => absurd h (Option.not_mem_none _)

theorem LineEnds.newline (rest : Bytes) : LineEnds (Byte.newline :: rest) := fun _ h =>
  (Option.mem_some.1 h).symm

/-! ## Trivia -/

/-- Where none begins there is none. -/
theorem trivia_of_not_startsTrivia {bytes : Bytes} (h : startsTrivia bytes = false) (fresh : Bool)
    (length : Nat) : trivia .code fresh length bytes = (length, fresh) := by
  cases bytes with
  | nil => rfl
  | cons b rest =>
    cases rest with
    | nil =>
      simp only [startsTrivia, Bool.or_eq_false_iff] at h
      simp [trivia, h]
    | cons c tail =>
      simp only [startsTrivia, Bool.or_eq_false_iff] at h
      simp [trivia, h]

theorem trivia_newline (fresh : Bool) (length : Nat) (rest : Bytes) :
    trivia .code fresh length (Byte.newline :: rest) = trivia .code true (length + 1) rest := by
  rw [trivia.eq_def]
  exact if_pos rfl

/-- A line that does not begin with trivia does not when it is cut short, a lone backslash apart. -/
theorem not_startsTrivia_of_lineEnds {b : UInt8} {front more tail : Bytes}
    (h : startsTrivia (b :: front ++ more) = false) (hb : b ≠ Byte.backslash)
    (htail : LineEnds tail) : startsTrivia (b :: front ++ tail) = false := by
  cases front with
  | cons c front => exact h
  | nil =>
    have hfirst : (b == Byte.newline || Byte.isBlank b) = false := by
      cases more with
      | nil => exact h
      | cons c more =>
        simp only [List.cons_append, List.nil_append, startsTrivia, Bool.or_eq_false_iff] at h ⊢
        exact h.1.1.1
    cases tail with
    | nil => exact hfirst
    | cons c tail =>
      obtain rfl := htail c rfl
      have hslash : (Byte.newline == Byte.slash) = false := rfl
      have hstar : (Byte.newline == Byte.star) = false := rfl
      simp only [List.cons_append, List.nil_append, startsTrivia, hfirst, hslash, hstar,
        beq_eq_false_iff_ne.2 hb, Bool.and_false, Bool.false_and, Bool.or_false]

/-! ## Numbers

In each of these the bytes that are read lie in `front`; what follows is `more` in the one case and
`tail` in the other. Where a byte of the front is left over, that byte ends the reading and the tail
may be anything; where none is, the tail has to be a line's end. -/

/-- A run that ends within the front is the same before a line's end. -/
theorem takeWhile_of_lineEnds {p : UInt8 → Bool} (hp : p Byte.newline = false)
    {front more tail : Bytes}
    (htail : ((front ++ more).takeWhile p).length = front.length → LineEnds tail)
    (h : ((front ++ more).takeWhile p).length ≤ front.length) :
    (front ++ tail).takeWhile p = (front ++ more).takeWhile p := by
  induction front with
  | nil =>
    have hmore : more.takeWhile p = [] := List.length_eq_zero_iff.1 (Nat.le_zero.1 h)
    rw [List.nil_append, List.nil_append, hmore]
    cases tail with
    | nil => rfl
    | cons b tail =>
      obtain rfl := htail (Nat.le_zero.1 h) b rfl
      exact List.takeWhile_cons_of_neg (by rw [hp]; exact Bool.false_ne_true)
  | cons b front ih =>
    simp only [List.cons_append, List.takeWhile_cons] at htail h ⊢
    split
    · next hb =>
      rw [if_pos hb, List.length_cons, List.length_cons] at htail h
      rw [ih (fun hall => htail (congrArg Nat.succ hall)) (Nat.le_of_succ_le_succ h)]
    · rfl

namespace Lexeme

section Local

variable {front more tail : Bytes}

theorem digitsLength_of_lineEnds
    (htail : digitsLength (front ++ more) = front.length → LineEnds tail)
    (h : digitsLength (front ++ more) ≤ front.length) :
    digitsLength (front ++ tail) = digitsLength (front ++ more) :=
  congrArg List.length (takeWhile_of_lineEnds rfl htail h)

theorem fractionLength_of_lineEnds
    (htail : fractionLength (front ++ more) = front.length → LineEnds tail)
    (h : fractionLength (front ++ more) ≤ front.length) :
    fractionLength (front ++ tail) = fractionLength (front ++ more) := by
  cases front with
  | nil =>
    have hmore : fractionLength more = 0 := Nat.le_zero.1 h
    rw [List.nil_append, List.nil_append, hmore]
    cases tail with
    | nil => rfl
    | cons b tail =>
      obtain rfl := htail hmore b rfl
      rfl
  | cons b front =>
    simp only [List.cons_append, fractionLength] at htail h ⊢
    split
    · next hb =>
      rw [if_pos hb, List.length_cons] at htail h
      have hdigits : digitsLength (front ++ more) ≤ front.length := by omega
      rw [digitsLength_of_lineEnds (fun hall => htail (by omega)) hdigits]
    · rfl

theorem signLength_of_lineEnds (htail : front = [] → LineEnds tail)
    (h : signLength (front ++ more) ≤ front.length) :
    signLength (front ++ tail) = signLength (front ++ more) := by
  cases front with
  | nil =>
    have hmore : signLength more = 0 := Nat.le_zero.1 h
    rw [List.nil_append, List.nil_append, hmore]
    cases tail with
    | nil => rfl
    | cons b tail =>
      obtain rfl := htail rfl b rfl
      rfl
  | cons b front => rfl

theorem exponentLength_of_lineEnds
    (htail : (exponentLength (front ++ more)).1 + (exponentLength (front ++ more)).2 =
      front.length → LineEnds tail)
    (h : (exponentLength (front ++ more)).1 + (exponentLength (front ++ more)).2 ≤ front.length) :
    exponentLength (front ++ tail) = exponentLength (front ++ more) := by
  cases front with
  | nil =>
    have hmore : exponentLength more = (0, 0) := by
      rw [List.nil_append, List.length_nil] at h
      exact Prod.ext (by omega) (by omega)
    rw [List.nil_append] at htail
    rw [List.nil_append, List.nil_append, hmore]
    cases tail with
    | nil => rfl
    | cons b tail =>
      obtain rfl := htail (by rw [hmore]; rfl) b rfl
      rfl
  | cons b front =>
    simp only [List.cons_append, exponentLength] at htail h ⊢
    split
    · next hb =>
      rw [if_pos hb, List.length_cons] at htail h
      have hsign : signLength (front ++ more) ≤ front.length := by omega
      have hnone : front = [] → LineEnds tail := by
        rintro rfl
        rw [List.length_nil] at htail h
        exact htail (by omega)
      rw [signLength_of_lineEnds hnone hsign]
      rw [List.drop_append_of_le_length hsign] at htail h ⊢
      rw [List.drop_append_of_le_length hsign, digitsLength_of_lineEnds]
      · rw [List.length_drop]
        exact fun hall => htail (by omega)
      · rw [List.length_drop]
        omega
    · rfl

theorem isHex_of_lineEnds (htail : front.length = 1 → LineEnds tail)
    (h : isHex (front ++ more) = true → 2 ≤ front.length) (hfront : front ≠ []) :
    isHex (front ++ tail) = isHex (front ++ more) := by
  cases front with
  | nil => exact absurd rfl hfront
  | cons b front =>
    cases front with
    | cons c front => rfl
    | nil =>
      have hmore : isHex ([b] ++ more) = false := by
        rw [← Bool.not_eq_true]
        intro hhex
        exact absurd (h hhex) (by simp)
      rw [hmore]
      cases tail with
      | nil => rfl
      | cons c tail =>
        obtain rfl := htail rfl c rfl
        exact Bool.and_false _

end Local

theorem exponentLength_snd {bytes : Bytes} (h : (exponentLength bytes).1 = 0) :
    (exponentLength bytes).2 = 0 := by
  cases bytes with
  | nil => rfl
  | cons b rest =>
    rw [exponentLength] at h ⊢
    split at h
    · next hb => simp at h
    · next hb => rw [if_neg hb]

/-- The parts of a well-formed number's body: either digits behind `0x`, or digits, a fraction and
an exponent. -/
theorem length_numberBody {bytes : Bytes} {isFloat : Bool} {length : Nat}
    (h : numberBody bytes = .ok (isFloat, length)) :
    if isHex bytes then
      2 < length ∧ length = 2 + ((bytes.drop 2).takeWhile Byte.isHexDigit).length
    else
      let mantissa := digitsLength bytes + fractionLength (bytes.drop (digitsLength bytes))
      length = mantissa + ((exponentLength (bytes.drop mantissa)).1 +
        (exponentLength (bytes.drop mantissa)).2) := by
  unfold numberBody at h
  simp only at h
  split
  · next hhex =>
    rw [if_pos hhex] at h
    split at h
    · cases h
    · next hdigits =>
      cases h
      rw [beq_iff_eq] at hdigits
      exact ⟨by omega, rfl⟩
  · next hhex =>
    rw [if_neg hhex] at h
    split at h
    · next hmark =>
      cases h
      rw [beq_iff_eq] at hmark
      simp only [hmark, exponentLength_snd hmark, Nat.add_zero]
    split at h
    · cases h
    · cases h
      exact Nat.add_assoc _ _ _

theorem numberBody_of_lineEnds {front more tail : Bytes} (hfront : front ≠ []) {isFloat : Bool}
    {length : Nat} (htail : length = front.length ∨ front.length = 1 → LineEnds tail)
    (hlength : length ≤ front.length)
    (h : numberBody (front ++ more) = .ok (isFloat, length)) :
    numberBody (front ++ tail) = .ok (isFloat, length) := by
  have hparts := length_numberBody h
  have hhex : isHex (front ++ tail) = isHex (front ++ more) := by
    refine isHex_of_lineEnds (fun hone => htail (Or.inr hone)) (fun hhex => ?_) hfront
    rw [if_pos hhex] at hparts
    omega
  rw [← h]
  unfold numberBody
  rw [hhex]
  split
  · next hhex =>
    rw [if_pos hhex] at hparts
    have htwo : 2 ≤ front.length := by omega
    have hdigits : ((front ++ tail).drop 2).takeWhile Byte.isHexDigit =
        ((front ++ more).drop 2).takeWhile Byte.isHexDigit := by
      rw [List.drop_append_of_le_length htwo] at hparts
      rw [List.drop_append_of_le_length htwo, List.drop_append_of_le_length htwo]
      apply takeWhile_of_lineEnds rfl
      · rw [List.length_drop]
        exact fun hall => htail (Or.inl (by omega))
      · rw [List.length_drop]
        omega
    rw [hdigits]
  · next hhex =>
    rw [if_neg hhex] at hparts
    simp only at hparts
    have hwhole : digitsLength (front ++ tail) = digitsLength (front ++ more) :=
      digitsLength_of_lineEnds (fun hall => htail (Or.inl (by omega))) (by omega)
    have hfraction : fractionLength ((front ++ tail).drop (digitsLength (front ++ more))) =
        fractionLength ((front ++ more).drop (digitsLength (front ++ more))) := by
      have hle : digitsLength (front ++ more) ≤ front.length := by omega
      generalize digitsLength (front ++ more) = whole at *
      rw [List.drop_append_of_le_length hle] at hparts
      rw [List.drop_append_of_le_length hle, List.drop_append_of_le_length hle]
      apply fractionLength_of_lineEnds
      · rw [List.length_drop]
        exact fun hall => htail (Or.inl (by omega))
      · rw [List.length_drop]
        omega
    simp only [hwhole, hfraction]
    generalize digitsLength (front ++ more) +
      fractionLength ((front ++ more).drop (digitsLength (front ++ more))) = mantissa at *
    have hle : mantissa ≤ front.length := by omega
    have hexponent : exponentLength ((front ++ tail).drop mantissa) =
        exponentLength ((front ++ more).drop mantissa) := by
      rw [List.drop_append_of_le_length hle] at hparts
      rw [List.drop_append_of_le_length hle, List.drop_append_of_le_length hle]
      apply exponentLength_of_lineEnds
      · rw [List.length_drop]
        exact fun hall => htail (Or.inl (by omega))
      · rw [List.length_drop]
        omega
    rw [hexponent]

theorem length_le_scanNumber {bytes : Bytes} {isFloat : Bool} {length : Nat}
    (h : numberBody bytes = .ok (isFloat, length)) : length ≤ (scanNumber bytes).2 := by
  unfold scanNumber
  rw [h]
  simp only
  cases bytes.drop length with
  | nil => exact Nat.le_refl length
  | cons b rest =>
    simp only
    split
    · exact Nat.le_succ length
    split
    · exact Nat.le_succ length
    split
    · exact Nat.le_refl length
    · exact Nat.le_refl length

/-- A number that can be read has a body. -/
theorem numberBody_of_scanNumber {bytes : Bytes} (hgood : (scanNumber bytes).1.isLast = false) :
    ∃ isFloat length, numberBody bytes = .ok (isFloat, length) ∧ length ≤ (scanNumber bytes).2 := by
  cases hbody : numberBody bytes with
  | error e =>
    unfold scanNumber at hgood
    rw [hbody] at hgood
    cases hgood
  | ok body => exact ⟨body.1, body.2, rfl, length_le_scanNumber hbody⟩

section Front

variable {front more tail : Bytes} (htail : LineEnds tail) (hfront : front ≠ [])
include htail hfront

theorem scanNumber_of_lineEnds {lexeme : Lexeme} (hgood : lexeme.isLast = false)
    (h : scanNumber (front ++ more) = (lexeme, front.length)) :
    scanNumber (front ++ tail) = (lexeme, front.length) := by
  have hread : (scanNumber (front ++ more)).1.isLast = false := by
    rw [h]
    exact hgood
  obtain ⟨isFloat, length, hbody, hlength⟩ := numberBody_of_scanNumber hread
  rw [h] at hlength
  simp only at hlength
  unfold scanNumber at h ⊢
  rw [hbody] at h
  rw [numberBody_of_lineEnds hfront (fun _ => htail) hlength hbody]
  simp only [List.take_append_of_le_length hlength, List.drop_append_of_le_length hlength] at h ⊢
  cases hrest : front.drop length with
  | cons b rest =>
    -- the suffix is part of the front
    rw [hrest] at h
    exact h
  | nil =>
    have hall : front.length ≤ length := List.drop_eq_nil_iff.1 hrest
    rw [hrest, List.nil_append] at h
    have hplain : ((if isFloat then float (Bytes.toAscii (front.take length))
        else int (Bytes.toAscii (front.take length))), length) = (lexeme, front.length) := by
      cases more with
      | nil => exact h
      | cons b more =>
        simp only at h
        split at h
        · have hlonger := (Prod.mk.inj h).2
          omega
        split at h
        · have hlonger := (Prod.mk.inj h).2
          omega
        split at h
        · rw [← (Prod.mk.inj h).1] at hgood
          cases hgood
        · exact h
    rw [List.nil_append, ← hplain]
    cases tail with
    | nil => rfl
    | cons b tail =>
      obtain rfl := htail b rfl
      cases isFloat with
      | true => rfl
      | false => rfl

/-- Where a number is read within the front, it also begins before a line's end: a point in front of
a digit takes that digit with it. -/
theorem startsNumber_of_lineEnds (hgood : (scanNumber (front ++ more)).1.isLast = false)
    (hlength : (scanNumber (front ++ more)).2 = front.length)
    (h : startsNumber (front ++ more) = true) : startsNumber (front ++ tail) = true := by
  cases front with
  | nil => exact absurd rfl hfront
  | cons b front =>
    cases front with
    | cons c front => exact h
    | nil =>
      have hdigit : Byte.isDigit b = true := by
        cases more with
        | nil => exact h
        | cons c more =>
          rw [List.singleton_append] at h hgood hlength
          rw [startsNumber, Bool.or_eq_true, Bool.and_eq_true, beq_iff_eq] at h
          rcases h with hb | ⟨rfl, hc⟩
          · exact hb
          · obtain ⟨isFloat, length, hbody, hle⟩ := numberBody_of_scanNumber hgood
            have hparts := length_numberBody hbody
            have hhex : isHex (Byte.dot :: c :: more) = false := rfl
            have hwhole : digitsLength (Byte.dot :: c :: more) = 0 := rfl
            have hfraction : fractionLength (Byte.dot :: c :: more) =
                1 + digitsLength (c :: more) := rfl
            rw [hhex, if_neg Bool.false_ne_true, hwhole, List.drop_zero, hfraction] at hparts
            have hdigits : digitsLength (c :: more) = digitsLength more + 1 := by
              rw [digitsLength, List.takeWhile_cons_of_pos hc]
              rfl
            rw [hlength, List.length_singleton] at hle
            omega
      cases tail with
      | nil => exact hdigit
      | cons c tail =>
        rw [List.singleton_append, startsNumber, hdigit, Bool.true_or]

theorem not_startsNumber_of_lineEnds (h : startsNumber (front ++ more) = false) :
    startsNumber (front ++ tail) = false := by
  cases front with
  | nil => exact absurd rfl hfront
  | cons b front =>
    cases front with
    | cons c front => exact h
    | nil =>
      have hdigit : Byte.isDigit b = false := by
        cases more with
        | nil => exact h
        | cons c more =>
          rw [List.singleton_append, startsNumber, Bool.or_eq_false_iff] at h
          exact h.1
      cases tail with
      | nil => exact hdigit
      | cons c tail =>
        obtain rfl := htail c rfl
        rw [List.singleton_append, startsNumber, hdigit, Bool.false_or]
        exact Bool.and_false _

end Front

/-! ## Symbols -/

/-- What has no line break in it does not reach over one. -/
theorem prefix_of_lineEnds {word front tail : Bytes} (htail : LineEnds tail)
    (hword : Byte.newline ∉ word) (h : word <+: front ++ tail) : word <+: front := by
  induction front generalizing word with
  | nil =>
    cases word with
    | nil => exact List.prefix_rfl
    | cons b word =>
      cases tail with
      | nil => exact h
      | cons c tail =>
        obtain rfl := htail c rfl
        rw [List.nil_append, List.cons_prefix_cons] at h
        exact absurd (h.1 ▸ List.mem_cons_self) hword
  | cons c front ih =>
    cases word with
    | nil => exact List.nil_prefix
    | cons b word =>
      rw [List.cons_append, List.cons_prefix_cons] at h
      rw [List.cons_prefix_cons]
      exact ⟨h.1, ih (fun hmem => hword (List.mem_cons_of_mem b hmem)) h.2⟩

theorem prefix_of_symbolAt? {mark : Symbol} {bytes : Bytes} (h : symbolAt? bytes = some mark) :
    mark.bytes <+: bytes := by
  have hfits := List.find?_some h
  exact List.isPrefixOf_iff_prefix.1 hfits

theorem symbolAt?_of_lineEnds {mark : Symbol} {more tail : Bytes} (htail : LineEnds tail)
    (h : symbolAt? (mark.bytes ++ more) = some mark) :
    symbolAt? (mark.bytes ++ tail) = some mark := by
  obtain ⟨-, before, behind, hall, hbefore⟩ := List.find?_eq_some_iff_append.1 h
  refine List.find?_eq_some_iff_append.2 ⟨?_, before, behind, hall, fun other hother => ?_⟩
  · rw [List.isPrefixOf_iff_prefix]
    exact List.prefix_append _ _
  · have hnot := hbefore other hother
    rw [Bool.not_eq_true', ← Bool.not_eq_true, List.isPrefixOf_iff_prefix] at hnot ⊢
    intro hfits
    have hnewline : Byte.newline ∉ other.bytes := fun hmem => by
      have hink := (symbol_inked other).2 _ hmem
      cases hink
    exact hnot ((prefix_of_lineEnds htail hnewline hfits).trans (List.prefix_append _ _))

/-- No symbol begins with one of these. -/
theorem symbol_head (mark : Symbol) :
    mark.bytes.head? ≠ some Byte.hash ∧ mark.bytes.head? ≠ some Byte.backslash := by
  cases mark <;> decide +kernel

/-- A hash that begins no directive, or a backslash that continues no line, cannot be read. -/
theorem scan_isLast_of_stray {fresh : Bool} {b : UInt8} {rest : Bytes}
    (hb : b = Byte.hash ∧ fresh = false ∨ b = Byte.backslash) :
    (scan fresh (b :: rest)).1.isLast = true := by
  have hsymbol : symbolAt? (b :: rest) = none := by
    cases hfound : symbolAt? (b :: rest) with
    | none => rfl
    | some mark =>
      have hfront := prefix_of_symbolAt? hfound
      obtain ⟨hhash, hbackslash⟩ := symbol_head mark
      obtain ⟨hpos, -⟩ := symbol_inked mark
      have hhead : mark.bytes.head? = some b := by
        cases hbytes : mark.bytes with
        | nil => simp [hbytes] at hpos
        | cons c bytes =>
          rw [hbytes, List.cons_prefix_cons] at hfront
          rw [hfront.1]
          rfl
      rcases hb with ⟨rfl, -⟩ | rfl
      · exact absurd hhead hhash
      · exact absurd hhead hbackslash
  have hnumber : startsNumber (b :: rest) = false := by
    rcases hb with ⟨rfl, -⟩ | rfl
    · cases rest <;> rfl
    · cases rest <;> rfl
  have hname : Byte.isNameStart b = false := by
    rcases hb with ⟨rfl, -⟩ | rfl
    · rfl
    · rfl
  have hdirective : (b == Byte.hash && fresh) = false := by
    rcases hb with ⟨rfl, rfl⟩ | rfl
    · rfl
    · rfl
  rw [scan]
  simp only [hdirective, hname, hnumber, hsymbol, Bool.false_eq_true, if_false]
  rfl

/-! ## All lexemes -/

theorem scanDirective_of_lineEnds {front more tail : Bytes} (htail : LineEnds tail)
    (h : (scanDirective (front ++ more)).2 ≤ front.length) :
    scanDirective (front ++ tail) = scanDirective (front ++ more) := by
  unfold scanDirective
  rw [takeWhile_of_lineEnds rfl (fun _ => htail) h]

theorem scanWord_of_lineEnds {front more tail : Bytes} (htail : LineEnds tail)
    (h : (scanWord (front ++ more)).2 ≤ front.length) :
    scanWord (front ++ tail) = scanWord (front ++ more) := by
  unfold scanWord
  rw [takeWhile_of_lineEnds rfl (fun _ => htail) h]

/-- A lexeme that can be read is read from its own bytes, at the front of a line. -/
theorem scan_of_lineEnds {fresh : Bool} {front more tail : Bytes} {lexeme : Lexeme}
    (htail : LineEnds tail) (hfront : front ≠ []) (hgood : lexeme.isLast = false)
    (h : scan fresh (front ++ more) = (lexeme, front.length)) :
    scan true (front ++ tail) = (lexeme, front.length) := by
  obtain ⟨b, bytes, rfl⟩ := List.exists_cons_of_ne_nil hfront
  have hfresh : scan true (b :: bytes ++ more) = (lexeme, (b :: bytes).length) := by
    cases fresh with
    | true => exact h
    | false =>
      have hhash : b ≠ Byte.hash := fun hb => by
        have hlast : (scan false (b :: bytes ++ more)).1.isLast = true :=
          scan_isLast_of_stray (Or.inl ⟨hb, rfl⟩)
        rw [h, hgood] at hlast
        cases hlast
      rw [← h]
      simp only [List.cons_append, scan, beq_eq_false_iff_ne.2 hhash, Bool.false_and]
  rw [List.cons_append, scan, ← List.cons_append] at hfresh ⊢
  split at hfresh
  · next hhash =>
    rw [if_pos hhash, scanDirective_of_lineEnds htail (by rw [hfresh])]
    exact hfresh
  next hhash =>
  rw [if_neg hhash]
  split at hfresh
  · next hname =>
    rw [if_pos hname, scanWord_of_lineEnds htail (by rw [hfresh])]
    exact hfresh
  next hname =>
  rw [if_neg hname]
  split at hfresh
  · next hnumber =>
    have hstarts := startsNumber_of_lineEnds htail hfront (by rw [hfresh]; exact hgood)
      (by rw [hfresh]) hnumber
    rw [if_pos hstarts]
    exact scanNumber_of_lineEnds htail hfront hgood hfresh
  next hnumber =>
  have hnot := not_startsNumber_of_lineEnds htail hfront (Bool.eq_false_iff.2 hnumber)
  rw [if_neg (Bool.eq_false_iff.1 hnot)]
  cases hsymbol : symbolAt? (b :: bytes ++ more) with
  | none =>
    rw [hsymbol] at hfresh
    rw [← (Prod.mk.inj hfresh).1] at hgood
    cases hgood
  | some mark =>
    rw [hsymbol] at hfresh
    obtain ⟨hlexeme, hlength⟩ := Prod.mk.inj hfresh
    have hbytes : mark.bytes = b :: bytes :=
      (List.prefix_of_prefix_length_le (prefix_of_symbolAt? hsymbol) (List.prefix_append _ _)
        (Nat.le_of_eq hlength)).eq_of_length hlength
    rw [← hbytes] at hsymbol ⊢
    rw [symbolAt?_of_lineEnds htail hsymbol, ← hlexeme]

end Lexeme

/-- The bytes of a lexeme: at the front of a line it is read from them, however the line ends. -/
structure Spells (word : Bytes) (lexeme : Lexeme) : Prop where
  good : lexeme.isLast = false
  oneLine : Byte.newline ∉ word
  bare {tail : Bytes} (htail : LineEnds tail) : startsTrivia (word ++ tail) = false
  scanned {tail : Bytes} (htail : LineEnds tail) :
    Lexeme.scan true (word ++ tail) = (lexeme, word.length)

namespace Cursor

variable {source : Bytes} {c : Cursor}

theorem spelling_next (h : c.On source) (hlength : c.nextLength ≤ c.passTrivia.rest.length) :
    c.next.1.spelling source = c.passTrivia.rest.take c.nextLength := by
  have hhere := passTrivia_on h
  have hstart : c.next.1.start = c.passTrivia.position.offset := rfl
  rw [Token.spelling, Bytes.slice, List.drop_take, stop_next, offset_pass hhere hlength, hstart,
    Nat.add_sub_cancel_left, ← hhere.position.1]

/-- A token that can be read is spelled by its bytes. -/
theorem next_spells (h : c.On source) (hgood : c.next.1.lexeme.isLast = false) :
    Spells (c.next.1.spelling source) c.next.1.lexeme := by
  rcases scan_passTrivia c with ⟨-, hend⟩ | hspans
  · rw [hend] at hgood
    cases hgood
  rw [spelling_next h hspans.within]
  have htrivia := not_startsTrivia_passTrivia c
  have hscan : Lexeme.scan c.passTrivia.fresh c.passTrivia.rest =
    (c.next.1.lexeme, c.nextLength) := rfl
  have hlength : (c.passTrivia.rest.take c.nextLength).length = c.nextLength :=
    List.length_take_of_le hspans.within
  have hpos := hspans.pos
  have honeLine := hspans.oneLine
  generalize c.next.1.lexeme = lexeme at *
  -- the front is the lexeme, and the rest what follows it in the source
  rw [← List.take_append_drop c.nextLength c.passTrivia.rest] at htrivia hscan
  generalize c.passTrivia.rest.take c.nextLength = front at *
  generalize c.passTrivia.rest.drop c.nextLength = more at *
  rw [← hlength] at hscan hpos
  have hfront : front ≠ [] := List.ne_nil_of_length_pos hpos
  obtain ⟨b, bytes, rfl⟩ := List.exists_cons_of_ne_nil hfront
  have hbackslash : b ≠ Byte.backslash := fun hb => by
    have hlast : (Lexeme.scan c.passTrivia.fresh (b :: bytes ++ more)).1.isLast = true :=
      Lexeme.scan_isLast_of_stray (Or.inr hb)
    rw [hscan, hgood] at hlast
    cases hlast
  exact ⟨hgood, honeLine, fun htail => not_startsTrivia_of_lineEnds htrivia hbackslash htail,
    fun htail => Lexeme.scan_of_lineEnds htail hfront hgood hscan⟩

/-- Every token comes from a cursor on the source. -/
theorem exists_next_of_mem_take (h : c.On source) {count : Nat} {token : Token}
    (htoken : token ∈ c.take count) : ∃ here : Cursor, here.On source ∧ token = here.next.1 := by
  induction count generalizing c with
  | zero => cases htoken
  | succ count ih =>
    rcases List.mem_cons.1 htoken with rfl | htoken
    · exact ⟨c, h, rfl⟩
    · exact ih (next_on h) htoken

end Cursor

/-- Every token of a source is the next one of a cursor on it. -/
theorem exists_next_of_mem_tokenize {source : Bytes} {token : Token}
    (htoken : token ∈ tokenize source) : ∃ c : Cursor, c.On source ∧ token = c.next.1 := by
  obtain ⟨count, -, htake⟩ := Cursor.tokens_eq_take [] (Cursor.start source) (source.length + 1)
  rw [tokenize, htake] at htoken
  exact Cursor.exists_next_of_mem_take (Cursor.start_on source) htoken

theorem tokenize_spells (source : Bytes) {token : Token} (htoken : token ∈ tokenize source)
    (hgood : token.lexeme.isLast = false) : Spells (token.spelling source) token.lexeme := by
  obtain ⟨c, hc, rfl⟩ := exists_next_of_mem_tokenize htoken
  exact Cursor.next_spells hc hgood

/-- The end of input stands behind all bytes. -/
theorem start_of_endOfInput {source : Bytes} {token : Token} (htoken : token ∈ tokenize source)
    (hend : token.lexeme = .endOfInput) : token.start = source.length := by
  obtain ⟨c, hc, rfl⟩ := exists_next_of_mem_tokenize htoken
  exact (Cursor.next_follows hc).atEnd hend

/-! ## One lexeme on each line -/

theorem Bytes.join_cons (separator : UInt8) (word : Bytes) (words : List Bytes) :
    join [separator] (word :: words) = word ++ words.flatMap (separator :: ·) := by
  induction words generalizing word with
  | nil => simp [join, List.intercalate]
  | cons next words ih =>
    have hnext := ih next
    simp only [join, List.intercalate] at hnext ⊢
    rw [List.intersperse_cons_cons, List.flatten_cons, List.flatten_cons, hnext]
    rfl

theorem lineEnds_flatMap (words : List Bytes) :
    LineEnds (words.flatMap (Byte.newline :: ·)) := by
  cases words with
  | nil => exact .nil
  | cons word words => exact .newline _

theorem Position.line_foldl_after {bytes : Bytes} (h : Byte.newline ∉ bytes) (p : Position) :
    (bytes.foldl after p).line = p.line := by
  induction bytes generalizing p with
  | nil => rfl
  | cons b bytes ih =>
    have hb : b ≠ Byte.newline := fun hb => h (hb ▸ List.mem_cons_self)
    rw [List.foldl_cons, ih (fun hmem => h (List.mem_cons_of_mem b hmem)), after,
      if_neg (by simpa using hb)]

namespace Cursor

variable {c : Cursor} {line : Nat} {word : Bytes} {words : List Bytes} {lexeme : Lexeme}
  {lexemes : List Lexeme}

/-- The words are what is left of the source, each on a line of its own, the first of them on the
given line. -/
def AtLine (c : Cursor) (line : Nat) : List Bytes → Prop
  | [] => c.rest = []
  | word :: words => ∃ offset, c.passTrivia =
      ⟨⟨offset, line, offset⟩, word ++ words.flatMap (Byte.newline :: ·), true⟩

theorem start_atLine (h : List.Forall₂ Spells words lexemes) :
    (start (Bytes.join [Byte.newline] words)).AtLine 1 words := by
  cases h with
  | nil => rfl
  | @cons word lexeme words lexemes hword _ =>
    refine ⟨0, ?_⟩
    have htrivia := trivia_of_not_startsTrivia (hword.bare (lineEnds_flatMap words)) true 0
    rw [Bytes.join_cons]
    simp only [passTrivia, start, htrivia]
    rfl

/-- Behind the word on one line the next word stands on the next line. -/
theorem atLine_succ (h : List.Forall₂ Spells words lexemes)
    (hrest : c.rest = words.flatMap (Byte.newline :: ·)) (hline : c.position.line = line) :
    c.AtLine (line + 1) words := by
  cases h with
  | nil => exact hrest
  | @cons word lexeme words lexemes hword _ =>
    refine ⟨c.position.offset + 1, ?_⟩
    have htrivia := trivia_of_not_startsTrivia (hword.bare (lineEnds_flatMap words)) true 1
    rw [List.flatMap_cons, List.cons_append] at hrest
    have hbreak : trivia .code c.fresh 0 c.rest = (1, true) := by
      rw [hrest, trivia_newline]
      exact htrivia
    simp only [passTrivia, hbreak, pass]
    rw [hrest, ← hline]
    rfl

/-- One word is read, and the rest of the words stand behind it. -/
theorem next_atLine (hword : Spells word lexeme) (h : c.AtLine line (word :: words)) :
    c.next.1.lexeme = lexeme ∧ c.next.1.line = line ∧ c.next.1.column = 1 ∧
      c.next.2.rest = words.flatMap (Byte.newline :: ·) ∧ c.next.2.position.line = line := by
  obtain ⟨offset, hhere⟩ := h
  have hscan := hword.scanned (lineEnds_flatMap words)
  have hlexeme : c.next.1.lexeme = (Lexeme.scan c.passTrivia.fresh c.passTrivia.rest).1 := rfl
  have hline : c.next.1.line = c.passTrivia.position.line := rfl
  have hcolumn : c.next.1.column = c.passTrivia.position.column := rfl
  have hbehind : c.next.2.position =
    (c.passTrivia.rest.take c.nextLength).foldl .after c.passTrivia.position := rfl
  have hlength : c.nextLength = word.length := by
    rw [nextLength, hhere]
    exact congrArg Prod.snd hscan
  rw [hlexeme, hline, hcolumn, hbehind, rest_next, hlength, hhere]
  refine ⟨congrArg Prod.fst hscan, rfl, ?_, List.drop_left, ?_⟩
  · simp only [Position.column, Nat.sub_self]
  · rw [List.take_left, Position.line_foldl_after hword.oneLine]

/-- The words are read as their lexemes, one on each line. -/
theorem tokens_atLine (hwords : List.Forall₂ Spells words lexemes) (seen : List Token)
    (limit : Nat) (h : c.AtLine line words) (hlimit : c.rest.length < limit) :
    ∃ front last, tokens seen c limit = seen.reverse ++ (front ++ [last]) ∧
      last.lexeme = .endOfInput ∧ front.map Token.lexeme = lexemes ∧
      ∀ i token, front[i]? = some token → token.line = line + i ∧ token.column = 1 := by
  induction hwords generalizing c line seen limit with
  | nil =>
    cases limit with
    | zero => cases hlimit
    | succ limit =>
      refine ⟨[], endAt c.position, ?_, rfl, rfl, fun i token htoken => ?_⟩
      · rw [tokens, next_of_rest_nil h]
        exact List.reverse_cons
      · simp at htoken
  | @cons word lexeme words lexemes hword hwords ih =>
    cases limit with
    | zero => cases hlimit
    | succ limit =>
      obtain ⟨hlexeme, hline, hcolumn, hrest, hbehind⟩ := next_atLine hword h
      have hgood : c.next.1.lexeme.isLast = false := by
        rw [hlexeme]
        exact hword.good
      have hshorter := length_next_lt c fun hend => by
        rw [hend] at hgood
        cases hgood
      obtain ⟨front, last, htokens, hlast, hlexemes, hplaces⟩ :=
        ih (c.next.1 :: seen) limit (atLine_succ hwords hrest hbehind) (by omega)
      refine ⟨c.next.1 :: front, last, ?_, hlast, ?_, fun i token htoken => ?_⟩
      · rw [tokens]
        simp only
        rw [if_neg (by rw [hgood]; exact Bool.false_ne_true), htokens, List.reverse_cons,
          List.append_assoc]
        rfl
      · rw [List.map_cons, hlexeme, hlexemes]
      · cases i with
        | zero =>
          obtain rfl : c.next.1 = token := Option.some.inj htoken
          exact ⟨hline, hcolumn⟩
        | succ i =>
          obtain ⟨hlater, hfirst⟩ := hplaces i token htoken
          exact ⟨by omega, hfirst⟩

end Cursor

/-! ## The source -/

/-- The spellings of the tokens of a source, the end of input apart, each on a line of its own. -/
def relined (source : Bytes) : Bytes :=
  Bytes.join [Byte.newline]
    (((tokenize source).filter fun token => token.lexeme ≠ .endOfInput).map (Token.spelling source))

/-- A source that can be read to its end is read the same when each of its tokens stands on a line
of its own: kinds and values are the same, the tokens stand at the fronts of the lines, and the end
of input behind the last of them. -/
theorem relexing_round_trip (source : Bytes)
    (h : (tokenize source).getLast?.map Token.lexeme = some .endOfInput) :
    (tokenize (relined source)).getLast?.map Token.lexeme = some .endOfInput ∧
      (tokenize (relined source)).map Token.shown = (tokenize source).map Token.shown ∧
      ∀ i token, (tokenize (relined source))[i]? = some token →
        (token.lexeme ≠ .endOfInput → token.line = i + 1 ∧ token.column = 1) ∧
        (token.lexeme = .endOfInput → token.start = (relined source).length) := by
  obtain ⟨front, last, htokens, -, hgood⟩ := tokenize_ending source
  have hlast : last.lexeme = .endOfInput := by
    rw [htokens, List.getLast?_concat] at h
    exact Option.some.inj h
  have hrelined : relined source =
      Bytes.join [Byte.newline] (front.map (Token.spelling source)) := by
    have hkept : front.filter (fun token => token.lexeme ≠ .endOfInput) = front := by
      rw [List.filter_eq_self]
      intro token htoken
      have hmore := hgood token htoken
      rw [decide_eq_true_iff]
      intro hend
      rw [hend] at hmore
      cases hmore
    rw [relined, htokens, List.filter_append, hkept, List.filter_cons_of_neg (by simp [hlast]),
      List.filter_nil, List.append_nil]
  have hspells : List.Forall₂ Spells (front.map (Token.spelling source))
      (front.map Token.lexeme) := by
    rw [List.forall₂_map_left_iff, List.forall₂_map_right_iff, List.forall₂_same]
    intro token htoken
    refine tokenize_spells source ?_ (hgood token htoken)
    rw [htokens]
    exact List.mem_append_left _ htoken
  obtain ⟨front', last', htokens', hlast', hlexemes, hplaces⟩ :=
    Cursor.tokens_atLine hspells [] _ (Cursor.start_atLine hspells) (Nat.lt_succ_self _)
  rw [← hrelined] at htokens'
  have hread : tokenize (relined source) = front' ++ [last'] := htokens'
  refine ⟨?_, map_shown_eq_of_lexeme ?_, fun i token htoken => ⟨fun hnotEnd => ?_, fun hend => ?_⟩⟩
  · rw [hread, List.getLast?_concat, Option.map_some, hlast']
  · rw [hread, htokens, List.map_append, List.map_append, hlexemes, List.map_singleton,
      List.map_singleton, hlast, hlast']
  · rw [hread] at htoken
    rcases Nat.lt_or_ge i front'.length with hi | hi
    · rw [List.getElem?_append_left hi] at htoken
      obtain ⟨hline, hcolumn⟩ := hplaces i token htoken
      exact ⟨by omega, hcolumn⟩
    · rw [List.getElem?_append_right hi] at htoken
      have hmem := List.mem_singleton.1 (List.mem_of_getElem? htoken)
      rw [hmem] at hnotEnd
      exact absurd hlast' hnotEnd
  · exact start_of_endOfInput (List.mem_of_getElem? htoken) hend

/-- Tokens that touch, numbers that end in a point or a suffix, a comment and a blank that keep
symbols apart, a directive with a comment and a carriage return. -/
def touchingTokens : Bytes :=
  Bytes.ofString " #if 0 // no\r\n.5.x+++1.f/ *p-0x1Fu/**/-=\\\n1e-3F 2.>>=q"

theorem relexing_touchingTokens :
    (tokenize touchingTokens).getLast?.map Token.lexeme = some .endOfInput ∧
      relined touchingTokens = Bytes.ofString
        "#if 0 // no\r\n.5\n.\nx\n++\n+\n1.f\n/\n*\np\n-\n0x1Fu\n-=\n1e-3F\n2.\n>>=\nq" ∧
      (tokenize (relined touchingTokens)).map Token.shown =
        (tokenize touchingTokens).map Token.shown := by
  have hend : (tokenize touchingTokens).getLast?.map Token.lexeme = some .endOfInput := by
    decide +kernel
  have hrelined : relined touchingTokens = Bytes.ofString
      "#if 0 // no\r\n.5\n.\nx\n++\n+\n1.f\n/\n*\np\n-\n0x1Fu\n-=\n1e-3F\n2.\n>>=\nq" := by
    decide +kernel
  generalize touchingTokens = source at *
  exact ⟨hend, hrelined, (relexing_round_trip source hend).2.1⟩

end ShaderCost
