import Mathlib.Data.Nat.Digits.Defs
import ShaderCost.Grammar.Literal
import ShaderCost.Proofs.Token.Delimiters

/-! # What integers denote

The spelling of an integer is a numeral: its front tells the base, and each digit counts for its
place (`Numeral.number`). Two parts of the program read it, each by rules of its own. The scanner
takes hexadecimal digits behind `0x` and decimal ones elsewhere (`Lexeme.IntegerBody`), so it never
leaves a hexadecimal mark alone, but it takes `8` and `9` behind a leading zero. The conversion
reads the digits from left to right and stops at the first that is none of the base or leads out of
32 bits (`Literal.digits_eq_ok_iff`); a number never gets smaller on the way, so it stops for the
range if and only if the whole number is out of it.

Together an integer has a value if and only if its digits are digits of the base and the number is a
word of 32 bits, and then the value is that word (`integer_literals_denote`).
-/

namespace ShaderCost

/-! ## Numerals -/

namespace Numeral

/-- Whether the text begins with `0x` or `0X`. -/
def isHex (text : String) : Bool :=
  ['0', 'x'].isPrefixOf text.toList || ['0', 'X'].isPrefixOf text.toList

/-- The base that the front of the text tells. -/
def base (text : String) : Nat :=
  if isHex text then 16 else if text.toList.head? == some '0' then 8 else 10

/-- The characters that are to be digits: all but the mark of the hexadecimal base. -/
def digits (text : String) : List Char :=
  if isHex text then text.toList.drop 2 else text.toList

/-- The place of a digit among all sixteen; what is none is behind them. -/
def digitValue (c : Char) : Nat := "0123456789abcdef".toList.idxOf c.toLower

/-- All digits are digits of the base. -/
def WellFormed (text : String) : Prop := ∀ c ∈ digits text, digitValue c < base text

instance (text : String) : Decidable (WellFormed text) :=
  List.decidableBAll (fun c => digitValue c < base text) (digits text)

/-- A hexadecimal mark has something behind it. -/
def MarkFollowed (text : String) : Prop := isHex text = true → digits text ≠ []

/-- The number in positional notation, the last digit being the least significant one. -/
def number (text : String) : Nat :=
  Nat.ofDigits (base text) ((digits text).reverse.map digitValue)

/-- The number behind digits that gave `start`, read from left to right. -/
def horner (base start : Nat) (text : List Char) : Nat :=
  text.foldl (fun value c => value * base + digitValue c) start

theorem number_eq_horner (text : String) : number text = horner (base text) 0 (digits text) := by
  rw [number, horner, Nat.ofDigits_eq_foldr, List.foldr_map, List.foldr_reverse]
  congr
  funext value c
  rw [Nat.cast_id, Nat.add_comm, Nat.mul_comm]

theorem le_horner {base : Nat} (hbase : 0 < base) (start : Nat) (text : List Char) :
    start ≤ horner base start text := by
  induction text generalizing start with
  | nil => exact Nat.le_refl start
  | cons c text ih =>
    calc start ≤ start * base := Nat.le_mul_of_pos_right start hbase
      _ ≤ start * base + digitValue c := Nat.le_add_right _ _
      _ ≤ horner base start (c :: text) := ih _

/-- All digits are ASCII characters, and small letters are taken of those only. -/
theorem digitValue_of_not_ascii {c : Char} (h : 128 ≤ c.toNat) : digitValue c = 16 := by
  have hlower : c.toLower = c := by
    refine dif_neg ?_
    rintro ⟨-, hle⟩
    have hle : c.toNat ≤ 'Z'.toNat := UInt32.le_iff_toNat_le.1 hle
    exact absurd (Nat.le_trans h hle) (by decide)
  have hdigits : "0123456789abcdef".toList.all (·.toNat < 128) = true := by decide +kernel
  rw [digitValue, hlower]
  refine List.idxOf_eq_length fun hmem => ?_
  have hc := List.all_eq_true.1 hdigits c hmem
  exact absurd (of_decide_eq_true hc) (Nat.not_lt.2 h)

/-- The two marks behind the zero. -/
theorem isHex_iff {text : String} : isHex text = true ↔
    ∃ mark rest, text.toList = '0' :: mark :: rest ∧ (mark = 'x' ∨ mark = 'X') := by
  rw [isHex, Bool.or_eq_true, List.isPrefixOf_iff_prefix, List.isPrefixOf_iff_prefix]
  constructor
  · rintro (⟨rest, htext⟩ | ⟨rest, htext⟩)
    · exact ⟨'x', rest, htext.symm, Or.inl rfl⟩
    · exact ⟨'X', rest, htext.symm, Or.inr rfl⟩
  · rintro ⟨mark, rest, htext, rfl | rfl⟩
    · exact Or.inl ⟨rest, htext.symm⟩
    · exact Or.inr ⟨rest, htext.symm⟩

theorem base_bounds (text : String) : 0 < base text ∧ base text ≤ 16 := by
  unfold base
  split
  · decide
  · split <;> decide

end Numeral

/-! ## The conversion -/

namespace Literal

open Numeral (digitValue horner)

theorem digit?_of_not_ascii {c : Char} (h : 128 ≤ c.toNat) : digit? c = none := by
  have hbehind : ∀ d : Char, d.toNat < 128 → ¬ c ≤ d := fun d hd hle =>
    absurd (Nat.le_trans h (UInt32.le_iff_toNat_le.1 hle)) (Nat.not_le.2 hd)
  simp [digit?, hbehind '9' (by decide), hbehind 'f' (by decide), hbehind 'F' (by decide)]

theorem digit?_eq (c : Char) :
    digit? c = if digitValue c < 16 then some (digitValue c) else none := by
  by_cases hascii : c.toNat < 128
  · have hall : ∀ n : Fin 128, digit? (Char.ofNat n) =
        if digitValue (Char.ofNat n) < 16 then some (digitValue (Char.ofNat n)) else none := by
      decide +kernel
    have hc := hall ⟨c.toNat, hascii⟩
    rwa [Char.ofNat_toNat] at hc
  · have hbehind : 128 ≤ c.toNat := Nat.not_lt.1 hascii
    rw [digit?_of_not_ascii hbehind, Numeral.digitValue_of_not_ascii hbehind,
      if_neg (Nat.lt_irrefl 16)]

theorem digit?_eq_some {c : Char} {d : Nat} (h : digit? c = some d) : digitValue c = d := by
  rw [digit?_eq] at h
  split at h
  · exact Option.some.inj h
  · cases h

theorem digit?_eq_none {c : Char} (h : digit? c = none) : 16 ≤ digitValue c := by
  rw [digit?_eq] at h
  split at h
  · cases h
  · next hbehind => exact Nat.not_lt.1 hbehind

/-- The digits are read to the end if and only if all are digits of the base and the number they
make is in range: once it is out of range, no digit takes it back. -/
theorem digits_eq_ok_iff {base start result : Nat} {text : List Char} (hpos : 0 < base)
    (hbase : base ≤ 16) (hstart : start < 0x100000000) :
    digits base start text = .ok result ↔
      (∀ c ∈ text, digitValue c < base) ∧ horner base start text < 0x100000000 ∧
        result = horner base start text := by
  fun_induction digits base start text with
  | case1 value =>
    refine ⟨fun h => ?_, fun h => congrArg Except.ok h.2.2.symm⟩
    cases h
    exact ⟨fun c hc => absurd hc List.not_mem_nil, hstart, rfl⟩
  | case2 value c rest hnone =>
    refine iff_of_false (by simp) fun h => ?_
    have hc := h.1 c List.mem_cons_self
    have hbehind := digit?_eq_none hnone
    omega
  | case3 value c rest d hsome hd =>
    refine iff_of_false (by simp) fun h => ?_
    have hc := h.1 c List.mem_cons_self
    rw [digit?_eq_some hsome] at hc
    omega
  | case4 value c rest d hsome hd hbig =>
    refine iff_of_false (by simp) fun h => ?_
    have hgrows : value * base + digitValue c ≤ horner base value (c :: rest) :=
      Numeral.le_horner hpos _ rest
    rw [digit?_eq_some hsome] at hgrows
    omega
  | case5 value c rest d hsome hd hfits ih =>
    have hstep : horner base value (c :: rest) = horner base (value * base + d) rest := by
      rw [← digit?_eq_some hsome]
      rfl
    have hc : digitValue c < base := by
      rw [digit?_eq_some hsome]
      omega
    rw [ih (by omega), hstep, List.forall_mem_cons, and_iff_right hc]

/-- Where a hexadecimal mark has digits behind it, the digits of the numeral are read in its base. A
leading zero is passed over in between, which changes nothing. -/
theorem word_eq_digits {text : String} (h : Numeral.MarkFollowed text) :
    word text = digits (Numeral.base text) 0 (Numeral.digits text) := by
  unfold word
  split
  · next c rest htext => simp [Numeral.base, Numeral.digits, Numeral.isHex, htext]
  · next c rest htext => simp [Numeral.base, Numeral.digits, Numeral.isHex, htext]
  · next rest hx hX htext =>
    have hhex : ¬ Numeral.isHex text = true := by
      intro hhex
      obtain ⟨mark, behind, hmarked, hmark⟩ := Numeral.isHex_iff.1 hhex
      have hdigits := h hhex
      rw [Numeral.digits, if_pos hhex, hmarked] at hdigits
      obtain ⟨c, behind, rfl⟩ := List.exists_cons_of_ne_nil hdigits
      obtain ⟨-, rfl⟩ := List.cons.inj (htext.symm.trans hmarked)
      rcases hmark with rfl | rfl
      · exact hx c behind rfl
      · exact hX c behind rfl
    rw [Numeral.base, if_neg hhex, Numeral.digits, if_neg hhex, htext, List.head?_cons,
      if_pos (beq_self_eq_true _)]
    rfl
  · next hx hX hzero =>
    have hhex : ¬ Numeral.isHex text = true := by
      intro hhex
      obtain ⟨mark, behind, hmarked, -⟩ := Numeral.isHex_iff.1 hhex
      exact hzero _ hmarked
    have hhead : ¬ (text.toList.head? == some '0') = true := by
      rw [beq_iff_eq, List.head?_eq_some_iff]
      rintro ⟨rest, htext⟩
      exact hzero rest htext
    rw [Numeral.base, if_neg hhex, if_neg hhead, Numeral.digits, if_neg hhex]

theorem word_eq_ok_iff {text : String} {result : Nat} (h : Numeral.MarkFollowed text) :
    word text = .ok result ↔ Numeral.WellFormed text ∧ Numeral.number text < 0x100000000 ∧
      result = Numeral.number text := by
  obtain ⟨hpos, hbase⟩ := Numeral.base_bounds text
  rw [word_eq_digits h, digits_eq_ok_iff hpos hbase (by decide), Numeral.number_eq_horner]
  rfl

end Literal

/-! ## The scanner -/

namespace Lexeme

/-- The bytes of an integer without its suffix. -/
inductive IntegerBody : Bytes → Prop where
  | hexadecimal {mark : UInt8} {digits : Bytes} (isMark : mark ∈ [Byte.ofChar 'x', Byte.ofChar 'X'])
    (nonempty : digits ≠ []) (isDigits : ∀ b ∈ digits, Byte.isHexDigit b = true) :
    IntegerBody (Byte.zero :: mark :: digits)
  | decimal {digits : Bytes} (isDigits : ∀ b ∈ digits, Byte.isDigit b = true) : IntegerBody digits

theorem integerBody_of_isHex {bytes : Bytes} {length : Nat} (hhex : isHex bytes = true)
    (h : numberBody bytes = .ok (false, length)) : IntegerBody (bytes.take length) := by
  have hparts := length_numberBody h
  rw [if_pos hhex] at hparts
  obtain ⟨hlong, rfl⟩ := hparts
  cases bytes with
  | nil => cases hhex
  | cons b rest =>
    cases rest with
    | nil => cases hhex
    | cons mark rest =>
      simp only [isHex, Bool.and_eq_true, Bool.or_eq_true, beq_iff_eq] at hhex
      obtain ⟨rfl, hmark⟩ := hhex
      rw [Nat.add_comm, List.take_succ_cons, List.take_succ_cons]
      rw [List.drop_succ_cons, List.drop_succ_cons, List.drop_zero] at hlong ⊢
      rw [take_takeWhile]
      refine .hexadecimal (by simpa using hmark) (fun hnil => ?_)
        (List.all_eq_true.1 List.all_takeWhile)
      rw [hnil] at hlong
      exact absurd hlong (Nat.lt_irrefl 2)

/-- A point or an exponent makes a number a float, so that an integer ends with its first digits. -/
theorem integerBody_of_not_isHex {bytes : Bytes} {length : Nat} (hhex : ¬ isHex bytes = true)
    (h : numberBody bytes = .ok (false, length)) : IntegerBody (bytes.take length) := by
  unfold numberBody at h
  rw [if_neg hhex] at h
  simp only at h
  split at h
  · obtain ⟨hfraction, rfl⟩ := Prod.mk.inj (Except.ok.inj h)
    have hnone : fractionLength (bytes.drop (digitsLength bytes)) = 0 := by simpa using hfraction
    rw [hnone, Nat.add_zero, digitsLength, take_takeWhile]
    exact .decimal (List.all_eq_true.1 List.all_takeWhile)
  · split at h
    · cases h
    · cases h

theorem integerBody_of_numberBody {bytes : Bytes} {length : Nat}
    (h : numberBody bytes = .ok (false, length)) : IntegerBody (bytes.take length) := by
  by_cases hhex : isHex bytes = true
  · exact integerBody_of_isHex hhex h
  · exact integerBody_of_not_isHex hhex h

/-- An integer, signed or not, with the given spelling. -/
def IsInteger (text : String) (lexeme : Lexeme) : Prop := lexeme = .int text ∨ lexeme = .uint text

theorem IsInteger.of_withoutSuffix {isFloat : Bool} {digits text : String}
    (h : (withoutSuffix isFloat digits).IsInteger text) : isFloat = false ∧ text = digits := by
  cases isFloat <;> rcases h with heq | heq <;> cases heq
  exact ⟨rfl, rfl⟩

theorem IsInteger.of_withSuffix {isFloat : Bool} {digits text : String}
    (h : (withSuffix isFloat digits).IsInteger text) : isFloat = false ∧ text = digits := by
  cases isFloat <;> rcases h with heq | heq <;> cases heq
  exact ⟨rfl, rfl⟩

theorem NumberRead.integerBody {bytes : Bytes} {lexeme : Lexeme} {length : Nat} {text : String}
    (h : NumberRead bytes lexeme length) (hinteger : lexeme.IsInteger text) :
    ∃ body, IntegerBody body ∧ text = Bytes.toAscii body := by
  cases h with
  | plain hbody =>
    obtain ⟨rfl, rfl⟩ := hinteger.of_withoutSuffix
    exact ⟨_, integerBody_of_numberBody hbody, rfl⟩
  | suffixed hbody =>
    obtain ⟨rfl, rfl⟩ := hinteger.of_withSuffix
    exact ⟨_, integerBody_of_numberBody hbody, rfl⟩
  | reported => rcases hinteger with heq | heq <;> cases heq

theorem scan_integerBody {fresh : Bool} {bytes : Bytes} {text : String}
    (h : (scan fresh bytes).1.IsInteger text) :
    ∃ body, IntegerBody body ∧ text = Bytes.toAscii body := by
  have hnumber : (scan fresh bytes).1.IsNumber := ⟨text, h.imp_right Or.inl⟩
  rw [scan_of_startsNumber (startsNumber_of_isNumber hnumber)] at h
  exact (scanNumber_read bytes).integerBody h

/-! ### Digits of bytes -/

theorem toList_toAscii (body : Bytes) : (Bytes.toAscii body).toList = body.map Byte.toChar :=
  String.toList_ofList

theorem digitValue_toChar (b : UInt8) :
    (Byte.isDigit b = true → Numeral.digitValue (Byte.toChar b) < 10) ∧
      (Byte.isHexDigit b = true → Numeral.digitValue (Byte.toChar b) < 16) := by
  have hall : ∀ n : Fin 256,
      (Byte.isDigit (.ofFin n) = true → Numeral.digitValue (Byte.toChar (.ofFin n)) < 10) ∧
        (Byte.isHexDigit (.ofFin n) = true → Numeral.digitValue (Byte.toChar (.ofFin n)) < 16) := by
    decide +kernel
  exact hall b.toFin

/-- Without a mark there is no hexadecimal numeral: `x` is no decimal digit. -/
theorem not_isHex_of_isDigit {body : Bytes} (h : ∀ b ∈ body, Byte.isDigit b = true) :
    ¬ Numeral.isHex (Bytes.toAscii body) = true := by
  intro hhex
  obtain ⟨mark, rest, htext, hmark⟩ := Numeral.isHex_iff.1 hhex
  have hmem : mark ∈ body.map Byte.toChar := by
    rw [← toList_toAscii, htext]
    exact List.mem_cons_of_mem _ List.mem_cons_self
  obtain ⟨b, hb, rfl⟩ := List.mem_map.1 hmem
  have hlt := (digitValue_toChar b).1 (h b hb)
  rcases hmark with hmark | hmark
  · rw [hmark] at hlt
    exact absurd hlt (by decide)
  · rw [hmark] at hlt
    exact absurd hlt (by decide)

theorem isHex_of_mark {mark : UInt8} (h : mark ∈ [Byte.ofChar 'x', Byte.ofChar 'X'])
    (digits : Bytes) : Numeral.isHex (Bytes.toAscii (Byte.zero :: mark :: digits)) = true := by
  refine Numeral.isHex_iff.2 ⟨Byte.toChar mark, digits.map Byte.toChar, toList_toAscii _, ?_⟩
  simp only [List.mem_cons, List.not_mem_nil, or_false] at h
  rcases h with rfl | rfl
  · exact Or.inl rfl
  · exact Or.inr rfl

namespace IntegerBody

variable {body : Bytes}

theorem markFollowed (h : IntegerBody body) : Numeral.MarkFollowed (Bytes.toAscii body) := by
  intro hhex
  cases h with
  | hexadecimal _ hnonempty _ =>
    rw [Numeral.digits, if_pos hhex, toList_toAscii]
    exact fun hnil => hnonempty (List.map_eq_nil_iff.1 hnil)
  | decimal hdigits => exact absurd hhex (not_isHex_of_isDigit hdigits)

/-- The scanner takes digits of the base only, unless the base is eight. -/
theorem wellFormed (h : IntegerBody body) (hbase : Numeral.base (Bytes.toAscii body) ≠ 8) :
    Numeral.WellFormed (Bytes.toAscii body) := by
  intro c hc
  cases h with
  | @hexadecimal mark digits hmark _ hdigits =>
    have hhex := isHex_of_mark hmark digits
    rw [Numeral.digits, if_pos hhex, toList_toAscii] at hc
    obtain ⟨b, hb, rfl⟩ := List.mem_map.1 hc
    rw [Numeral.base, if_pos hhex]
    exact (digitValue_toChar b).2 (hdigits b hb)
  | decimal hdigits =>
    have hhex := not_isHex_of_isDigit hdigits
    rw [Numeral.digits, if_neg hhex, toList_toAscii] at hc
    obtain ⟨b, hb, rfl⟩ := List.mem_map.1 hc
    rw [Numeral.base, if_neg hhex] at hbase ⊢
    split at hbase
    · exact absurd rfl hbase
    · next hzero =>
      rw [if_neg hzero]
      exact (digitValue_toChar b).1 (hdigits b hb)

end IntegerBody

end Lexeme

/-! ## Integers of a source -/

theorem Literal.map_word_eq_ok_iff {text : String} {f : Nat → Constant} {value : Constant}
    (h : Numeral.MarkFollowed text) :
    (word text).map f = .ok value ↔ Numeral.WellFormed text ∧
      Numeral.number text < 0x100000000 ∧ value = f (Numeral.number text) := by
  constructor
  · intro hvalue
    cases hword : word text with
    | error fault =>
      rw [hword] at hvalue
      cases hvalue
    | ok result =>
      rw [hword] at hvalue
      cases hvalue
      obtain ⟨hdigits, hrange, rfl⟩ := (word_eq_ok_iff h).1 hword
      exact ⟨hdigits, hrange, rfl⟩
  · rintro ⟨hdigits, hrange, rfl⟩
    rw [(word_eq_ok_iff h).2 ⟨hdigits, hrange, rfl⟩]
    rfl

theorem Literal.value_uint (text : String) :
    value (.uint text) = (word text).map fun result => .uint result := by
  rw [value]
  cases word text <;> rfl

theorem Cursor.integerBody_of_mem_take {source : Bytes} {count : Nat} {token : Token}
    {text : String} (h : token ∈ (Cursor.start source).take count)
    (hinteger : token.lexeme.IsInteger text) :
    ∃ body, Lexeme.IntegerBody body ∧ text = Bytes.toAscii body := by
  obtain ⟨c, -, rfl⟩ := exists_next_of_mem_take (start_on source) h
  exact Lexeme.scan_integerBody hinteger

/-- An integer of a source, signed or not, has a value if and only if all its digits are digits of
the base that its front tells and the number is below `2 ^ 32`. An unsigned integer then has that
number as its value, and a signed one the number of the same 32 bits in two's complement. Only
behind a leading zero can there be digits that are none of the base. -/
theorem integer_literals_denote {source : Bytes} {count : Nat} {token : Token} {text : String}
    (h : token ∈ (Cursor.start source).take count) :
    (token.lexeme = .int text → ∀ value, Literal.value token.lexeme = .ok value ↔
      Numeral.WellFormed text ∧ Numeral.number text < 0x100000000 ∧
        value = .int (if Numeral.number text < 0x80000000 then Numeral.number text
          else (Numeral.number text : Int) - 0x100000000)) ∧
    (token.lexeme = .uint text → ∀ value, Literal.value token.lexeme = .ok value ↔
      Numeral.WellFormed text ∧ Numeral.number text < 0x100000000 ∧
        value = .uint (Numeral.number text)) ∧
    (token.lexeme.IsInteger text → Numeral.base text ≠ 8 → Numeral.WellFormed text) := by
  have hmark : token.lexeme.IsInteger text → Numeral.MarkFollowed text := by
    intro hinteger
    obtain ⟨body, hbody, rfl⟩ := Cursor.integerBody_of_mem_take h hinteger
    exact hbody.markFollowed
  refine ⟨fun hint value => ?_, fun huint value => ?_, fun hinteger => ?_⟩
  · have hfollowed := hmark (Or.inl hint)
    rw [hint]
    exact Literal.map_word_eq_ok_iff hfollowed
  · have hfollowed := hmark (Or.inr huint)
    rw [huint, Literal.value_uint]
    exact Literal.map_word_eq_ok_iff hfollowed
  · obtain ⟨body, hbody, rfl⟩ := Cursor.integerBody_of_mem_take h hinteger
    exact hbody.wellFormed

/-- The greatest word, an octal number, one with a digit too great, and one more than the greatest
word. -/
def integerBounds : Bytes := Bytes.ofString "0xFFFFFFFF 037u 089 4294967296"

theorem integer_literals_denote_integerBounds :
    (∃ token ∈ (Cursor.start integerBounds).take 4, token.lexeme = .int "0xFFFFFFFF" ∧
      Literal.value token.lexeme = .ok (.int (-1))) ∧
    (∃ token ∈ (Cursor.start integerBounds).take 4, token.lexeme = .uint "037" ∧
      Literal.value token.lexeme = .ok (.uint 31)) ∧
    (∃ token ∈ (Cursor.start integerBounds).take 4, token.lexeme = .int "089" ∧
      ∀ value, Literal.value token.lexeme ≠ .ok value) ∧
    ∃ token ∈ (Cursor.start integerBounds).take 4, token.lexeme = .int "4294967296" ∧
      Numeral.WellFormed "4294967296" ∧ ∀ value, Literal.value token.lexeme ≠ .ok value := by
  have hgreatest : (⟨.int "0xFFFFFFFF", 0, 10, 1, 1⟩ : Token) ∈
      (Cursor.start integerBounds).take 4 := by decide +kernel
  have hoctal : (⟨.uint "037", 11, 15, 1, 12⟩ : Token) ∈
      (Cursor.start integerBounds).take 4 := by decide +kernel
  have hwrong : (⟨.int "089", 16, 19, 1, 17⟩ : Token) ∈
      (Cursor.start integerBounds).take 4 := by decide +kernel
  have hbig : (⟨.int "4294967296", 20, 30, 1, 21⟩ : Token) ∈
      (Cursor.start integerBounds).take 4 := by decide +kernel
  refine ⟨⟨_, hgreatest, rfl, ?_⟩, ⟨_, hoctal, rfl, ?_⟩, ⟨_, hwrong, rfl, fun value hvalue => ?_⟩,
    _, hbig, rfl, ?_, fun value hvalue => ?_⟩
  · exact ((integer_literals_denote hgreatest).1 rfl _).2 (by decide +kernel)
  · exact ((integer_literals_denote hoctal).2.1 rfl _).2 (by decide +kernel)
  · have hdigits := (((integer_literals_denote hwrong).1 rfl _).1 hvalue).1
    exact absurd hdigits (by decide +kernel)
  · exact (integer_literals_denote hbig).2.2 (Or.inl rfl) (by decide +kernel)
  · have hrange := (((integer_literals_denote hbig).1 rfl _).1 hvalue).2.1
    exact absurd hrange (by decide +kernel)

end ShaderCost
