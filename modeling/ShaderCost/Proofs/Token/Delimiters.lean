import ShaderCost.Proofs.Token.Relexing

/-! # Where numbers end

A run of digits ends before a byte that is none of them, so no digit stands behind the body of a
number (`numberBody_stops`). If a letter or an underscore does, the number is reported, unless it is
the suffix of that number. So a number without a suffix is delimited: the byte behind it, if there
is one, cannot be part of a name.

A suffix ends the number whatever stands behind it (`scan_of_suffix`). The number is delimited there
only if the source happens to go on so: `1ux` is a number and a name
(`suffixed_number_runs_into_name`). There is no other exception (`numbers_delimited_or_suffixed`).
-/

namespace ShaderCost

/-- The bytes do not begin with one of the given kind. -/
def Ends (p : UInt8 → Bool) (bytes : Bytes) : Prop := ∀ b ∈ bytes.head?, p b = false

theorem ends_takeWhile (p : UInt8 → Bool) (bytes : Bytes) :
    Ends p (bytes.drop (bytes.takeWhile p).length) := by
  induction bytes with
  | nil => exact fun _ hb => absurd hb (Option.not_mem_none _)
  | cons b rest ih =>
    by_cases hb : p b = true
    · rw [List.takeWhile_cons_of_pos hb]
      exact ih
    · rw [List.takeWhile_cons_of_neg hb]
      intro c hc
      cases hc
      exact Bool.eq_false_iff.2 hb

theorem Ends.mono {p q : UInt8 → Bool} (hpq : ∀ b, q b = true → p b = true) {bytes : Bytes}
    (h : Ends p bytes) : Ends q bytes := by
  intro b hb
  have hp := h b hb
  rw [Bool.eq_false_iff] at hp ⊢
  exact fun hq => hp (hpq b hq)

theorem Byte.hash_of_isDigit {b : UInt8} (h : isDigit b = true) : (b == hash) = false := by
  rw [beq_eq_false_iff_ne]
  rintro rfl
  cases h

theorem Byte.isNameStart_of_isDigit {b : UInt8} (h : isDigit b = true) : isNameStart b = false := by
  rw [← Bool.not_eq_true]
  intro hstart
  simp only [isDigit, isNameStart, Bool.or_eq_true, Bool.and_eq_true, decide_eq_true_iff,
    beq_iff_eq, UInt8.le_iff_toNat_le] at h hstart
  rcases hstart with (⟨hlow, -⟩ | ⟨hlow, -⟩) | rfl
  · exact absurd (Nat.le_trans hlow h.2) (by decide)
  · exact absurd (Nat.le_trans hlow h.2) (by decide)
  · exact absurd h.2 (by decide)

namespace Lexeme

/-! ## The body of a number -/

theorem mantissa_stops (bytes : Bytes) : Ends Byte.isDigit
    (bytes.drop (digitsLength bytes + fractionLength (bytes.drop (digitsLength bytes)))) := by
  have hwhole : Ends Byte.isDigit (bytes.drop (digitsLength bytes)) := ends_takeWhile _ bytes
  rw [← List.drop_drop]
  generalize bytes.drop (digitsLength bytes) = behind at *
  cases behind with
  | nil => exact hwhole
  | cons b rest =>
    rw [fractionLength]
    split
    · rw [Nat.add_comm, List.drop_succ_cons]
      exact ends_takeWhile _ rest
    · exact hwhole

theorem exponent_stops {bytes : Bytes} (hmark : (exponentLength bytes).1 ≠ 0) : Ends Byte.isDigit
    (bytes.drop ((exponentLength bytes).1 + (exponentLength bytes).2)) := by
  cases bytes with
  | nil => exact absurd rfl hmark
  | cons b rest =>
    rw [exponentLength] at hmark ⊢
    split at hmark
    · next hb =>
      rw [if_pos hb, Nat.add_assoc, Nat.add_comm 1, List.drop_succ_cons, ← List.drop_drop]
      exact ends_takeWhile _ _
    · exact absurd rfl hmark

/-- No digit stands behind the body of a number. -/
theorem numberBody_stops {bytes : Bytes} {isFloat : Bool} {length : Nat}
    (h : numberBody bytes = .ok (isFloat, length)) : Ends Byte.isDigit (bytes.drop length) := by
  have hparts := length_numberBody h
  split at hparts
  · rw [hparts.2, ← List.drop_drop]
    refine Ends.mono (fun b hb => ?_) (ends_takeWhile Byte.isHexDigit (bytes.drop 2))
    simp [Byte.isHexDigit, hb]
  · simp only at hparts
    have hmantissa := mantissa_stops bytes
    generalize digitsLength bytes + fractionLength (bytes.drop (digitsLength bytes)) = mantissa at *
    rw [hparts, ← List.drop_drop]
    by_cases hmark : (exponentLength (bytes.drop mantissa)).1 = 0
    · rw [hmark, exponentLength_snd hmark]
      exact hmantissa
    · exact exponent_stops hmark

/-! ## A whole number -/

/-- An integer, an unsigned integer or a float. -/
def IsNumber (lexeme : Lexeme) : Prop :=
  ∃ digits, lexeme = .int digits ∨ lexeme = .uint digits ∨ lexeme = .float digits

/-- The bytes that are suffixes, of floats and of integers. -/
def suffixes (isFloat : Bool) : Bytes :=
  if isFloat then [Byte.ofChar 'f', Byte.ofChar 'F'] else [Byte.ofChar 'u', Byte.ofChar 'U']

/-- A number with a suffix: its digits are read without it. -/
def withSuffix (isFloat : Bool) (digits : String) : Lexeme :=
  if isFloat then .float digits else .uint digits

def withoutSuffix (isFloat : Bool) (digits : String) : Lexeme :=
  if isFloat then .float digits else .int digits

/-- Why a number cannot be read. -/
def numberErrors : List LexError := [.malformedHex, .malformedExponent, .invalidSuffix]

theorem numberBody_error {bytes : Bytes} {error : LexError} {length : Nat}
    (h : numberBody bytes = .error (error, length)) : error ∈ numberErrors := by
  unfold numberBody at h
  simp only at h
  split at h
  · split at h
    · cases h
      decide
    · cases h
  · split at h
    · cases h
    split at h
    · cases h
      decide
    · cases h

/-- What a number can be read as, and with which length. -/
inductive NumberRead (bytes : Bytes) : Lexeme → Nat → Prop where
  | plain {isFloat : Bool} {length : Nat} (body : numberBody bytes = .ok (isFloat, length))
    (delimited : Ends Byte.isNameByte (bytes.drop length)) :
    NumberRead bytes (withoutSuffix isFloat (Bytes.toAscii (bytes.take length))) length
  | suffixed {isFloat : Bool} {length : Nat} {b : UInt8} {rest : Bytes}
    (body : numberBody bytes = .ok (isFloat, length)) (behind : bytes.drop length = b :: rest)
    (suffix : b ∈ suffixes isFloat) :
    NumberRead bytes (withSuffix isFloat (Bytes.toAscii (bytes.take length))) (length + 1)
  | reported {error : LexError} {length : Nat} (kind : error ∈ numberErrors) :
    NumberRead bytes (.bad error) length

theorem eq_of_withoutSuffix {isFloat isFloat' : Bool} {digits digits' : String}
    (h : withoutSuffix isFloat digits = withSuffix isFloat' digits') : digits = digits' := by
  cases isFloat <;> cases isFloat' <;> cases h
  rfl

theorem scanNumber_of_suffix {bytes : Bytes} {isFloat : Bool} {length : Nat} {b : UInt8}
    {rest : Bytes} (hbody : numberBody bytes = .ok (isFloat, length))
    (hbehind : bytes.drop length = b :: rest) (hb : b ∈ suffixes isFloat) :
    scanNumber bytes = (withSuffix isFloat (Bytes.toAscii (bytes.take length)), length + 1) := by
  unfold scanNumber
  rw [hbody]
  simp only [hbehind]
  cases isFloat with
  | true => simp_all [suffixes, withSuffix]
  | false => simp_all [suffixes, withSuffix]

theorem scanNumber_read (bytes : Bytes) :
    NumberRead bytes (scanNumber bytes).1 (scanNumber bytes).2 := by
  cases hbody : numberBody bytes with
  | error e =>
    unfold scanNumber
    rw [hbody]
    exact .reported (numberBody_error hbody)
  | ok body =>
    obtain ⟨isFloat, length⟩ := body
    have hstops := numberBody_stops hbody
    cases hbehind : bytes.drop length with
    | nil =>
      unfold scanNumber
      rw [hbody]
      simp only [hbehind]
      refine .plain hbody ?_
      rw [hbehind]
      exact fun _ hb => absurd hb (Option.not_mem_none _)
    | cons b rest =>
      by_cases hsuffix : b ∈ suffixes isFloat
      · rw [scanNumber_of_suffix hbody hbehind hsuffix]
        exact .suffixed hbody hbehind hsuffix
      · unfold scanNumber
        rw [hbody]
        simp only [hbehind]
        rw [if_neg (by cases isFloat <;> simp_all [suffixes]),
          if_neg (by cases isFloat <;> simp_all [suffixes])]
        split
        · exact .reported (by decide)
        · next hstart =>
          refine .plain hbody ?_
          rw [hbehind] at hstops ⊢
          intro c hc
          have hdigit := hstops c hc
          cases hc
          rw [Byte.isNameByte, hdigit, Bool.eq_false_iff.2 hstart, Bool.or_false]

/-! ## All lexemes -/

theorem startsNumber_head {b : UInt8} {rest : Bytes} (h : startsNumber (b :: rest) = true) :
    Byte.isDigit b = true ∨ b = Byte.dot := by
  cases rest with
  | nil => exact Or.inl h
  | cons c rest =>
    rw [startsNumber, Bool.or_eq_true, Bool.and_eq_true, beq_iff_eq] at h
    exact h.imp id And.left

theorem startsNumber_append {front : Bytes} (h : 2 ≤ front.length) (more tail : Bytes) :
    startsNumber (front ++ more) = startsNumber (front ++ tail) := by
  cases front with
  | nil => cases h
  | cons b front =>
    cases front with
    | nil => exact absurd h (Nat.not_succ_le_self 1)
    | cons c front => rfl

/-- Where a number begins nothing else does. -/
theorem scan_of_startsNumber {bytes : Bytes} (h : startsNumber bytes = true) (fresh : Bool) :
    scan fresh bytes = scanNumber bytes := by
  cases bytes with
  | nil => cases h
  | cons b rest =>
    have hother : (b == Byte.hash) = false ∧ Byte.isNameStart b = false := by
      rcases startsNumber_head h with hb | rfl
      · exact ⟨Byte.hash_of_isDigit hb, Byte.isNameStart_of_isDigit hb⟩
      · exact ⟨rfl, rfl⟩
    rw [scan, hother.1, Bool.false_and, if_neg Bool.false_ne_true, hother.2,
      if_neg Bool.false_ne_true, if_pos h]

theorem ofWord_not_isNumber (bytes : Bytes) : ¬ (ofWord bytes).IsNumber := by
  unfold ofWord
  simp only
  split
  · simp [IsNumber]
  split
  · simp [IsNumber]
  split
  · simp [IsNumber]
  split <;> simp [IsNumber]

/-- No other lexeme is a number. -/
theorem startsNumber_of_isNumber {fresh : Bool} {bytes : Bytes}
    (h : (scan fresh bytes).1.IsNumber) : startsNumber bytes = true := by
  cases bytes with
  | nil => simp [scan, IsNumber] at h
  | cons b rest =>
    rw [scan] at h
    split at h
    · simp [scanDirective, IsNumber] at h
    split at h
    · exact absurd h (ofWord_not_isNumber _)
    split at h
    · next hstarts => exact hstarts
    · split at h
      · simp [IsNumber] at h
      · simp [IsNumber] at h

theorem take_succ_of_drop {bytes rest : Bytes} {length : Nat} {b : UInt8}
    (h : bytes.drop length = b :: rest) : bytes.take (length + 1) = bytes.take length ++ [b] := by
  rw [List.take_add, h]
  rfl

/-- A number with a suffix is read from its own bytes, whatever stands behind them. -/
theorem scan_of_suffix {bytes rest : Bytes} {isFloat : Bool} {length : Nat} {b : UInt8}
    (hstarts : startsNumber bytes = true) (hbody : numberBody bytes = .ok (isFloat, length))
    (hbehind : bytes.drop length = b :: rest) (hb : b ∈ suffixes isFloat) (fresh : Bool)
    (more : Bytes) : scan fresh (bytes.take (length + 1) ++ more) =
      (withSuffix isFloat (Bytes.toAscii (bytes.take length)), length + 1) := by
  have hpos := ((numberBody_inked hstarts).1 _ _ hbody).1
  have hlength : (bytes.take length).length = length := by
    refine List.length_take_of_le (Nat.le_of_lt ?_)
    rw [← Nat.sub_pos_iff_lt, ← List.length_drop, hbehind]
    exact Nat.succ_pos _
  have hall : bytes = bytes.take length ++ [b] ++ rest := by
    rw [List.append_assoc, List.singleton_append, ← hbehind, List.take_append_drop]
  rw [take_succ_of_drop hbehind]
  generalize bytes.take length = body at *
  subst hall
  have htwo : 2 ≤ (body ++ [b]).length := by
    rw [List.length_append, List.length_singleton]
    omega
  rw [scan_of_startsNumber ((startsNumber_append htwo more rest).trans hstarts)]
  have hsame : numberBody (body ++ [b] ++ more) = .ok (isFloat, length) := by
    refine numberBody_of_lineEnds (List.concat_ne_nil _ _) (fun hnone => ?_) ?_ hbody
    · rw [List.length_append, List.length_singleton] at hnone
      omega
    · rw [List.length_append]
      omega
  have hnext : (body ++ [b] ++ more).drop length = b :: more := by
    rw [List.append_assoc, ← hlength, List.drop_left]
    rfl
  rw [scanNumber_of_suffix hsame hnext hb, List.append_assoc, ← hlength, List.take_left]

end Lexeme

/-! ## Tokens -/

/-- A number that ends in a suffix, with its digits before that. -/
def Token.IsSuffixed (source : Bytes) (token : Token) : Prop :=
  ∃ isFloat body b, b ∈ Lexeme.suffixes isFloat ∧ token.spelling source = body ++ [b] ∧
    token.lexeme = .withSuffix isFloat (Bytes.toAscii body)

/-- No byte of a name stands behind the token. -/
def Token.Delimited (source : Bytes) (token : Token) : Prop :=
  ∀ b ∈ source[token.stop]?, Byte.isNameByte b = false

theorem Bytes.length_eq_of_toAscii {a b : Bytes} (h : toAscii a = toAscii b) :
    a.length = b.length := by
  have hlists := String.ofList_injective h
  simpa using congrArg List.length hlists

namespace Cursor

variable {source : Bytes} {c : Cursor}

theorem drop_start_next (h : c.On source) : source.drop c.next.1.start = c.passTrivia.rest :=
  (passTrivia_on h).position.1.symm

theorem delimited_next (h : c.On source) :
    c.next.1.Delimited source ↔ Ends Byte.isNameByte (c.passTrivia.rest.drop c.nextLength) := by
  rw [← rest_next, (next_on h).position.1, Ends, List.head?_drop]
  rfl

/-- A token that begins like a number is one that is delimited, or it has a suffix and is read the
same before all other bytes, or it is reported. -/
theorem next_number (h : c.On source)
    (hstarts : Lexeme.startsNumber (source.drop c.next.1.start) = true) :
    c.next.1.Delimited source ∧ ¬ c.next.1.IsSuffixed source ∨
      (c.next.1.IsSuffixed source ∧ ∀ fresh more,
        Lexeme.scan fresh (c.next.1.spelling source ++ more) =
          (c.next.1.lexeme, (c.next.1.spelling source).length)) ∨
      ∃ error ∈ Lexeme.numberErrors, c.next.1.lexeme = .bad error := by
  rw [drop_start_next h] at hstarts
  have hscan : Lexeme.scanNumber c.passTrivia.rest = (c.next.1.lexeme, c.nextLength) :=
    (Lexeme.scan_of_startsNumber hstarts c.passTrivia.fresh).symm
  have hspans := Lexeme.scanNumber_spans hstarts
  have hread : Lexeme.NumberRead c.passTrivia.rest c.next.1.lexeme c.nextLength := by
    have hnumber := Lexeme.scanNumber_read c.passTrivia.rest
    rwa [hscan] at hnumber
  rw [hscan] at hspans
  have hlength := List.length_take_of_le hspans.within
  rw [delimited_next h, Token.IsSuffixed, spelling_next h hspans.within, hlength]
  clear hscan hspans hlength
  generalize c.next.1.lexeme = lexeme at *
  generalize c.nextLength = length at *
  cases hread with
  | plain _ hend =>
    refine Or.inl ⟨hend, ?_⟩
    rintro ⟨isFloat, body, b, -, hspelling, hlexeme⟩
    have hsame := Bytes.length_eq_of_toAscii (Lexeme.eq_of_withoutSuffix hlexeme)
    rw [hspelling, List.length_append, List.length_singleton] at hsame
    omega
  | @suffixed isFloat length b rest hbody hbehind hb =>
    have hfront := Lexeme.take_succ_of_drop hbehind
    exact Or.inr (Or.inl ⟨⟨isFloat, _, b, hb, hfront, rfl⟩,
      Lexeme.scan_of_suffix hstarts hbody hbehind hb⟩)
  | reported hkind => exact Or.inr (Or.inr ⟨_, hkind, rfl⟩)

end Cursor

theorem Token.IsSuffixed.isNumber {source : Bytes} {token : Token} (h : token.IsSuffixed source) :
    token.lexeme.IsNumber := by
  obtain ⟨isFloat, body, b, -, -, hlexeme⟩ := h
  rw [hlexeme]
  cases isFloat with
  | true => exact ⟨_, Or.inr (Or.inr rfl)⟩
  | false => exact ⟨_, Or.inr (Or.inl rfl)⟩

theorem Lexeme.not_isNumber_bad (error : LexError) : ¬ (bad error).IsNumber := by
  rintro ⟨digits, h | h | h⟩ <;> cases h

/-- Numbers without a suffix are delimited, and what begins like a number and runs into a name is
reported. The only exception are suffixes: a number with one is read the same from its own bytes,
whatever stands behind them. -/
theorem numbers_delimited_or_suffixed {source : Bytes} {count : Nat} {token : Token}
    (h : token ∈ (Cursor.start source).take count) :
    (token.lexeme.IsNumber → ¬ token.IsSuffixed source → token.Delimited source) ∧
    (Lexeme.startsNumber (source.drop token.start) = true → ¬ token.Delimited source →
      ¬ token.IsSuffixed source → ∃ error ∈ Lexeme.numberErrors, token.lexeme = .bad error) ∧
    (token.IsSuffixed source → ∀ fresh more,
      Lexeme.scan fresh (token.spelling source ++ more) =
        (token.lexeme, (token.spelling source).length)) := by
  obtain ⟨c, hc, rfl⟩ := Cursor.exists_next_of_mem_take (Cursor.start_on source) h
  have hstarts : c.next.1.lexeme.IsNumber →
      Lexeme.startsNumber (source.drop c.next.1.start) = true := fun hnumber => by
    rw [Cursor.drop_start_next hc]
    exact Lexeme.startsNumber_of_isNumber hnumber
  refine ⟨fun hnumber hplain => ?_, fun hnumber hrunsOn hplain => ?_, fun hsuffixed => ?_⟩
  · rcases Cursor.next_number hc (hstarts hnumber) with hend | hsuffixed | ⟨error, -, hbad⟩
    · exact hend.1
    · exact absurd hsuffixed.1 hplain
    · exact absurd (hbad ▸ hnumber) (Lexeme.not_isNumber_bad error)
  · rcases Cursor.next_number hc hnumber with hend | hsuffixed | hbad
    · exact absurd hend.1 hrunsOn
    · exact absurd hsuffixed.1 hplain
    · exact hbad
  · rcases Cursor.next_number hc (hstarts hsuffixed.isNumber) with hend | hread | ⟨error, -, hbad⟩
    · exact absurd hsuffixed hend.2
    · exact hread.2
    · exact absurd (hbad ▸ hsuffixed.isNumber) (Lexeme.not_isNumber_bad error)

/-- A number before a sign, one with a suffix before a digit, and one that runs into a name. -/
def numberEnds : Bytes := Bytes.ofString "0x1F-1.5e3f2 .5_x"

theorem numbers_delimited_or_suffixed_numberEnds :
    (∃ hex ∈ (Cursor.start numberEnds).take 5, hex.lexeme = .int "0x1F" ∧
      hex.Delimited numberEnds) ∧
    (∃ real ∈ (Cursor.start numberEnds).take 5, real.lexeme = .float "1.5e3" ∧
      ¬ real.Delimited numberEnds ∧ ∀ fresh more,
        Lexeme.scan fresh (Bytes.ofString "1.5e3f" ++ more) = (.float "1.5e3", 6)) ∧
    ∃ half ∈ (Cursor.start numberEnds).take 5,
      Lexeme.startsNumber (numberEnds.drop half.start) = true ∧ ¬ half.Delimited numberEnds ∧
      ∃ error ∈ Lexeme.numberErrors, half.lexeme = .bad error := by
  have hhex : (⟨.int "0x1F", 0, 4, 1, 1⟩ : Token) ∈ (Cursor.start numberEnds).take 5 := by
    decide +kernel
  have hreal : (⟨.float "1.5e3", 5, 11, 1, 6⟩ : Token) ∈ (Cursor.start numberEnds).take 5 := by
    decide +kernel
  have hhalf : (⟨.bad .invalidSuffix, 13, 15, 1, 14⟩ : Token) ∈
      (Cursor.start numberEnds).take 5 := by
    decide +kernel
  have hspelling : Token.spelling numberEnds ⟨.float "1.5e3", 5, 11, 1, 6⟩ =
      Bytes.ofString "1.5e3" ++ [Byte.ofChar 'f'] := by
    decide +kernel
  have hstarts : Lexeme.startsNumber (numberEnds.drop 13) = true := by decide +kernel
  have hrealRunsOn : ¬ ∀ b ∈ numberEnds[11]?, Byte.isNameByte b = false := by decide +kernel
  have hhalfRunsOn : ¬ ∀ b ∈ numberEnds[15]?, Byte.isNameByte b = false := by decide +kernel
  refine ⟨⟨_, hhex, rfl, ?_⟩, ⟨_, hreal, rfl, hrealRunsOn, ?_⟩, _, hhalf, hstarts, hhalfRunsOn, ?_⟩
  · refine (numbers_delimited_or_suffixed hhex).1 ⟨_, Or.inl rfl⟩ ?_
    rintro ⟨isFloat, body, b, -, -, hlexeme⟩
    cases isFloat <;> cases hlexeme
  · have hsuffixed : Token.IsSuffixed numberEnds ⟨.float "1.5e3", 5, 11, 1, 6⟩ :=
      ⟨true, _, _, by decide, hspelling, by decide +kernel⟩
    have hread := (numbers_delimited_or_suffixed hreal).2.2 hsuffixed
    rw [hspelling] at hread
    exact hread
  · refine (numbers_delimited_or_suffixed hhalf).2.1 hstarts hhalfRunsOn fun hsuffixed => ?_
    exact Lexeme.not_isNumber_bad _ hsuffixed.isNumber

/-- A suffix is not looked behind: the number ends and a name begins in the same word. -/
theorem suffixed_number_runs_into_name :
    ∃ token ∈ (Cursor.start (Bytes.ofString "1ux")).take 1, token.lexeme = .uint "1" ∧
      (Bytes.ofString "1ux")[token.stop]? = some (Byte.ofChar 'x') ∧
      ¬ token.Delimited (Bytes.ofString "1ux") :=
  ⟨(Cursor.start (Bytes.ofString "1ux")).next.1, List.mem_cons_self, by decide +kernel,
    by decide +kernel, by unfold Token.Delimited; decide +kernel⟩

end ShaderCost
