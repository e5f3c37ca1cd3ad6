import ShaderCost.Token.Lexer

/-! # What a lexeme covers

The bytes of a lexeme stand on one line (`Lexeme.scan_spans`): trivia ends before a byte that is
neither blank nor a line break, and no class of lexemes goes on over a line break. Only a directive
takes the carriage returns at the end of its line with it.
-/

namespace ShaderCost

/-! ## Ink -/

/-- A byte that neither breaks a line nor returns to its start. -/
def Byte.isInk (b : UInt8) : Bool := b != newline && b != carriageReturn

/-- Every class of bytes without these two is ink. -/
theorem Byte.isInk_of {p : UInt8 → Bool} (hnewline : p newline = false)
    (hreturn : p carriageReturn = false) {b : UInt8} (hb : p b = true) : isInk b = true := by
  simp only [isInk, Bool.and_eq_true, bne_iff_ne]
  constructor
  · rintro rfl
    rw [hnewline] at hb
    cases hb
  · rintro rfl
    rw [hreturn] at hb
    cases hb

theorem take_takeWhile (p : UInt8 → Bool) (bytes : Bytes) :
    bytes.take (bytes.takeWhile p).length = bytes.takeWhile p :=
  (List.prefix_iff_eq_take.1 (List.takeWhile_prefix p)).symm

/-- So many bytes are there in front, and all of them are ink. -/
def Inked (count : Nat) (bytes : Bytes) : Prop :=
  count ≤ bytes.length ∧ ∀ b ∈ bytes.take count, Byte.isInk b = true

namespace Inked

variable {bytes : Bytes}

theorem zero : Inked 0 bytes := ⟨Nat.zero_le _, by simp⟩

theorem cons {count : Nat} {b : UInt8} (hb : Byte.isInk b = true) (h : Inked count bytes) :
    Inked (count + 1) (b :: bytes) := by
  refine ⟨Nat.succ_le_succ h.1, fun x hx => ?_⟩
  rw [List.take_succ_cons, List.mem_cons] at hx
  rcases hx with rfl | hx
  · exact hb
  · exact h.2 x hx

theorem add {m n : Nat} (hm : Inked m bytes) (hn : Inked n (bytes.drop m)) :
    Inked (m + n) bytes := by
  have hlength := hn.1
  rw [List.length_drop] at hlength
  refine ⟨by have := hm.1; omega, fun b hb => ?_⟩
  rw [List.take_add, List.mem_append] at hb
  rcases hb with hb | hb
  · exact hm.2 b hb
  · exact hn.2 b hb

theorem takeWhile {p : UInt8 → Bool} (hnewline : p Byte.newline = false)
    (hreturn : p Byte.carriageReturn = false) : Inked (bytes.takeWhile p).length bytes := by
  refine ⟨(List.takeWhile_prefix p).length_le, fun b hb => ?_⟩
  rw [take_takeWhile] at hb
  exact Byte.isInk_of hnewline hreturn (List.all_eq_true.1 List.all_takeWhile b hb)

theorem of_front {front : Bytes} (h : front <+: bytes)
    (hink : ∀ b ∈ front, Byte.isInk b = true) : Inked front.length bytes := by
  refine ⟨h.length_le, fun b hb => ?_⟩
  rw [← List.prefix_iff_eq_take.1 h] at hb
  exact hink b hb

end Inked

/-! ## Trivia -/

/-- A byte at which trivia can end. -/
def Byte.EndsTrivia (b : UInt8) : Prop := b ≠ newline ∧ isBlank b = false

/-- Whether the bytes begin with trivia. -/
def startsTrivia : Bytes → Bool
  | [] => false
  | [b] => b == Byte.newline || Byte.isBlank b
  | b :: c :: _ =>
    b == Byte.newline || Byte.isBlank b || (b == Byte.backslash && c == Byte.newline) ||
      (b == Byte.slash && c == Byte.slash) || (b == Byte.slash && c == Byte.star)

theorem endsTrivia_of_not_startsTrivia {bytes : Bytes} (h : startsTrivia bytes = false) :
    ∀ b ∈ bytes.head?, Byte.EndsTrivia b := by
  rcases bytes with _ | ⟨b, _ | ⟨c, tail⟩⟩ <;> simp_all [startsTrivia, Byte.EndsTrivia]

/-- The scan for trivia has come to `stop`, `length` bytes of which it had passed before `bytes`,
and no more trivia begins there. -/
def TriviaEnds (stop length : Nat) (bytes : Bytes) : Prop :=
  ∃ count, stop = length + count ∧ startsTrivia (bytes.drop count) = false

theorem TriviaEnds.later {stop length n : Nat} {bytes : Bytes}
    (h : TriviaEnds stop (length + n) (bytes.drop n)) : TriviaEnds stop length bytes := by
  obtain ⟨count, rfl, hend⟩ := h
  rw [List.drop_drop] at hend
  exact ⟨n + count, by omega, hend⟩

theorem trivia_ends (mode : TriviaMode) (fresh : Bool) (length : Nat) (bytes : Bytes) :
    TriviaEnds (trivia mode fresh length bytes).1 length bytes := by
  fun_induction trivia mode fresh length bytes with
  | case1 => exact ⟨0, rfl, rfl⟩
  | case4 => exact ⟨1, rfl, rfl⟩
  | case9 fresh length b hnewline hblank =>
    exact ⟨0, rfl, by simp_all [startsTrivia]⟩
  | case13 fresh length b hnewline hblank c tail hcontinued hline hblock =>
    exact ⟨0, rfl, by simp_all [startsTrivia]⟩
  -- elsewhere the scan goes on
  | _ => next ih => exact ih.later

/-! ## Lexemes -/

namespace Lexeme

/-- The bytes of a lexeme: at least one, all on one line, and carriage returns only in directives. -/
structure Spans (lexeme : Lexeme) (length : Nat) (bytes : Bytes) : Prop where
  pos : 0 < length
  within : length ≤ bytes.length
  oneLine : Byte.newline ∉ bytes.take length
  noReturn : (∀ text, lexeme ≠ .directive text) → Byte.carriageReturn ∉ bytes.take length
  notEnd : lexeme ≠ .endOfInput

theorem Spans.of_inked {lexeme : Lexeme} {length : Nat} {bytes : Bytes} (hpos : 0 < length)
    (h : Inked length bytes) (hnotEnd : lexeme ≠ .endOfInput) : Spans lexeme length bytes := by
  have hnot : ∀ b ∈ bytes.take length, b ≠ Byte.newline ∧ b ≠ Byte.carriageReturn := by
    intro b hb
    have hink := h.2 b hb
    simpa [Byte.isInk] using hink
  exact ⟨hpos, h.1, fun hb => (hnot _ hb).1 rfl, fun _ hb => (hnot _ hb).2 rfl, hnotEnd⟩

theorem scanDirective_spans (rest : Bytes) :
    Spans (scanDirective (Byte.hash :: rest)).1 (scanDirective (Byte.hash :: rest)).2
      (Byte.hash :: rest) := by
  have htake : (Byte.hash :: rest).take (scanDirective (Byte.hash :: rest)).2 =
      (Byte.hash :: rest).takeWhile (· != Byte.newline) := take_takeWhile _ _
  refine ⟨?_, (List.takeWhile_prefix _).length_le, ?_, fun h => absurd rfl (h _), ?_⟩
  · rw [scanDirective, List.takeWhile_cons_of_pos rfl]
    exact Nat.succ_pos _
  · rw [htake]
    intro hmem
    have hne := List.all_eq_true.1 List.all_takeWhile _ hmem
    simp at hne
  · simp [scanDirective]

theorem ofWord_ne_endOfInput (bytes : Bytes) : ofWord bytes ≠ .endOfInput := by
  unfold ofWord
  simp only
  split
  · simp
  split
  · simp
  split
  · simp
  split <;> simp

theorem scanWord_spans {b : UInt8} {rest : Bytes} (hb : Byte.isNameStart b = true) :
    Spans (scanWord (b :: rest)).1 (scanWord (b :: rest)).2 (b :: rest) := by
  refine .of_inked ?_ (.takeWhile rfl rfl) (ofWord_ne_endOfInput _)
  simp [scanWord, Byte.isNameByte, hb]

/-! ### Numbers -/

theorem digitsLength_inked (bytes : Bytes) : Inked (digitsLength bytes) bytes :=
  .takeWhile rfl rfl

theorem fractionLength_inked (bytes : Bytes) : Inked (fractionLength bytes) bytes := by
  cases bytes with
  | nil => exact .zero
  | cons b rest =>
    rw [fractionLength]
    split
    · next hdot =>
      rw [eq_of_beq hdot, Nat.add_comm]
      exact .cons rfl (digitsLength_inked rest)
    · exact .zero

theorem signLength_inked (bytes : Bytes) : Inked (signLength bytes) bytes := by
  cases bytes with
  | nil => exact .zero
  | cons b rest =>
    rw [signLength]
    split
    · next hsign =>
      refine .cons ?_ .zero
      exact Byte.isInk_of (p := fun b => b == Byte.plus || b == Byte.minus) rfl rfl hsign
    · exact .zero

theorem exponentLength_inked (bytes : Bytes) :
    Inked ((exponentLength bytes).1 + (exponentLength bytes).2) bytes := by
  cases bytes with
  | nil => exact .zero
  | cons b rest =>
    rw [exponentLength]
    split
    · next hmark =>
      have hb : Byte.isInk b = true :=
        Byte.isInk_of (p := fun b => b == Byte.ofChar 'e' || b == Byte.ofChar 'E') rfl rfl hmark
      have h := ((signLength_inked rest).add (digitsLength_inked _)).cons hb
      rwa [show signLength rest + digitsLength (rest.drop (signLength rest)) + 1 =
        1 + signLength rest + digitsLength (rest.drop (signLength rest)) by omega] at h
    · exact .zero

theorem exponentMark_inked (bytes : Bytes) : Inked (exponentLength bytes).1 bytes := by
  obtain ⟨hle, hink⟩ := exponentLength_inked bytes
  refine ⟨by omega, fun b hb => hink b ?_⟩
  rw [List.take_add]
  exact List.mem_append_left _ hb

theorem isHex_inked {bytes : Bytes} (h : isHex bytes = true) : Inked 2 bytes := by
  cases bytes with
  | nil => cases h
  | cons b rest =>
    cases rest with
    | nil => cases h
    | cons c rest =>
      rw [isHex, Bool.and_eq_true, beq_iff_eq] at h
      obtain ⟨rfl, hc⟩ := h
      have hink : Byte.isInk c = true :=
        Byte.isInk_of (p := fun c => c == Byte.ofChar 'x' || c == Byte.ofChar 'X') rfl rfl hc
      exact .cons rfl (.cons hink .zero)

theorem mantissa_pos {bytes : Bytes} (h : startsNumber bytes = true) :
    0 < digitsLength bytes + fractionLength (bytes.drop (digitsLength bytes)) := by
  cases bytes with
  | nil => cases h
  | cons b rest =>
    cases hb : Byte.isDigit b with
    | true =>
      have hdigits : digitsLength (b :: rest) = digitsLength rest + 1 := by
        rw [digitsLength, List.takeWhile_cons_of_pos hb]
        rfl
      omega
    | false =>
      have hdigits : digitsLength (b :: rest) = 0 := by
        rw [digitsLength, List.takeWhile_cons_of_neg (by simp [hb])]
        rfl
      cases rest with
      | nil =>
        rw [startsNumber, hb] at h
        cases h
      | cons c rest =>
        rw [startsNumber, hb, Bool.false_or, Bool.and_eq_true] at h
        rw [hdigits, List.drop_zero, fractionLength, if_pos h.1]
        omega

/-- The body of a number takes at least one byte, and all of its bytes are ink. -/
theorem numberBody_inked {bytes : Bytes} (h : startsNumber bytes = true) :
    (∀ isFloat length, numberBody bytes = .ok (isFloat, length) →
      0 < length ∧ Inked length bytes) ∧
    ∀ error length, numberBody bytes = .error (error, length) → 0 < length ∧ Inked length bytes := by
  have hmantissa := mantissa_pos h
  have hwhole := (digitsLength_inked bytes).add (fractionLength_inked _)
  unfold numberBody
  simp only
  split
  · next hhex =>
    have hfront := isHex_inked hhex
    split
    · refine ⟨fun _ _ heq => (by cases heq), fun _ _ heq => ?_⟩
      cases heq
      exact ⟨by omega, hfront⟩
    · refine ⟨fun _ _ heq => ?_, fun _ _ heq => by cases heq⟩
      cases heq
      exact ⟨by omega, hfront.add (.takeWhile rfl rfl)⟩
  · split
    · refine ⟨fun _ _ heq => ?_, fun _ _ heq => by cases heq⟩
      cases heq
      exact ⟨hmantissa, hwhole⟩
    · split
      · refine ⟨fun _ _ heq => (by cases heq), fun _ _ heq => ?_⟩
        cases heq
        exact ⟨by omega, hwhole.add (exponentMark_inked _)⟩
      · refine ⟨fun _ _ heq => ?_, fun _ _ heq => by cases heq⟩
        cases heq
        refine ⟨by omega, ?_⟩
        rw [Nat.add_assoc]
        exact hwhole.add (exponentLength_inked _)

theorem scanNumber_spans {bytes : Bytes} (h : startsNumber bytes = true) :
    Spans (scanNumber bytes).1 (scanNumber bytes).2 bytes := by
  obtain ⟨hok, herror⟩ := numberBody_inked h
  unfold scanNumber
  cases hbody : numberBody bytes with
  | error e =>
    obtain ⟨hpos, hink⟩ := herror e.1 e.2 hbody
    exact .of_inked hpos hink (by simp)
  | ok body =>
    obtain ⟨isFloat, length⟩ := body
    obtain ⟨hpos, hink⟩ := hok isFloat length hbody
    have hplain : ∀ text, (if isFloat then float text else int text) ≠ .endOfInput := by
      intro text
      cases isFloat <;> simp
    simp only
    cases hrest : bytes.drop length with
    | nil => exact .of_inked hpos hink (hplain _)
    | cons b rest =>
      have hsuffix : Byte.isInk b = true → Inked (length + 1) bytes := by
        intro hb
        apply hink.add
        rw [hrest]
        exact .cons hb .zero
      simp only
      split
      · next hu =>
        rw [Bool.and_eq_true] at hu
        have hb := Byte.isInk_of (p := fun b => b == Byte.ofChar 'u' || b == Byte.ofChar 'U')
          rfl rfl hu.2
        exact .of_inked (Nat.succ_pos _) (hsuffix hb) (by simp)
      split
      · next hf =>
        rw [Bool.and_eq_true] at hf
        have hb := Byte.isInk_of (p := fun b => b == Byte.ofChar 'f' || b == Byte.ofChar 'F')
          rfl rfl hf.2
        exact .of_inked (Nat.succ_pos _) (hsuffix hb) (by simp)
      split
      · exact .of_inked hpos hink (by simp)
      · exact .of_inked hpos hink (hplain _)

/-! ### All lexemes -/

theorem symbol_inked (mark : Symbol) :
    0 < mark.bytes.length ∧ ∀ b ∈ mark.bytes, Byte.isInk b = true := by
  cases mark <;> decide +kernel

/-- What `scan` reads at a byte that is no trivia. -/
theorem scan_spans (fresh : Bool) {b : UInt8} (hb : Byte.EndsTrivia b) (rest : Bytes) :
    Spans (scan fresh (b :: rest)).1 (scan fresh (b :: rest)).2 (b :: rest) := by
  rw [scan]
  split
  · next hhash =>
    rw [Bool.and_eq_true, beq_iff_eq] at hhash
    rw [hhash.1]
    exact scanDirective_spans rest
  split
  · next hname => exact scanWord_spans hname
  split
  · next hnumber => exact scanNumber_spans hnumber
  cases hsymbol : symbolAt? (b :: rest) with
  | some mark =>
    obtain ⟨hpos, hink⟩ := symbol_inked mark
    have hfront := List.find?_some hsymbol
    exact .of_inked hpos (.of_front (List.isPrefixOf_iff_prefix.1 hfront) hink) (by simp)
  | none =>
    have hink : Byte.isInk b = true := by
      obtain ⟨hnewline, hblank⟩ := hb
      simp only [Byte.isBlank, Bool.or_eq_false_iff, beq_eq_false_iff_ne] at hblank
      simp [Byte.isInk, hnewline, hblank.1.1.2]
    exact .of_inked Nat.one_pos (.cons hink .zero) (by simp)

end Lexeme

end ShaderCost
