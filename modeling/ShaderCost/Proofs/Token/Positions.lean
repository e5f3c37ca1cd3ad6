import Mathlib.Data.List.DropRight
import ShaderCost.Proofs.Token.Scanning

/-! # Where tokens stand

A cursor has passed the bytes in front of it one at a time, so its line is one more than the line
breaks it has passed, and its column counts the bytes since the last of them
(`Position.foldl_after`). Every token that `tokenize` gives is read by a cursor on the source, and so
stands where its offset says (`tokenize_placed`).

Every token but the last covers at least one byte, so the limit of `Cursor.tokens` is never met:
`tokenize` ends with the end of input or with the first lexeme that cannot be read
(`tokenize_ending`).
-/

namespace ShaderCost

/-! ## Lines and columns of offsets -/

/-- The bytes behind the last line break. -/
def Bytes.lastLine (bytes : Bytes) : Bytes := bytes.rtakeWhile (· != Byte.newline)

/-- The line of an offset: one more than the line breaks before it. -/
def lineAt (source : Bytes) (offset : Nat) : Nat := (source.take offset).count Byte.newline + 1

/-- The column of an offset: one more than the bytes between the last line break and it. -/
def columnAt (source : Bytes) (offset : Nat) : Nat :=
  (Bytes.lastLine (source.take offset)).length + 1

theorem Bytes.lastLine_concat (bytes : Bytes) (b : UInt8) :
    lastLine (bytes ++ [b]) = if b = Byte.newline then [] else lastLine bytes ++ [b] := by
  unfold lastLine
  rw [List.rtakeWhile_concat]
  by_cases hb : b = Byte.newline
  · rw [if_pos hb, if_neg (by simp [hb])]
  · rw [if_neg hb, if_pos (by simp [hb])]

theorem Bytes.length_lastLine_le (bytes : Bytes) : (lastLine bytes).length ≤ bytes.length :=
  (List.rtakeWhile_suffix _ bytes).length_le

/-- The place behind the bytes that were passed. -/
theorem Position.foldl_after (passed : Bytes) : passed.foldl after origin =
    ⟨passed.length, passed.count Byte.newline + 1,
      passed.length - (Bytes.lastLine passed).length⟩ := by
  induction passed using List.reverseRecOn with
  | nil => rfl
  | append_singleton passed b ih =>
    have hle := Bytes.length_lastLine_le passed
    rw [List.foldl_append, ih, Bytes.lastLine_concat, List.length_append, List.count_append]
    by_cases hb : b = Byte.newline
    · rw [if_pos hb, hb]
      rfl
    · rw [if_neg hb, List.count_singleton, if_neg (by simpa using hb), List.length_append]
      simp only [List.foldl_cons, List.foldl_nil, after, beq_iff_eq, hb, if_false,
        List.length_singleton, Position.mk.injEq, true_and]
      omega

/-! ## Cursors on a source -/

/-- The cursor has passed the bytes of the source that are no longer in front of it. -/
def Cursor.On (source : Bytes) (c : Cursor) : Prop :=
  ∃ passed, source = passed ++ c.rest ∧ c.position = passed.foldl .after .origin

/-- A token whose line and column are those of its offset, and whose bytes are those of its lexeme. -/
structure Token.Placed (source : Bytes) (token : Token) : Prop where
  line : token.line = lineAt source token.start
  column : token.column = columnAt source token.start
  spans : token.lexeme ≠ .endOfInput →
    token.lexeme.Spans (token.stop - token.start) (source.drop token.start)

namespace Cursor

variable {source : Bytes} {c : Cursor}

theorem start_on (source : Bytes) : (start source).On source := ⟨[], rfl, rfl⟩

theorem pass_on (h : c.On source) (count : Nat) : (c.pass count).On source := by
  obtain ⟨passed, hsource, hposition⟩ := h
  refine ⟨passed ++ c.rest.take count, ?_, ?_⟩
  · rw [hsource, List.append_assoc]
    exact congrArg (passed ++ ·) (List.take_append_drop count c.rest).symm
  · rw [List.foldl_append, ← hposition]
    rfl

theorem passTrivia_on (h : c.On source) : c.passTrivia.On source := pass_on h _

theorem length_passTrivia_le (c : Cursor) : c.passTrivia.rest.length ≤ c.rest.length := by
  change (c.rest.drop _).length ≤ _
  rw [List.length_drop]
  omega

theorem not_startsTrivia_passTrivia (c : Cursor) :
    startsTrivia c.passTrivia.rest = false := by
  obtain ⟨count, hstop, hend⟩ := trivia_ends .code c.fresh 0 c.rest
  have hrest : c.passTrivia.rest = c.rest.drop (trivia .code c.fresh 0 c.rest).1 := rfl
  rwa [hrest, hstop, Nat.zero_add]

theorem head_passTrivia (c : Cursor) :
    ∀ b ∈ c.passTrivia.rest.head?, Byte.EndsTrivia b :=
  endsTrivia_of_not_startsTrivia c.not_startsTrivia_passTrivia

/-- Where a cursor on a source stands. -/
theorem On.position (h : c.On source) : c.rest = source.drop c.position.offset ∧
    c.position.line = lineAt source c.position.offset ∧
    c.position.column = columnAt source c.position.offset := by
  obtain ⟨passed, rfl, hposition⟩ := h
  rw [Position.foldl_after] at hposition
  have hle := Bytes.length_lastLine_le passed
  rw [hposition]
  refine ⟨?_, ?_, ?_⟩
  · rw [List.drop_left]
  · rw [lineAt, List.take_left]
  · rw [columnAt, List.take_left]
    simp only [Position.column]
    omega

theorem offset_pass (h : c.On source) {count : Nat} (hcount : count ≤ c.rest.length) :
    (c.pass count).position.offset = c.position.offset + count := by
  obtain ⟨passed, hsource, hposition⟩ := h
  have hpass : (c.pass count).position = (passed ++ c.rest.take count).foldl .after .origin := by
    rw [List.foldl_append, ← hposition]
    rfl
  rw [hpass, hposition, Position.foldl_after, Position.foldl_after, List.length_append,
    List.length_take, Nat.min_eq_left hcount]

/-! ## Tokens -/

/-- The length of the next lexeme. -/
def nextLength (c : Cursor) : Nat := (Lexeme.scan c.passTrivia.fresh c.passTrivia.rest).2

theorem stop_next (c : Cursor) :
    c.next.1.stop = (c.passTrivia.pass c.nextLength).position.offset := rfl

theorem rest_next (c : Cursor) : c.next.2.rest = c.passTrivia.rest.drop c.nextLength := rfl

/-- At the end of the bytes there is nothing more to read; before that the next token covers some of
them. -/
theorem scan_passTrivia (c : Cursor) :
    (c.passTrivia.rest = [] ∧ c.next.1.lexeme = .endOfInput) ∨
    c.next.1.lexeme.Spans c.nextLength c.passTrivia.rest := by
  have hhead := head_passTrivia c
  cases hrest : c.passTrivia.rest with
  | nil =>
    left
    refine ⟨rfl, ?_⟩
    change (Lexeme.scan c.passTrivia.fresh c.passTrivia.rest).1 = .endOfInput
    rw [hrest]
    rfl
  | cons b rest =>
    right
    rw [hrest] at hhead
    have hspans := Lexeme.scan_spans c.passTrivia.fresh (hhead b rfl) rest
    rw [← hrest] at hspans ⊢
    exact hspans

theorem next_placed (h : c.On source) : c.next.1.Placed source := by
  have hhere := passTrivia_on h
  obtain ⟨hrest, hline, hcolumn⟩ := hhere.position
  refine ⟨hline, hcolumn, fun hnotEnd => ?_⟩
  rcases scan_passTrivia c with ⟨-, hend⟩ | hspans
  · exact absurd hend hnotEnd
  · have hstart : c.next.1.start = c.passTrivia.position.offset := rfl
    have hstop : c.next.1.stop - c.next.1.start = c.nextLength := by
      rw [stop_next, hstart, offset_pass hhere hspans.within]
      omega
    rw [hstop, hstart, ← hrest]
    exact hspans

theorem next_on (h : c.On source) : c.next.2.On source := pass_on (passTrivia_on h) _

theorem length_next_lt (c : Cursor) (h : c.next.1.lexeme ≠ .endOfInput) :
    c.next.2.rest.length < c.rest.length := by
  rcases scan_passTrivia c with ⟨-, hend⟩ | hspans
  · exact absurd hend h
  · have hpos := hspans.pos
    have hwithin := hspans.within
    have hle := length_passTrivia_le c
    rw [rest_next, List.length_drop]
    omega

theorem tokens_placed {seen : List Token} (limit : Nat) (h : c.On source)
    (hseen : ∀ token ∈ seen, token.Placed source) :
    ∀ token ∈ tokens seen c limit, token.Placed source := by
  induction limit generalizing c seen with
  | zero =>
    intro token htoken
    exact hseen token (List.mem_reverse.1 htoken)
  | succ limit ih =>
    have hnext : ∀ token ∈ c.next.1 :: seen, token.Placed source := by
      intro token htoken
      rcases List.mem_cons.1 htoken with rfl | htoken
      · exact next_placed h
      · exact hseen token htoken
    intro token htoken
    rw [tokens] at htoken
    simp only at htoken
    split at htoken
    · exact hnext token (List.mem_reverse.1 htoken)
    · exact ih (next_on h) hnext token htoken

/-- With more turns than bytes the tokens end with a last one. -/
theorem tokens_ending {seen : List Token} (limit : Nat) (hlimit : c.rest.length < limit)
    (hseen : ∀ token ∈ seen, token.lexeme.isLast = false) :
    ∃ front last, tokens seen c limit = front ++ [last] ∧ last.lexeme.isLast = true ∧
      ∀ token ∈ front, token.lexeme.isLast = false := by
  induction limit generalizing c seen with
  | zero => cases hlimit
  | succ limit ih =>
    rw [tokens]
    simp only
    split
    · next hlast =>
      refine ⟨seen.reverse, c.next.1, List.reverse_cons, hlast, fun token htoken => ?_⟩
      exact hseen token (List.mem_reverse.1 htoken)
    · next hmore =>
      have hlt : c.next.2.rest.length < c.rest.length := by
        apply length_next_lt
        intro hend
        rw [hend] at hmore
        exact hmore rfl
      apply ih (by omega)
      intro token htoken
      rcases List.mem_cons.1 htoken with rfl | htoken
      · simpa using hmore
      · exact hseen token htoken

end Cursor

theorem tokenize_placed (source : Bytes) : ∀ token ∈ tokenize source, token.Placed source :=
  Cursor.tokens_placed _ (Cursor.start_on source) fun _ h => absurd h List.not_mem_nil

theorem tokenize_ending (source : Bytes) :
    ∃ front last, tokenize source = front ++ [last] ∧ last.lexeme.isLast = true ∧
      ∀ token ∈ front, token.lexeme.isLast = false :=
  Cursor.tokens_ending _ (Nat.lt_succ_self _) fun _ h => absurd h List.not_mem_nil

end ShaderCost
