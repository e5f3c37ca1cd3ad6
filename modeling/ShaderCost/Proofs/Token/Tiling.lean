import ShaderCost.Proofs.Token.Positions

/-! # Tokens tile the source

Between two tokens there is nothing but trivia. `Gap` says what trivia is, as a grammar of its own:
blanks, line breaks, continued lines and comments, each comment up to where it ends. `trivia` passes
over such a sequence (`trivia_inside`), so the bytes before a token are a gap, and the token begins
where it ends (`Cursor.next_follows`).

A cursor that is asked for tokens again and again therefore cuts the source into gaps and tokens,
one behind the other, also past lexemes that cannot be read (`tokens_tile`).
-/

namespace ShaderCost

/-! ## Gaps -/

/-- The bytes from one offset up to another. -/
def Bytes.slice (source : Bytes) (start stop : Nat) : Bytes := (source.take stop).drop start

/-- The bytes of the source that a token covers. -/
def Token.spelling (source : Bytes) (token : Token) : Bytes := source.slice token.start token.stop

/-- What ends a block comment. -/
def commentEnd : Bytes := [Byte.star, Byte.slash]

/-- A sequence of trivia, with the bytes that stand behind it. A line comment goes on to the end of
its line, and a block comment to the first mark that ends it; where there is none, to the end of the
source. -/
inductive Gap : Bytes → Bytes → Prop where
  | nil {rest : Bytes} : Gap [] rest
  | blank {b : UInt8} {gap rest : Bytes} (hb : b = Byte.newline ∨ Byte.isBlank b = true)
      (h : Gap gap rest) : Gap (b :: gap) rest
  | continued {gap rest : Bytes} (h : Gap gap rest) :
      Gap (Byte.backslash :: Byte.newline :: gap) rest
  | lineComment {text gap rest : Bytes} (htext : Byte.newline ∉ text)
      (hend : ∀ b ∈ (gap ++ rest).head?, b = Byte.newline) (h : Gap gap rest) :
      Gap (Byte.slash :: Byte.slash :: (text ++ gap)) rest
  | blockComment {text gap rest : Bytes} (htext : ¬ commentEnd <:+: text ++ [Byte.star])
      (h : Gap gap rest) : Gap (Byte.slash :: Byte.star :: (text ++ (commentEnd ++ gap))) rest
  | openComment {text : Bytes} (htext : ¬ commentEnd <:+: text) :
      Gap (Byte.slash :: Byte.star :: text) []

/-- The rest of a gap, seen from inside a piece of trivia. -/
def Gap.Inside : TriviaMode → Bytes → Bytes → Prop
  | .code, gap, rest => Gap gap rest
  | .lineComment, bytes, rest =>
    ∃ text gap, bytes = text ++ gap ∧ Byte.newline ∉ text ∧
      (∀ b ∈ (gap ++ rest).head?, b = Byte.newline) ∧ Gap gap rest
  | .blockComment, bytes, rest =>
    (∃ text gap, bytes = text ++ (commentEnd ++ gap) ∧ ¬ commentEnd <:+: text ++ [Byte.star] ∧
      Gap gap rest) ∨ (rest = [] ∧ ¬ commentEnd <:+: bytes)

/-- The scan for trivia stops behind a gap, `length` bytes before which it had passed before. -/
def Passes (mode : TriviaMode) (stop length : Nat) (bytes : Bytes) : Prop :=
  ∃ gap rest, bytes = gap ++ rest ∧ stop = length + gap.length ∧ Gap.Inside mode gap rest

namespace Passes

variable {mode mode' : TriviaMode} {stop length : Nat} {bytes : Bytes}

/-- Some more bytes in front of a gap. -/
theorem later (front : Bytes) (h : Passes mode' stop (length + front.length) bytes)
    (hinside : ∀ gap rest, bytes = gap ++ rest → Gap.Inside mode' gap rest →
      Gap.Inside mode (front ++ gap) rest) : Passes mode stop length (front ++ bytes) := by
  obtain ⟨gap, rest, rfl, rfl, hgap⟩ := h
  refine ⟨front ++ gap, rest, (List.append_assoc _ _ _).symm, ?_, hinside gap rest rfl hgap⟩
  rw [List.length_append, Nat.add_assoc]

theorem here {rest : Bytes} : Passes .code length length rest := ⟨[], rest, rfl, rfl, .nil⟩

end Passes

/-- One more byte in front of a text without the mark. -/
theorem not_commentEnd_infix_cons {b : UInt8} {text : Bytes}
    (hb : ∀ c ∈ text.head?, ¬ (b = Byte.star ∧ c = Byte.slash)) (h : ¬ commentEnd <:+: text) :
    ¬ commentEnd <:+: b :: text := by
  rw [List.infix_cons_iff]
  rintro (hfront | hlater)
  · cases text with
    | nil => simp [commentEnd] at hfront
    | cons c text =>
      simp only [commentEnd, List.cons_prefix_cons] at hfront
      exact hb c rfl ⟨hfront.1.symm, hfront.2.1.symm⟩
  · exact h hlater

/-- A byte that does not end a block comment belongs to it. -/
theorem Gap.inside_block_cons {b c : UInt8} {tail gap rest : Bytes}
    (hbc : ¬ (b = Byte.star ∧ c = Byte.slash)) (heq : c :: tail = gap ++ rest)
    (h : Inside .blockComment gap rest) : Inside .blockComment (b :: gap) rest := by
  rcases h with ⟨text, gap', rfl, htext, hgap⟩ | ⟨rfl, hopen⟩
  · refine Or.inl ⟨b :: text, gap', rfl, not_commentEnd_infix_cons (fun d hd => ?_) htext, hgap⟩
    cases text with
    | nil =>
      cases hd
      exact fun hstar => absurd hstar.2 (by decide)
    | cons e text =>
      cases hd
      rw [List.cons_append, List.cons_append, List.cons.injEq] at heq
      rwa [← heq.1]
  · refine Or.inr ⟨rfl, not_commentEnd_infix_cons (fun d hd => ?_) hopen⟩
    rw [List.append_nil] at heq
    rw [← heq] at hd
    cases hd
    exact hbc

/-- The scan for trivia passes over a gap. -/
theorem trivia_inside (mode : TriviaMode) (fresh : Bool) (length : Nat) (bytes : Bytes) :
    Passes mode (trivia mode fresh length bytes).1 length bytes := by
  fun_induction trivia mode fresh length bytes with
  | case1 mode fresh length =>
    refine ⟨[], [], rfl, rfl, ?_⟩
    cases mode with
    | code => exact .nil
    | lineComment => exact ⟨[], [], rfl, List.not_mem_nil, by simp, .nil⟩
    | blockComment => exact Or.inr ⟨rfl, by simp [commentEnd]⟩
  | case2 fresh length b rest hb ih =>
    -- the line ends, and with it the comment
    refine ih.later [b] fun gap rest _ hgap => ?_
    obtain rfl := eq_of_beq hb
    refine ⟨[], _, rfl, List.not_mem_nil, fun c hc => ?_, .blank (Or.inl rfl) hgap⟩
    cases hc
    rfl
  | case3 fresh length b rest hb ih =>
    refine ih.later [b] fun gap rest _ hgap => ?_
    obtain ⟨text, gap', rfl, htext, hend, hgap'⟩ := hgap
    refine ⟨b :: text, gap', rfl, fun hmem => ?_, hend, hgap'⟩
    rcases List.mem_cons.1 hmem with rfl | hmem
    · exact hb rfl
    · exact htext hmem
  | case4 fresh length b =>
    refine ⟨[b], [], rfl, rfl, Or.inr ⟨rfl, ?_⟩⟩
    exact not_commentEnd_infix_cons (by simp) (by simp [commentEnd])
  | case5 fresh length b c tail hend ih =>
    refine ih.later [b, c] fun gap rest _ hgap => Or.inl ⟨[], gap, ?_, by decide, hgap⟩
    rw [Bool.and_eq_true, beq_iff_eq, beq_iff_eq] at hend
    rw [hend.1, hend.2]
    rfl
  | case6 fresh length b c tail hgo ih =>
    refine ih.later [b] fun gap rest heq hgap => Gap.inside_block_cons ?_ heq hgap
    simpa using hgo
  | case7 fresh length b rest hb ih =>
    exact ih.later [b] fun gap rest _ hgap => .blank (Or.inl (eq_of_beq hb)) hgap
  | case8 fresh length b rest _ hb ih =>
    exact ih.later [b] fun gap rest _ hgap => .blank (Or.inr hb) hgap
  | case9 => exact .here
  | case10 fresh length b _ _ c tail hcontinued ih =>
    refine ih.later [b, c] fun gap rest _ hgap => ?_
    rw [Bool.and_eq_true, beq_iff_eq, beq_iff_eq] at hcontinued
    rw [hcontinued.1, hcontinued.2]
    exact .continued hgap
  | case11 fresh length b _ _ c tail _ hcomment ih =>
    refine ih.later [b, c] fun gap rest _ hgap => ?_
    rw [Bool.and_eq_true, beq_iff_eq, beq_iff_eq] at hcomment
    obtain ⟨text, gap', rfl, htext, hend, hgap'⟩ := hgap
    rw [hcomment.1, hcomment.2]
    change Gap (Byte.slash :: Byte.slash :: (text ++ gap')) rest
    exact .lineComment htext hend hgap'
  | case12 fresh length b _ _ c tail _ _ hcomment ih =>
    refine ih.later [b, c] fun gap rest _ hgap => ?_
    rw [Bool.and_eq_true, beq_iff_eq, beq_iff_eq] at hcomment
    rw [hcomment.1, hcomment.2]
    rcases hgap with ⟨text, gap', rfl, htext, hgap'⟩ | ⟨rfl, hopen⟩
    · exact .blockComment htext hgap'
    · exact .openComment hopen
  | case13 => exact .here

/-! ## One token -/

/-- The token stands behind the gap that begins at an offset. It covers at least one byte, or it is
the end of input and stands behind all bytes. -/
structure Token.Follows (source : Bytes) (offset : Nat) (token : Token) : Prop where
  start_ge : offset ≤ token.start
  start_le : token.start ≤ token.stop
  stop_le : token.stop ≤ source.length
  gap : Gap (source.slice offset token.start) (source.drop token.start)
  covers : token.lexeme ≠ .endOfInput → token.start < token.stop
  atEnd : token.lexeme = .endOfInput → token.start = source.length

namespace Cursor

variable {source : Bytes} {c : Cursor}

/-- The bytes between a cursor and the next token are a gap. -/
theorem passTrivia_gap (h : c.On source) :
    c.position.offset ≤ c.passTrivia.position.offset ∧
      Gap (source.slice c.position.offset c.passTrivia.position.offset)
        (source.drop c.passTrivia.position.offset) := by
  obtain ⟨gap, rest, hbytes, hlength, hgap⟩ := trivia_inside .code c.fresh 0 c.rest
  rw [Nat.zero_add] at hlength
  have hrest := h.position.1
  have hwithin : gap.length ≤ c.rest.length := by
    rw [hbytes, List.length_append]
    omega
  have hoffset : c.passTrivia.position.offset = c.position.offset + gap.length := by
    rw [← offset_pass h hwithin, ← hlength]
    rfl
  have hslice : source.slice c.position.offset c.passTrivia.position.offset = gap := by
    rw [Bytes.slice, hoffset, List.drop_take, ← hrest, Nat.add_sub_cancel_left, hbytes,
      List.take_left]
  have hdrop : source.drop c.passTrivia.position.offset = rest := by
    rw [hoffset, ← List.drop_drop, ← hrest, hbytes, List.drop_left]
  rw [hslice, hdrop]
  exact ⟨by omega, hgap⟩

theorem On.offset_le (h : c.On source) :
    c.position.offset + c.rest.length = source.length := by
  obtain ⟨passed, rfl, hposition⟩ := h
  rw [hposition, Position.foldl_after, List.length_append]

/-- The next token stands behind the gap in front of a cursor. -/
theorem next_follows (h : c.On source) : c.next.1.Follows source c.position.offset := by
  have hhere := passTrivia_on h
  obtain ⟨hle, hgap⟩ := passTrivia_gap h
  have hlength := hhere.offset_le
  have hstart : c.next.1.start = c.passTrivia.position.offset := rfl
  rcases scan_passTrivia c with ⟨hrest, hend⟩ | hspans
  · have hstop : c.next.1.stop = c.passTrivia.position.offset := by
      rw [stop_next, pass, hrest, List.take_nil]
      rfl
    rw [hrest, List.length_nil, Nat.add_zero] at hlength
    exact ⟨hle, by rw [hstart, hstop], by rw [hstop, hlength], hgap, fun hnot => absurd hend hnot,
      fun _ => hlength⟩
  · have hpos := hspans.pos
    have hwithin := hspans.within
    have hstop : c.next.1.stop = c.passTrivia.position.offset + c.nextLength := by
      rw [stop_next, offset_pass hhere hwithin]
    exact ⟨hle, by omega, by omega, hgap, fun _ => by omega, fun hend => absurd hend hspans.notEnd⟩

end Cursor

/-! ## Many tokens -/

/-- The tokens stand one behind the other from an offset on, with gaps between them. -/
def Tiles (source : Bytes) : Nat → List Token → Prop
  | _, [] => True
  | offset, token :: tokens => token.Follows source offset ∧ Tiles source token.stop tokens

/-- The bytes of the gaps and of the tokens, in their order, from an offset on. -/
def tiled (source : Bytes) : Nat → List Token → Bytes
  | _, [] => []
  | offset, token :: tokens =>
    source.slice offset token.start ++ (token.spelling source ++ tiled source token.stop tokens)

theorem Bytes.slice_append_drop (source : Bytes) {start stop : Nat} (h : start ≤ stop) :
    source.slice start stop ++ source.drop stop = source.drop start := by
  have hdrop : source.drop stop = (source.drop start).drop (stop - start) := by
    rw [List.drop_drop, Nat.add_sub_cancel' h]
  rw [slice, List.drop_take, hdrop, List.take_append_drop]

namespace Tiles

variable {source : Bytes} {tokens : List Token}

/-- Gaps and tokens give back the bytes they were cut from. -/
theorem tiled_prefix {offset : Nat} (h : Tiles source offset tokens) :
    tiled source offset tokens <+: source.drop offset := by
  induction tokens generalizing offset with
  | nil => exact List.nil_prefix
  | cons token tokens ih =>
    obtain ⟨hfollows, htokens⟩ := h
    rw [← source.slice_append_drop hfollows.start_ge, ← source.slice_append_drop hfollows.start_le]
    exact List.prefix_append_right_inj _ |>.2 (List.prefix_append_right_inj _ |>.2 (ih htokens))

/-- Up to the end of input these are all bytes. -/
theorem tiled_of_end {offset : Nat} (h : Tiles source offset tokens)
    (hend : ∃ token ∈ tokens, token.lexeme = .endOfInput) :
    tiled source offset tokens = source.drop offset := by
  induction tokens generalizing offset with
  | nil =>
    obtain ⟨token, htoken, -⟩ := hend
    cases htoken
  | cons token tokens ih =>
    obtain ⟨hfollows, htokens⟩ := h
    have hrest : tiled source token.stop tokens = source.drop token.stop := by
      by_cases hlast : token.lexeme = .endOfInput
      · -- nothing stands behind the end of input
        have hnil : source.drop token.stop = [] := by
          rw [List.drop_eq_nil_iff, ← hfollows.atEnd hlast]
          exact hfollows.start_le
        have hfront := tiled_prefix htokens
        rw [hnil, List.prefix_nil] at hfront
        rw [hfront, hnil]
      · obtain ⟨last, hmem, hlast'⟩ := hend
        rcases List.mem_cons.1 hmem with rfl | hmem
        · exact absurd hlast' hlast
        · exact ih htokens ⟨last, hmem, hlast'⟩
    rw [tiled, hrest, Token.spelling, source.slice_append_drop hfollows.start_le,
      source.slice_append_drop hfollows.start_ge]

end Tiles

namespace Cursor

variable {source : Bytes} {c : Cursor}

theorem length_take (c : Cursor) (count : Nat) : (c.take count).length = count := by
  induction count generalizing c with
  | zero => rfl
  | succ count ih => exact congrArg (· + 1) (ih c.next.2)

theorem take_tiles (h : c.On source) (count : Nat) :
    Tiles source c.position.offset (c.take count) := by
  induction count generalizing c with
  | zero => trivial
  | succ count ih => exact ⟨next_follows h, ih (next_on h)⟩

/-- With more tokens than bytes one of them is the end of input. -/
theorem end_mem_take (c : Cursor) (count : Nat) (hcount : c.rest.length < count) :
    ∃ token ∈ c.take count, token.lexeme = .endOfInput := by
  induction count generalizing c with
  | zero => cases hcount
  | succ count ih =>
    by_cases hend : c.next.1.lexeme = .endOfInput
    · exact ⟨c.next.1, List.mem_cons_self, hend⟩
    · have hlt := length_next_lt c hend
      obtain ⟨token, htoken, hlast⟩ := ih c.next.2 (by omega)
      exact ⟨token, List.mem_cons_of_mem _ htoken, hlast⟩

/-- The tokens of a source are the first that a cursor gives. -/
theorem tokens_eq_take (seen : List Token) (c : Cursor) (limit : Nat) :
    ∃ count ≤ limit, tokens seen c limit = seen.reverse ++ c.take count := by
  induction limit generalizing c seen with
  | zero => exact ⟨0, Nat.le_refl 0, (List.append_nil _).symm⟩
  | succ limit ih =>
    rw [tokens]
    simp only
    split
    · exact ⟨1, by omega, List.reverse_cons⟩
    · obtain ⟨count, hcount, heq⟩ := ih (c.next.1 :: seen) c.next.2
      refine ⟨count + 1, by omega, ?_⟩
      rw [heq, List.reverse_cons, List.append_assoc]
      rfl

/-! ## The end of input -/

/-- The end of input, at a place. -/
def endAt (position : Position) : Token :=
  ⟨.endOfInput, position.offset, position.offset, position.line, position.column⟩

/-- Where no bytes are left the end of input is read, and the cursor stays where it is. -/
theorem next_of_rest_nil (h : c.rest = []) :
    c.next = (endAt c.position, { c with fresh := false }) := by
  obtain ⟨position, rest, fresh⟩ := c
  obtain rfl : rest = [] := h
  rfl

/-- The end of input is read where only trivia is left, and nothing is left behind it. -/
theorem next_of_end (h : c.next.1.lexeme = .endOfInput) :
    c.next.2.rest = [] ∧ c.next.1 = endAt c.next.2.position := by
  have hhere : c.passTrivia.rest = [] := by
    rcases scan_passTrivia c with ⟨hrest, -⟩ | hspans
    · exact hrest
    · exact absurd h hspans.notEnd
  have hplace : c.next.2.position = c.passTrivia.position := by
    change (c.passTrivia.pass c.nextLength).position = _
    rw [pass, hhere, List.take_nil]
    rfl
  have htoken : c.next.1 = ⟨c.next.1.lexeme, c.passTrivia.position.offset,
    c.next.2.position.offset, c.passTrivia.position.line, c.passTrivia.position.column⟩ := rfl
  refine ⟨by rw [rest_next, hhere, List.drop_nil], ?_⟩
  rw [htoken, h, hplace]
  rfl

/-- At the end of the bytes there is nothing but the end of input. -/
theorem take_of_rest_nil (h : c.rest = []) (count : Nat) :
    ∀ token ∈ c.take count, token = endAt c.position := by
  induction count generalizing c with
  | zero => exact fun token htoken => absurd htoken List.not_mem_nil
  | succ count ih =>
    intro token htoken
    rw [take, next_of_rest_nil h] at htoken
    rcases List.mem_cons.1 htoken with rfl | htoken
    · rfl
    · exact ih (c := { c with fresh := false }) h token htoken

/-- Once the end of input is read, so is every token from then on. -/
theorem take_pairwise (c : Cursor) (count : Nat) :
    (c.take count).Pairwise fun token later => token.lexeme = .endOfInput → later = token := by
  induction count generalizing c with
  | zero => exact .nil
  | succ count ih =>
    have hlater : ∀ later ∈ c.next.2.take count, c.next.1.lexeme = .endOfInput →
        later = c.next.1 := by
      intro later hmem hend
      obtain ⟨hrest, hlast⟩ := next_of_end hend
      rw [take_of_rest_nil hrest count later hmem, hlast]
    exact .cons hlater (ih c.next.2)

end Cursor

/-! ## The source -/

/-- However many tokens are asked for, they tile the source: each but the end of input covers some
bytes of it, each begins at or behind the end of the one before, and only trivia stands between
them. From the end of input on all tokens are that same one. Gaps and tokens in their order are a
front of the source, and all of it after more tokens than bytes. `tokenize` gives the tokens up to
the first that ends the source or cannot be read, at most one more than the bytes. -/
theorem tokens_tile (source : Bytes) (count : Nat) :
    Tiles source 0 ((Cursor.start source).take count) ∧
      ((Cursor.start source).take count).Pairwise
        (fun token later => token.lexeme = .endOfInput → later = token) ∧
      tiled source 0 ((Cursor.start source).take count) <+: source ∧
      (source.length < count → tiled source 0 ((Cursor.start source).take count) = source) ∧
      (tokenize source).length ≤ source.length + 1 ∧
      tokenize source = (Cursor.start source).take (tokenize source).length ∧
      ∃ front last, tokenize source = front ++ [last] ∧ last.lexeme.isLast = true ∧
        ∀ token ∈ front, token.lexeme.isLast = false := by
  have htiles := Cursor.take_tiles (Cursor.start_on source) count
  obtain ⟨n, hn, htake⟩ := Cursor.tokens_eq_take [] (Cursor.start source) (source.length + 1)
  have hlength : (tokenize source).length = n := by
    rw [tokenize, htake]
    exact Cursor.length_take _ n
  refine ⟨htiles, Cursor.take_pairwise _ count, htiles.tiled_prefix, fun hcount => ?_, ?_, ?_,
    tokenize_ending source⟩
  · exact htiles.tiled_of_end (Cursor.end_mem_take _ count hcount)
  · rw [hlength]
    exact hn
  · rw [hlength]
    exact htake

/-- A comment that seems to end too early, two bytes that begin no token, a continued line and a
comment that is never ended. -/
def unendedComment : Bytes := Bytes.ofString "f/*/ @ */@ .5\\\n// g\n#d\n\\/* "

theorem tokens_tile_unendedComment :
    ((Cursor.start unendedComment).take 7).map (fun token => (token.start, token.stop)) =
      [(0, 1), (9, 10), (11, 13), (20, 22), (23, 24), (27, 27), (27, 27)] ∧
    Tiles unendedComment 0 ((Cursor.start unendedComment).take 7) ∧
    unendedComment.length < 28 ∧
    tiled unendedComment 0 ((Cursor.start unendedComment).take 28) = unendedComment := by
  have hplaces : ((Cursor.start unendedComment).take 7).map
      (fun token => (token.start, token.stop)) =
      [(0, 1), (9, 10), (11, 13), (20, 22), (23, 24), (27, 27), (27, 27)] := by decide +kernel
  have hlength : unendedComment.length < 28 := by decide +kernel
  generalize unendedComment = source at *
  exact ⟨hplaces, (tokens_tile source 7).1, hlength, (tokens_tile source 28).2.2.2.1 hlength⟩

end ShaderCost
