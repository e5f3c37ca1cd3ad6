import ShaderCost.Proofs.Grammar.ShaderCuts
import ShaderCost.Proofs.Grammar.Totality
import ShaderCost.Proofs.Token.Tiling

/-! # Unreadable tokens

A token that cannot be read ends the tokens of a source, and the source is refused. The complaint is
about that token, in the words that the token carries, unless the readable tokens before it give
cause for another (`unreadable_token_reported`). What they give cause for does not depend on the
token: it is what reading them alone complains of, at one of them and not at their end.
-/

namespace ShaderCost

/-! ## The order of tokens -/

/-- The token stands on an earlier line, or before the other on its line. -/
def Token.Before (token later : Token) : Prop :=
  token.line < later.line ∨ token.line = later.line ∧ token.column < later.column

/-- The offset of the next byte is on the next line or in the next column. -/
theorem position_succ {source : Bytes} {offset : Nat} (h : offset < source.length) :
    lineAt source offset < lineAt source (offset + 1) ∨
      lineAt source offset = lineAt source (offset + 1) ∧
        columnAt source offset < columnAt source (offset + 1) := by
  unfold lineAt columnAt
  rw [List.take_succ_eq_append_getElem h, List.count_append, Bytes.lastLine_concat]
  by_cases hb : source[offset] = Byte.newline
  · left
    simp [hb]
  · right
    simp [hb]

/-- Later offsets are on later lines or in later columns. -/
theorem position_lt {source : Bytes} {i j : Nat} (hij : i < j) (hj : j ≤ source.length) :
    lineAt source i < lineAt source j ∨
      lineAt source i = lineAt source j ∧ columnAt source i < columnAt source j := by
  induction j, hij using Nat.le_induction with
  | base => exact position_succ hj
  | succ j hij ih =>
    have hstep := position_succ hj
    have hbefore := ih (by omega)
    omega

/-- Tokens that tile a source begin one behind the other. -/
theorem Tiles.start_lt {source : Bytes} {offset : Nat} {front : List Token} {last : Token}
    (h : Tiles source offset (front ++ [last])) :
    offset ≤ last.start ∧ last.start ≤ source.length ∧
      ∀ token ∈ front, token.lexeme ≠ .endOfInput → token.start < last.start := by
  induction front generalizing offset with
  | nil =>
    have hlast := h.1
    exact ⟨hlast.start_ge, Nat.le_trans hlast.start_le hlast.stop_le, by simp⟩
  | cons token front ih =>
    obtain ⟨htoken, hrest⟩ := h
    obtain ⟨hstop, hlength, hfront⟩ := ih hrest
    have hstart := htoken.start_ge
    have hle := htoken.start_le
    refine ⟨by omega, hlength, fun other hother hnotEnd => ?_⟩
    rcases List.mem_cons.1 hother with rfl | hother
    · exact Nat.lt_of_lt_of_le (htoken.covers hnotEnd) hstop
    · exact hfront other hother hnotEnd

theorem tokenize_tiles (source : Bytes) : Tiles source 0 (tokenize source) := by
  obtain ⟨count, -, htake⟩ := Cursor.tokens_eq_take [] (Cursor.start source) (source.length + 1)
  rw [tokenize, htake]
  exact Cursor.take_tiles (Cursor.start_on source) count

theorem tokenize_before {source : Bytes} {front : List Token} {last : Token}
    (h : tokenize source = front ++ [last]) :
    ∀ token ∈ front, token.lexeme.isLast = false ∧ token.Before last := by
  intro token htoken
  obtain ⟨front', last', heq, -, hfront⟩ := tokenize_ending source
  obtain ⟨rfl, hlast⟩ := List.append_inj' (h.symm.trans heq) rfl
  have hnotLast := hfront token htoken
  have hnotEnd : token.lexeme ≠ .endOfInput := by
    intro hend
    rw [hend] at hnotLast
    cases hnotLast
  have htiles := tokenize_tiles source
  rw [h] at htiles
  obtain ⟨-, hlength, hstart⟩ := htiles.start_lt
  have hplaced := tokenize_placed source token (by simp [h, htoken])
  have hplaced' := tokenize_placed source last (by simp [h])
  refine ⟨hnotLast, ?_⟩
  unfold Token.Before
  rw [hplaced.line, hplaced.column, hplaced'.line, hplaced'.column]
  exact position_lt (hstart token htoken hnotEnd) hlength

/-- No token of a source but the last stands where the last does, and none stands nowhere. -/
theorem Cut.not_late_of_early {c : Cut} {source : Bytes}
    (h : tokenize source = c.readable ++ [c.bad]) {e : ParseError} (hearly : c.Early e) :
    ¬ c.Late e := by
  obtain ⟨token, htoken, hline, hcolumn⟩ := hearly
  have hbefore : token.Before c.bad := (tokenize_before h token htoken).2
  have hplaced := (tokenize_placed source token (by simp [h, htoken])).line
  rintro (⟨hline', hcolumn'⟩ | ⟨hline', -⟩)
  · change e.line = c.bad.line at hline'
    change e.column = c.bad.column at hcolumn'
    unfold Token.Before at hbefore
    omega
  · change e.line = 0 at hline'
    rw [hline', hplaced, lineAt] at hline
    omega

/-! ## What is reported -/

/-- The tokens before a place give cause for the complaint: where the input ends at that place, it
is made at one of them. -/
def RefusedBefore (readable : List Token) (place : Token) (e : ParseError) : Prop :=
  Tree.ofTokens (readable ++ [{ place with lexeme := .endOfInput }]) = .error e ∧
    ∃ token ∈ readable, e.StandsAt token

/-- A source with a token that cannot be read is refused. What the tokens before it give cause for
is complained of, whatever that token is; and where they give cause for nothing, the complaint is
the text of the token, at its line and column. -/
theorem unreadable_token_reported {source : Bytes} {readable : List Token} {bad : Token}
    {error : LexError} (htokens : tokenize source = readable ++ [bad])
    (hbad : bad.lexeme = .bad error) :
    (∃ e, Tree.ofSource source = .error e) ∧
    (∀ token ∈ readable, token.Before bad) ∧
    (∀ e, RefusedBefore readable bad e → Tree.ofSource source = .error e) ∧
    ((∀ e, ¬ RefusedBefore readable bad e) →
      ∃ e, Tree.ofSource source = .error e ∧ e.message = bad.lexeme.value ∧
        e.line = bad.line ∧ e.column = bad.column) := by
  have hbefore := tokenize_before htokens
  let c : Cut := ⟨readable, bad, error, fun token htoken => (hbefore token htoken).1⟩
  have hlast : c.bad = bad := by
    unfold Cut.bad
    rw [← hbad]
  have htokens' : tokenize source = c.readable ++ [c.bad] := by rw [htokens, hlast]
  have hreported := Tree.ofTokens_reported c
  rw [← htokens'] at hreported
  refine ⟨?_, fun token htoken => (hbefore token htoken).2, ?_⟩
  · rcases hreported with ⟨e, -, -, hsource⟩ | ⟨-, hsource⟩
    · exact ⟨e, hsource⟩
    · exact ⟨c.complaint, hsource⟩
  rcases hreported with ⟨e, hearly, hrun, hsource⟩ | ⟨hlate, hsource⟩
  · -- there is cause for a complaint, and it is the one that is made
    constructor
    · rintro e' ⟨hrun', -⟩
      obtain rfl : e' = e := by simpa using hrun'.symm.trans hrun
      exact hsource
    · exact fun hnone => absurd ⟨hrun, hearly⟩ (hnone e)
  · constructor
    · rintro e' ⟨hrun', hearly⟩
      exact absurd (hlate e' hrun') (Cut.not_late_of_early htokens' hearly)
    · intro _
      refine ⟨c.complaint, hsource, ?_, rfl, rfl⟩
      rw [hbad]
      rfl

/-- A byte that begins no token, behind a declaration that is complete. -/
def strayByte : Bytes := Bytes.ofString "int a;\n@ b"

theorem unreadable_token_reported_strayByte :
    ∃ readable bad, tokenize strayByte = readable ++ [bad] ∧ bad.lexeme = .bad (.unexpected 64) ∧
      readable.map Token.lexeme = [.name "int", .name "a", .symbol .semicolon] ∧
      (∀ e, ¬ RefusedBefore readable bad e) ∧
      ∃ e, Tree.ofSource strayByte = .error e ∧ e.message = (LexError.unexpected 64).message ∧
        e.line = 2 ∧ e.column = 1 := by
  let readable : List Token :=
    [⟨.name "int", 0, 3, 1, 1⟩, ⟨.name "a", 4, 5, 1, 5⟩, ⟨.symbol .semicolon, 5, 6, 1, 6⟩]
  let bad : Token := ⟨.bad (.unexpected 64), 7, 8, 2, 1⟩
  have htokens : tokenize strayByte = readable ++ [bad] := by decide +kernel
  have hread : (Tree.ofTokens (readable ++ [{ bad with lexeme := .endOfInput }])).isOk = true := by
    decide +kernel
  have hnone : ∀ e, ¬ RefusedBefore readable bad e := by
    rintro e ⟨hrun, -⟩
    rw [hrun] at hread
    cases hread
  obtain ⟨-, -, -, hreported⟩ := unreadable_token_reported htokens rfl
  obtain ⟨e, hsource, hmessage, hline, hcolumn⟩ := hreported hnone
  exact ⟨readable, bad, htokens, rfl, rfl, hnone, e, hsource, hmessage, hline, hcolumn⟩

end ShaderCost
