import ShaderCost.Analysis.Source
import ShaderCost.Proofs.Cost.Summation
import ShaderCost.Proofs.Grammar.Arena
import ShaderCost.Proofs.Grammar.Totality
import ShaderCost.Report.Console
import ShaderCost.Report.Html

/-! # Lines that are shown

The scanner counts lines as it passes their breaks; the reports cut the source at the breaks, drop a
carriage return before each of them and an empty piece behind the last. Both come to the same lines:
the piece with the number of a line begins with the bytes since the last break
(`getElem?_splitAt`), and a token covers at least one byte of its piece, so the piece is shown and
loses none of the token (`Token.Placed.shown`). Costs stand on lines of tokens, so every line with a
cost has its row in the reports (`positions_match_shown_lines`).
-/

namespace ShaderCost

/-! ## Pieces between line breaks -/

namespace Bytes

theorem splitAt_eq_splitOn (mark : UInt8) (bytes : Bytes) :
    splitAt mark bytes = bytes.splitOn mark := by
  induction bytes with
  | nil => rfl
  | cons b bytes ih =>
    rw [List.splitOn_cons_eq_if_modifyHead, ← ih]
    unfold splitAt
    simp only [List.foldr_cons]
    split
    · rfl
    · rfl

theorem length_splitOn (mark : UInt8) (bytes : Bytes) :
    (bytes.splitOn mark).length = bytes.count mark + 1 := by
  induction bytes with
  | nil => rfl
  | cons b bytes ih =>
    rw [List.splitOn_cons_eq_if_modifyHead, List.count_cons]
    split
    · rw [List.length_cons, ih]
    · rw [List.length_modifyHead, ih]

theorem head?_splitOn (mark : UInt8) (bytes : Bytes) :
    (bytes.splitOn mark).head? = some (bytes.takeWhile (· != mark)) := by
  induction bytes with
  | nil => rfl
  | cons b bytes ih =>
    rw [List.splitOn_cons_eq_if_modifyHead]
    split
    · next hmark => rw [List.takeWhile_cons_of_neg (by simpa using hmark)]; rfl
    · next hmark =>
      rw [List.takeWhile_cons_of_pos (by simpa using hmark), List.head?_modifyHead, ih]
      rfl

theorem newline_notMem_lastLine (bytes : Bytes) : Byte.newline ∉ lastLine bytes := by
  intro hmem
  have hne := List.mem_rtakeWhile_imp hmem
  simp at hne

/-- There is no line break, or the last line stands behind one. -/
theorem eq_lastLine_or (bytes : Bytes) :
    lastLine bytes = bytes ∨ ∃ front, bytes = front ++ Byte.newline :: lastLine bytes := by
  induction bytes using List.reverseRecOn with
  | nil => exact Or.inl rfl
  | append_singleton bytes b ih =>
    rw [lastLine_concat]
    by_cases hb : b = Byte.newline
    · rw [if_pos hb, hb]
      exact Or.inr ⟨bytes, rfl⟩
    · rw [if_neg hb]
      rcases ih with ih | ⟨front, ih⟩
      · rw [ih]
        exact Or.inl rfl
      · right
        refine ⟨front, ?_⟩
        rw [← List.cons_append, ← List.append_assoc, ← ih]

/-- The piece at a place: what stands before the place since the last break, and what stands behind
it up to the next. -/
theorem getElem?_splitAt (passed rest : Bytes) :
    (splitAt Byte.newline (passed ++ rest))[passed.count Byte.newline]? =
      some (lastLine passed ++ rest.takeWhile (· != Byte.newline)) := by
  have hlast := newline_notMem_lastLine passed
  have hhead : ((lastLine passed ++ rest).splitOn Byte.newline)[0]? =
      some (lastLine passed ++ rest.takeWhile (· != Byte.newline)) := by
    rw [← List.head?_eq_getElem?, head?_splitOn, List.takeWhile_append_of_pos]
    intro b hb
    simp only [bne_iff_ne]
    rintro rfl
    exact hlast hb
  rw [splitAt_eq_splitOn]
  rcases eq_lastLine_or passed with heq | ⟨front, heq⟩
  · have hcount : passed.count Byte.newline = 0 := by
      rw [← heq]
      exact List.count_eq_zero_of_not_mem hlast
    rw [heq] at hhead
    rw [hcount, heq]
    exact hhead
  · have hcount : passed.count Byte.newline = (front.splitOn Byte.newline).length := by
      rw [length_splitOn, heq, List.count_append, List.count_cons_self,
        List.count_eq_zero_of_not_mem hlast]
    have hsplit : (passed ++ rest).splitOn Byte.newline =
        front.splitOn Byte.newline ++ (lastLine passed ++ rest).splitOn Byte.newline := by
      rw [← List.splitOn_append_cons_self, ← List.cons_append, ← List.append_assoc, ← heq]
    rw [hcount, hsplit, List.getElem?_append_right (Nat.le_refl _), Nat.sub_self]
    exact hhead

end Bytes

/-- The pieces but the last, each without a carriage return at its end, and the last one if it is
not empty. -/
theorem sourceLines_eq {source last : Bytes} {others : List Bytes}
    (h : source.splitAt Byte.newline = others ++ [last]) :
    sourceLines source = (others.map fun line =>
        if line.getLast? == some Byte.carriageReturn then line.dropLast else line) ++
      if last.isEmpty then [] else [last] := by
  unfold sourceLines
  simp only [h, List.reverse_append, List.reverse_singleton, List.singleton_append,
    List.reverse_reverse]
  split
  · rw [List.append_nil]
  · rfl

/-- A piece that is not empty is shown, with at most a carriage return dropped. -/
theorem getElem?_sourceLines {source piece : Bytes} {i : Nat}
    (h : (source.splitAt Byte.newline)[i]? = some piece) (hne : piece ≠ []) :
    ∃ line, (sourceLines source)[i]? = some line ∧
      (line = piece ∨ piece = line ++ [Byte.carriageReturn]) := by
  have hpieces : source.splitAt Byte.newline ≠ [] := by
    intro hnil
    rw [hnil] at h
    cases h
  have hsplit := (List.dropLast_append_getLast hpieces).symm
  generalize (source.splitAt Byte.newline).dropLast = others at hsplit
  generalize (source.splitAt Byte.newline).getLast hpieces = last at hsplit
  rw [sourceLines_eq hsplit]
  rw [hsplit] at h
  by_cases hi : i < others.length
  · rw [List.getElem?_append_left hi] at h
    rw [List.getElem?_append_left (by simpa using hi), List.getElem?_map, h]
    refine ⟨_, rfl, ?_⟩
    beta_reduce
    split
    · next hreturn =>
      right
      obtain ⟨front, rfl⟩ := List.getLast?_eq_some_iff.1 (eq_of_beq hreturn)
      rw [List.dropLast_concat]
    · exact Or.inl rfl
  · rw [List.getElem?_append_right (Nat.le_of_not_lt hi), List.getElem?_singleton] at h
    split at h
    · next hlast =>
      rw [Option.some.inj h]
      have hshown : piece.isEmpty = false := by simpa using hne
      refine ⟨piece, ?_, Or.inl rfl⟩
      rw [List.getElem?_append_right (by simpa using hi), List.length_map, hlast, hshown]
      rfl
    · cases h

/-! ## Tokens -/

/-- The bytes of the source that a token covers; a directive without the carriage returns at its
end. -/
def Token.text (source : Bytes) (token : Token) : Bytes :=
  let covered := (source.drop token.start).take (token.stop - token.start)
  match token.lexeme with
  | .directive _ => covered.rdropWhile (· == Byte.carriageReturn)
  | _ => covered

namespace Token.Placed

variable {source : Bytes} {token : Token}

theorem text_front (token : Token) (source : Bytes) :
    token.text source <+: (source.drop token.start).take (token.stop - token.start) := by
  unfold Token.text
  simp only
  split
  · exact List.rdropWhile_prefix _ _
  · exact List.prefix_rfl

/-- The text of a token does not end with a carriage return. -/
theorem text_ne_concat (h : token.Placed source) (hend : token.lexeme ≠ .endOfInput)
    (front : Bytes) : token.text source ≠ front ++ [Byte.carriageReturn] := by
  intro heq
  unfold Token.text at heq
  simp only at heq
  split at heq
  · next text hdirective =>
    generalize (source.drop token.start).take (token.stop - token.start) = covered at heq
    have hne : covered.rdropWhile (· == Byte.carriageReturn) ≠ [] := by
      rw [heq]
      exact List.concat_ne_nil _ _
    have hlast := List.rdropWhile_last_not _ _ hne
    simp [heq] at hlast
  · next hother =>
    apply (h.spans hend).noReturn hother
    rw [heq]
    exact List.mem_append_right _ (List.mem_singleton_self _)

/-- The piece with the number of its line is what stands before the token since the last break, the
bytes of the token, and more. -/
theorem getElem?_piece (h : token.Placed source) (hend : token.lexeme ≠ .endOfInput) :
    ∃ more, (source.splitAt Byte.newline)[token.line - 1]? =
      some (Bytes.lastLine (source.take token.start) ++
        ((source.drop token.start).take (token.stop - token.start) ++ more)) := by
  have hpiece := Bytes.getElem?_splitAt (source.take token.start) (source.drop token.start)
  have hline : token.line - 1 = (source.take token.start).count Byte.newline := by
    rw [h.line, lineAt, Nat.add_sub_cancel]
  have honeLine : ∀ b ∈ (source.drop token.start).take (token.stop - token.start),
      (b != Byte.newline) = true := by
    intro b hb
    rw [bne_iff_ne]
    rintro rfl
    exact (h.spans hend).oneLine hb
  rw [List.take_append_drop, ← List.take_append_drop (token.stop - token.start)
    (source.drop token.start), List.takeWhile_append_of_pos honeLine] at hpiece
  rw [hline]
  exact ⟨_, hpiece⟩

/-- The line of a token is shown, and from the column of the token on it begins with the text of the
token. -/
theorem shown (h : token.Placed source) (hend : token.lexeme ≠ .endOfInput) :
    ∃ line, (sourceLines source)[token.line - 1]? = some line ∧
      token.text source <+: line.drop (token.column - 1) := by
  have htext := text_front token source
  have hcovered : 0 < ((source.drop token.start).take (token.stop - token.start)).length := by
    have hpos := (h.spans hend).pos
    have hwithin := (h.spans hend).within
    rw [List.length_take]
    omega
  have hcolumn : token.column - 1 = (Bytes.lastLine (source.take token.start)).length := by
    rw [h.column, columnAt, Nat.add_sub_cancel]
  obtain ⟨more, hpiece⟩ := h.getElem?_piece hend
  rw [hcolumn]
  generalize Bytes.lastLine (source.take token.start) = front at hpiece
  generalize (source.drop token.start).take (token.stop - token.start) = covered at *
  have hne : front ++ (covered ++ more) ≠ [] := by
    rw [← List.length_pos_iff]
    simp only [List.length_append]
    omega
  obtain ⟨line, hshown, hkept⟩ := getElem?_sourceLines hpiece hne
  refine ⟨line, hshown, ?_⟩
  rcases hkept with rfl | hreturn
  · rw [List.drop_left]
    exact htext.trans (List.prefix_append _ _)
  · -- the carriage return that is dropped is not the last byte of the text
    have hlength := congrArg List.length hreturn
    have hdrop := congrArg (List.drop front.length) hreturn
    simp only [List.length_append, List.length_singleton] at hlength
    rw [List.drop_left, List.drop_append_of_le_length (by omega)] at hdrop
    have hconcat : token.text source <+: line.drop front.length ++ [Byte.carriageReturn] := by
      rw [← hdrop]
      exact htext.trans (List.prefix_append _ _)
    rcases List.prefix_concat_iff.1 hconcat with heq | hfront
    · exact absurd heq (h.text_ne_concat hend _)
    · exact hfront

end Token.Placed

/-! ## Costs -/

/-- The summary of a source is that of a run on its tree. -/
theorem Analyzer.analyzeSource_eq_ok {a : Analyzer} {file : String} {source : Bytes}
    {summary : FileSummary} (h : a.analyzeSource file source = .ok summary) :
    ∃ t, Tree.ofSource source = .ok t ∧
      (CostRun.ofTree a.options t : CostRun Int64).failure = none ∧
      summary.source = sourceLines source ∧
      summary.lines = (CostRun.ofTree a.options t : CostRun Int64).lines := by
  unfold analyzeSource examine Examination.result at h
  cases hsource : Tree.ofSource source with
  | error e =>
    rw [hsource] at h
    cases h
  | ok t =>
    rw [hsource] at h
    simp only [Except.map] at h
    split at h
    · cases h
    · next hfailure =>
      cases h
      exact ⟨t, rfl, hfailure, rfl, rfl⟩

/-- A line with a cost is the line of a token that is shown. -/
theorem Analyzer.line_of_token {a : Analyzer} {file : String} {source : Bytes}
    {summary : FileSummary} (h : a.analyzeSource file source = .ok summary) {line : Int}
    (hline : line ∈ summary.lines) :
    ∃ token ∈ tokenize source, token.lexeme ≠ .endOfInput ∧ line = token.line := by
  obtain ⟨t, hsource, hfailure, -, hlines⟩ := analyzeSource_eq_ok h
  have ht : t.IsTree := Tree.ofTokens_isTree hsource
  have hrel := CostRun.ofTree_related Saturating.ofNat_hom a.options t
  rw [hlines, hrel.lines.mem_iff, CostRun.mem_lines ht rfl (hrel.failure ▸ hfailure)] at hline
  obtain ⟨id, hreachable, hoperation, -, rfl⟩ := hline
  obtain ⟨token, htoken, heq⟩ :=
    Tree.lined_of_ok hsource (ht.lt_size_of_reachable hreachable) hoperation
  refine ⟨token, htoken.mem, fun hend => ?_, heq⟩
  have hnotLast := htoken.notLast
  rw [hend] at hnotLast
  cases hnotLast

/-! ## Rows -/

theorem Bytes.ofString_line {last : String} (text : String) (h : last = text ++ "\n")
    (front : String) : ofString (front ++ last) = ofString (front ++ text) ++ ofString "\n" := by
  rw [h, ← String.append_assoc, ofString_append]

/-- The line stands in the text, between two breaks. -/
def Bytes.HasLine (text line : Bytes) : Prop :=
  Bytes.ofString "\n" ++ line ++ Bytes.ofString "\n" <:+: text

theorem isInfix_flatMap {α β : Type} {f : α → List β} {l : List α} {a : α} (h : a ∈ l) :
    f a <:+: l.flatMap f := by
  rw [List.flatMap_def]
  exact List.infix_of_mem_flatten (List.mem_map_of_mem h)

/-- Behind a break, each of some rows that end with a break is a line. -/
theorem Bytes.hasLine_flatMap {α : Type} {row line : α → Bytes}
    (hrow : ∀ a, row a = line a ++ Bytes.ofString "\n") {rows : List α} {a : α} (h : a ∈ rows)
    (front back : Bytes) :
    (front ++ Bytes.ofString "\n" ++ rows.flatMap row ++ back).HasLine (line a) := by
  obtain ⟨before, after, rfl⟩ := List.append_of_mem h
  -- what comes before the row ends with a break: that of the row before, or the first one
  have hbreak : ∃ start, Bytes.ofString "\n" ++ before.flatMap row =
      start ++ Bytes.ofString "\n" := by
    cases before using List.reverseRecOn with
    | nil => exact ⟨[], by simp⟩
    | append_singleton others last =>
      exact ⟨Bytes.ofString "\n" ++ others.flatMap row ++ line last, by simp [hrow]⟩
  obtain ⟨start, hstart⟩ := hbreak
  refine ⟨front ++ start, after.flatMap row ++ back, ?_⟩
  calc
    front ++ start ++ (Bytes.ofString "\n" ++ line a ++ Bytes.ofString "\n") ++
        (after.flatMap row ++ back)
      = front ++ (start ++ Bytes.ofString "\n") ++ row a ++ after.flatMap row ++ back := by
        simp [hrow]
    _ = front ++ Bytes.ofString "\n" ++ (before ++ a :: after).flatMap row ++ back := by
        simp [← hstart]

/-- Text in the style of a heat is plain, or stands between the control sequences of a style. -/
theorem Style.paintHeat_cases (color : Bool) (level : HeatLevel) (text : Bytes) :
    paintHeat color level text = text ∨ ∃ style, ofHeat level = some style ∧
      paintHeat color level text =
        Bytes.ofString style.opening ++ text ++ Bytes.ofString style.closing := by
  unfold paintHeat
  cases ofHeat level with
  | none => exact Or.inl rfl
  | some style =>
    cases color with
    | false => exact Or.inl rfl
    | true => exact Or.inr ⟨style, rfl, rfl⟩

namespace ConsoleReport

/-- The columns of a line: its number and cost, both behind any number of blanks, and its text. -/
def IsColumns (number : Nat) (cost : Int64) (text columns : Bytes) : Prop :=
  ∃ before between : Nat, columns =
    Bytes.ofString (line ' ' before ++ toString number ++ " | " ++ line ' ' between ++
      toString cost.toInt ++ " | ") ++ text

/-- The columns of a line stand on a line of the report, plain or in the style of a heat. -/
def ShowsLine (report : Bytes) (number : Nat) (cost : Int64) (text : Bytes) : Prop :=
  ∃ columns, IsColumns number cost text columns ∧
    (report.HasLine columns ∨ ∃ level style, Style.ofHeat level = some style ∧
      report.HasLine (Bytes.ofString style.opening ++ columns ++ Bytes.ofString style.closing))

/-- A row without its break. -/
def rowLine (look : Look) (file : FileSummary) (row : Bytes × Nat) : Bytes :=
  let cost := file.lines.getD (row.2 + 1 : Nat) 0
  Style.paintHeat look.paints
    (HeatLevel.ofCost look.settings.analysis.heatThresholds cost file.largest)
    (Bytes.ofString (padLeft 4 (toString (row.2 + 1)) ++ " | " ++ number 6 cost ++ " | ") ++ row.1)

theorem rowLine_shows {report : Bytes} (look : Look) {file : FileSummary} {text : Bytes}
    {index : Nat} {cost : Int64} (hcost : file.lines.getD (index + 1 : Nat) 0 = cost)
    (h : report.HasLine (rowLine look file (text, index))) :
    ShowsLine report (index + 1) cost text := by
  obtain ⟨columns, hcolumns, hrow⟩ : ∃ columns, IsColumns (index + 1) cost text columns ∧
      rowLine look file (text, index) = Style.paintHeat look.paints
        (HeatLevel.ofCost look.settings.analysis.heatThresholds cost file.largest) columns := by
    refine ⟨_, ⟨4 - (toString (index + 1)).length, 6 - (toString cost.toInt).length, rfl⟩, ?_⟩
    simp only [rowLine, hcost, number, padLeft, line, String.append_assoc]
  rw [hrow] at h
  refine ⟨columns, hcolumns, ?_⟩
  rcases Style.paintHeat_cases look.paints _ columns with hplain | ⟨style, hstyle, hpainted⟩
  · rw [hplain] at h
    exact Or.inl h
  · rw [hpainted] at h
    exact Or.inr ⟨_, style, hstyle, h⟩

theorem heading_ends (look : Look) (text : String) :
    ∃ front, heading look text = front ++ Bytes.ofString "\n" := by
  unfold heading
  rw [Bytes.ofString_append _ "\n", ← List.append_assoc]
  exact ⟨_, rfl⟩

/-- Every line of a file that is part of a batch is shown in the report. -/
theorem report_showsLine {batch : Batch} {summary : FileSummary}
    (h : .analysed summary ∈ batch.results) {text : Bytes} {index : Nat}
    (hline : summary.source[index]? = some text) {cost : Int64}
    (hcost : summary.lines.getD (index + 1 : Nat) 0 = cost) (look : Look) (duration : String) :
    ShowsLine (report look batch duration) (index + 1) cost text := by
  have hrow : (text, index) ∈ summary.source.zipIdx := List.mem_zipIdx_iff_getElem?.2 hline
  refine rowLine_shows look hcost (List.IsInfix.trans ?_
    ((isInfix_flatMap h).trans (List.infix_append _ _ _)))
  obtain ⟨front, hfront⟩ := heading_ends look (summary.file ++ " (total " ++
    toString summary.total.toInt ++ ", max " ++ toString summary.largest.toInt ++ ")")
  rw [fileReport, hfront, List.append_assoc _ (Bytes.ofString "\n") (details look summary)]
  exact Bytes.hasLine_flatMap (fun row => rfl) hrow _ _

end ConsoleReport

namespace HtmlReport

/-- The bytes that stand for themselves in a page. -/
def standsForItself (b : UInt8) : Bool :=
  b != 0 && b != Byte.ofChar '&' && b != Byte.ofChar '<' && b != Byte.ofChar '>'

/-- The references to characters that a page may hold. -/
def references : List (String × Char) :=
  [("&amp;", '&'), ("&lt;", '<'), ("&gt;", '>'), ("&#34;", '"'), ("&#39;", '\''), ("&#43;", '+')]

/-- The markup is displayed as the text. A zero byte is displayed as the replacement character. -/
inductive Displays : Bytes → Bytes → Prop where
  | nil : Displays [] []
  | plain {b : UInt8} {markup text : Bytes} (hb : standsForItself b = true)
      (h : Displays markup text) : Displays (b :: markup) (b :: text)
  | reference {name : String} {c : Char} {markup text : Bytes} (hc : (name, c) ∈ references)
      (h : Displays markup text) : Displays (Bytes.ofString name ++ markup) (Byte.ofChar c :: text)
  | zero {markup text : Bytes} (h : Displays markup text) :
      Displays (Bytes.ofString "�" ++ markup) (0 :: text)

/-- A row of a table stands on a line of the page. Its cells hold the number of the line, markup
that is displayed as its text, and its cost. -/
def ShowsLine (page : Bytes) (number : Nat) (cost : Int64) (text : Bytes) : Prop :=
  ∃ (color : String) (markup : Bytes), Displays markup text ∧
    page.HasLine (Bytes.ofString ("<tr style=\"background-color: " ++ color ++
        "\"><td class=\"line\">" ++ toString number ++ "</td><td class=\"source\">") ++ markup ++
      Bytes.ofString ("</td><td class=\"cost\">" ++ toString cost.toInt ++ "</td></tr>"))

theorem escapeByte_reference :
    ∀ entry ∈ references, escapeByte (Byte.ofChar entry.2) = Bytes.ofString entry.1 := by
  decide

theorem escapeByte_plain {b : UInt8} (hzero : b ≠ 0)
    (h : ∀ entry ∈ references, b ≠ Byte.ofChar entry.2) :
    escapeByte b = [b] ∧ standsForItself b = true := by
  simp only [references, List.forall_mem_cons] at h
  obtain ⟨hamp, hless, hgreater, hdouble, hsingle, hplus, -⟩ := h
  have hplus' : b ≠ Byte.plus := hplus
  constructor
  · simp [escapeByte, hzero, hamp, hless, hgreater, hdouble, hsingle, hplus']
  · simp [standsForItself, hzero, hamp, hless, hgreater]

/-- Escaped text is displayed as it was. -/
theorem displays_escape (text : Bytes) : Displays (escape text) text := by
  induction text with
  | nil => exact .nil
  | cons b text ih =>
    change Displays (escapeByte b ++ escape text) (b :: text)
    by_cases hreference : ∃ entry ∈ references, b = Byte.ofChar entry.2
    · obtain ⟨⟨name, c⟩, hentry, rfl⟩ := hreference
      rw [escapeByte_reference _ hentry]
      exact .reference hentry ih
    · by_cases hzero : b = 0
      · rw [hzero]
        exact .zero ih
      · obtain ⟨hescape, hplain⟩ := escapeByte_plain hzero fun entry hentry heq =>
          hreference ⟨entry, hentry, heq⟩
        rw [hescape]
        exact .plain hplain ih

/-- A row without its break. -/
def rowLine (file : FileSummary) (line : Bytes × Nat) : Bytes :=
  let cost := file.lines.getD (line.2 + 1 : Nat) 0
  Bytes.ofString ("<tr style=\"background-color: " ++ heatColor cost file.largest ++
      "\"><td class=\"line\">" ++ toString (line.2 + 1) ++ "</td><td class=\"source\">") ++
    escape line.1 ++
    Bytes.ofString ("</td><td class=\"cost\">" ++ toString cost.toInt ++ "</td></tr>")

theorem row_eq (file : FileSummary) (line : Bytes × Nat) :
    row file line = rowLine file line ++ Bytes.ofString "\n" := by
  have hlast : "</td></tr>\n" = "</td></tr>" ++ "\n" := rfl
  unfold row rowLine
  simp only [Bytes.ofString_line _ hlast, List.append_assoc]

/-- Every line of a file that is part of a batch is shown in the page. -/
theorem report_showsLine {batch : Batch} {summary : FileSummary}
    (h : .analysed summary ∈ batch.results) {text : Bytes} {index : Nat}
    (hline : summary.source[index]? = some text) {cost : Int64}
    (hcost : summary.lines.getD (index + 1 : Nat) 0 = cost) :
    ShowsLine (report batch) (index + 1) cost text := by
  have hrow : (text, index) ∈ summary.source.zipIdx := List.mem_zipIdx_iff_getElem?.2 hline
  have hfile : (fileReport (.analysed summary)).HasLine (rowLine summary (text, index)) := by
    rw [fileReport, Bytes.ofString_line "</p>\n<table>" (by decide), ← List.append_assoc]
    exact Bytes.hasLine_flatMap (row_eq summary) hrow _ _
  refine ⟨heatColor cost summary.largest, escape text, displays_escape text, ?_⟩
  subst hcost
  exact (hfile.trans (isInfix_flatMap h)).trans (List.infix_append _ _ _)

end HtmlReport

/-- Tokens carry the line and the column of their first byte, and every token but the end of the
input is found there in the lines that are shown. So every line with a cost is a line of the source,
and the reports for people and for browsers show it: its number, its cost and its text stand on one
line of them. -/
theorem positions_match_shown_lines (source : Bytes) :
    (∀ token ∈ tokenize source,
      token.line = lineAt source token.start ∧ token.column = columnAt source token.start ∧
      (token.lexeme ≠ .endOfInput → ∃ line, (sourceLines source)[token.line - 1]? = some line ∧
        token.text source <+: line.drop (token.column - 1))) ∧
    ∀ (a : Analyzer) (file : String) (summary : FileSummary),
      a.analyzeSource file source = .ok summary → summary.source = sourceLines source ∧
        ∀ (number : Int) (cost : Int64), summary.lines[number]? = some cost →
          1 ≤ number ∧ number ≤ summary.source.length ∧
          ∃ (index : Nat) (text : Bytes), number = index + 1 ∧
            summary.source[index]? = some text ∧
            ∀ batch : Batch, .analysed summary ∈ batch.results →
              (∀ look duration, ConsoleReport.ShowsLine (ConsoleReport.report look batch duration)
                (index + 1) cost text) ∧
              HtmlReport.ShowsLine (HtmlReport.report batch) (index + 1) cost text := by
  constructor
  · intro token htoken
    have hplaced := tokenize_placed source token htoken
    exact ⟨hplaced.line, hplaced.column, hplaced.shown⟩
  · intro a file summary h
    obtain ⟨t, -, -, hshown, -⟩ := Analyzer.analyzeSource_eq_ok h
    refine ⟨hshown, fun number cost hnumber => ?_⟩
    have hmem : number ∈ summary.lines := by
      rw [Std.TreeMap.mem_iff_isSome_getElem?, hnumber, Option.isSome_some]
    obtain ⟨token, htoken, hend, rfl⟩ := Analyzer.line_of_token h hmem
    have hplaced := tokenize_placed source token htoken
    obtain ⟨text, htext, -⟩ := hplaced.shown hend
    rw [← hshown] at htext
    have hpos : token.line - 1 + 1 = token.line := by
      rw [hplaced.line]
      exact Nat.succ_pred_eq_of_pos (Nat.le_add_left 1 _)
    have hlt : token.line - 1 < summary.source.length := (List.getElem?_eq_some_iff.1 htext).1
    have hcost : summary.lines.getD (token.line - 1 + 1 : Nat) 0 = cost := by
      rw [hpos, Std.TreeMap.getD_eq_getD_getElem?, hnumber, Option.getD_some]
    refine ⟨by omega, by omega, token.line - 1, text, by omega, htext, fun batch hbatch => ⟨?_, ?_⟩⟩
    · exact ConsoleReport.report_showsLine hbatch htext hcost
    · exact HtmlReport.report_showsLine hbatch htext hcost

/-- A comment over two lines, a line that goes on in the next, and breaks of both kinds; the input
ends on a line that is not shown. -/
def mixedBreaks : Bytes :=
  Bytes.ofString "// one\r\nint f() \x7b/* two\n*/ return 1 \\\n+ 2; \x7d\r\n"

theorem positions_match_mixedBreaks :
    (∃ token ∈ tokenize mixedBreaks, token.lexeme = .symbol .plus ∧ token.line = 4 ∧
      token.column = 1 ∧ ∃ line, (sourceLines mixedBreaks)[3]? = some line ∧
        token.text mixedBreaks <+: line) ∧
    ∃ summary, ({} : Analyzer).analyzeSource "f" mixedBreaks = .ok summary ∧
      summary.source.length = 4 ∧ summary.lines[(4 : Int)]? = some 1 ∧
      HtmlReport.ShowsLine (HtmlReport.report { results := [.analysed summary] }) 4 1
        (Bytes.ofString "+ 2; \x7d") := by
  have htoken : ∃ token ∈ tokenize mixedBreaks, token.lexeme = .symbol .plus ∧ token.line = 4 ∧
      token.column = 1 := by decide +kernel
  have heval : (({} : Analyzer).analyzeSource "f" mixedBreaks).toOption.any fun summary =>
      summary.source.length == 4 && summary.source[3]? == some (Bytes.ofString "+ 2; \x7d") &&
        summary.lines[(4 : Int)]? == some 1 := by decide +kernel
  have hsummary : ∃ summary, ({} : Analyzer).analyzeSource "f" mixedBreaks = .ok summary ∧
      (summary.source.length = 4 ∧ summary.source[3]? = some (Bytes.ofString "+ 2; \x7d")) ∧
        summary.lines[(4 : Int)]? = some 1 := by
    cases hok : ({} : Analyzer).analyzeSource "f" mixedBreaks with
    | error e =>
      rw [hok] at heval
      cases heval
    | ok summary =>
      rw [hok] at heval
      refine ⟨summary, rfl, ?_⟩
      simpa only [Except.toOption, Option.any_some, Bool.and_eq_true, beq_iff_eq] using heval
  obtain ⟨hplaces, hcosts⟩ := positions_match_shown_lines mixedBreaks
  obtain ⟨token, hmem, hplus, hline, hcolumn⟩ := htoken
  obtain ⟨summary, hok, ⟨hlength, hlast⟩, hcosted⟩ := hsummary
  obtain ⟨-, -, hshown⟩ := hplaces token hmem
  have hend : token.lexeme ≠ .endOfInput := by
    rw [hplus]
    nofun
  refine ⟨⟨token, hmem, hplus, hline, hcolumn, ?_⟩, summary, hok, hlength, hcosted, ?_⟩
  · have hfound := hshown hend
    rw [hline, hcolumn] at hfound
    exact hfound
  · obtain ⟨-, -, index, text, hindex, htext, hrows⟩ :=
      (hcosts {} "f" summary hok).2 4 1 hcosted
    obtain rfl : index = 3 := by omega
    rw [hlast] at htext
    cases htext
    exact (hrows { results := [.analysed summary] } List.mem_cons_self).2

end ShaderCost
