import ShaderCost.Proofs.Grammar.FunctionNames

/-! # Signatures tell functions apart

The signature of a function is a text, and functions are told apart by it. The text can be read
back: the name ends at the first parenthesis, commas separate the parameters, the length of an array
stands in brackets, and what stands before them is the name of a built-in type or else of a
structure. So functions with one signature agree in name and parameters (`signatureOf_injective`),
as long as the names are words and the parameters have types that can be written
(`Shape.IsWritten`).
-/

namespace ShaderCost

namespace Shape

/-- The shapes that can be written as the type of a parameter: built-in types and samplers,
structures, and arrays of them. -/
inductive IsWritten : Shape → Prop where
  | builtin {name : String} {shape : Shape} (h : Builtin.type? name = some shape) : IsWritten shape
  | struct {name : String} (hname : IsIdentifier name) (hnew : Builtin.type? name = none) :
      IsWritten (.ofStruct name)
  | array {shape : Shape} {length : Int} (h : IsWritten shape) (hsingle : shape.isArray = false)
      (hpos : 0 < length) : IsWritten { shape with arrayLength := length }

/-- The shape of a type name. -/
def named (text : String) : Shape := (Builtin.type? text).getD (.ofStruct text)

/-- The length of an array in brackets. -/
def suffix (length : Int) : List Char :=
  if length > 0 then '[' :: (Nat.toDigits 10 length.toNat ++ [']']) else []

theorem toList_text (s : Shape) : s.text.toList = s.baseText.toList ++ suffix s.arrayLength := by
  unfold text suffix
  split
  · next hpos =>
    obtain ⟨n, hn⟩ := Int.eq_ofNat_of_zero_le (Int.le_of_lt hpos)
    have hdigits : (toString s.arrayLength).toList = Nat.toDigits 10 s.arrayLength.toNat := by
      rw [hn]
      exact String.toList_ofList
    simp only [String.toList_append, hdigits, List.append_assoc]
    rfl
  · rw [List.append_nil]

theorem suffix_head (length : Int) : ∀ c ∈ (suffix length).head?, c = '[' := by
  unfold suffix
  split
  · exact fun c hc => (Option.some.inj hc).symm
  · exact fun c hc => by cases hc

theorem comma_notMem_suffix (length : Int) : ',' ∉ suffix length := by
  unfold suffix
  split
  · have hdigits : ',' ∉ Nat.toDigits 10 length.toNat := fun hc =>
      absurd (Nat.isDigit_of_mem_toDigits (by decide) (by decide) hc) (by decide)
    simpa using hdigits
  · exact List.not_mem_nil

/-- Lengths are read back. -/
theorem suffix_injective {m n : Int} (hm : 0 ≤ m) (hn : 0 ≤ n) (h : suffix m = suffix n) :
    m = n := by
  unfold suffix at h
  split at h
  · split at h
    · have hdigits := List.append_cancel_right (List.cons.inj h).2
      have hnat : m.toNat = n.toNat := by
        rw [← Nat.ofDigitChars_toDigits (b := 10) (n := m.toNat) (by decide) (by decide), hdigits,
          Nat.ofDigitChars_toDigits (by decide) (by decide)]
      omega
    · cases h
  · split at h
    · cases h
    · omega

/-- The names of built-in types are read back, and no mark occurs in them. -/
theorem builtin_named : ∀ p ∈ Builtin.types, named p.2.baseText = p.2 ∧ p.2.arrayLength = 0 ∧
    p.2.baseText.toList ≠ [] ∧ '[' ∉ p.2.baseText.toList ∧ ',' ∉ p.2.baseText.toList := by
  decide +kernel

namespace IsWritten

variable {s s' : Shape}

theorem named_eq (h : s.IsWritten) :
    { named s.baseText with arrayLength := s.arrayLength } = s := by
  induction h with
  | builtin h => rw [(builtin_named _ (Builtin.lookup_mem h)).1]
  | @struct name _ hnew =>
    have hnamed : named (ofStruct name).baseText = ofStruct name := by
      change (Builtin.type? name).getD _ = _
      rw [hnew, Option.getD_none]
      rfl
    rw [hnamed]
  | @array shape length _ _ _ ih =>
    have hbase : ({ shape with arrayLength := length } : Shape).baseText = shape.baseText := rfl
    conv_rhs => rw [← ih]
    rw [hbase]

theorem length_nonneg (h : s.IsWritten) : 0 ≤ s.arrayLength := by
  cases h with
  | builtin h => exact Int.le_of_eq (builtin_named _ (Builtin.lookup_mem h)).2.1.symm
  | struct _ _ => exact Int.le_refl 0
  | array _ _ hpos => exact Int.le_of_lt hpos

/-- Before the brackets there is a word. -/
theorem word (h : s.IsWritten) :
    s.baseText.toList ≠ [] ∧ '[' ∉ s.baseText.toList ∧ ',' ∉ s.baseText.toList := by
  induction h with
  | builtin h => exact (builtin_named _ (Builtin.lookup_mem h)).2.2
  | struct hname _ =>
    exact ⟨hname.toList_ne_nil, hname.mark_notMem 91 rfl, hname.mark_notMem 44 rfl⟩
  | array _ _ _ ih => exact ih

theorem comma_notMem_text (h : s.IsWritten) : ',' ∉ s.text.toList := by
  rw [toList_text, List.mem_append]
  exact not_or.2 ⟨h.word.2.2, comma_notMem_suffix _⟩

theorem text_ne_nil (h : s.IsWritten) : s.text.toList ≠ [] := by
  rw [toList_text]
  exact List.append_ne_nil_of_left_ne_nil h.word.1 _

theorem text_injective (h : s.IsWritten) (h' : s'.IsWritten) (htext : s.text = s'.text) :
    s = s' := by
  have hlist : s.baseText.toList ++ suffix s.arrayLength =
      s'.baseText.toList ++ suffix s'.arrayLength := by rw [← toList_text, htext, toList_text]
  have hbase : s.baseText.toList = s'.baseText.toList := by
    rw [← takeWhile_ne_mark h.word.2.1 (suffix_head s.arrayLength), hlist,
      takeWhile_ne_mark h'.word.2.1 (suffix_head s'.arrayLength)]
  rw [hbase] at hlist
  have hlength : s.arrayLength = s'.arrayLength :=
    suffix_injective h.length_nonneg h'.length_nonneg (List.append_cancel_left hlist)
  rw [← h.named_eq, ← h'.named_eq, String.toList_inj.1 hbase, hlength]

end IsWritten

end Shape

/-- The texts of parameters are read back from where the commas stand. -/
theorem splitOn_intercalate_text {ps : List Shape} (hps : ∀ p ∈ ps, p.IsWritten) :
    (List.splitOn ',' ([','].intercalate (ps.map (·.text.toList)))).filter (!·.isEmpty) =
      ps.map (·.text.toList) := by
  by_cases hnil : ps = []
  · subst hnil
    rfl
  · rw [List.splitOn_intercalate, List.filter_eq_self]
    · intro text htext
      obtain ⟨p, hp, rfl⟩ := List.mem_map.1 htext
      simpa using (hps p hp).text_ne_nil
    · intro text htext
      obtain ⟨p, hp, rfl⟩ := List.mem_map.1 htext
      exact (hps p hp).comma_notMem_text
    · simpa using hnil

theorem eq_of_map_text_eq {ps ps' : List Shape} (hps : ∀ p ∈ ps, p.IsWritten)
    (hps' : ∀ p ∈ ps', p.IsWritten)
    (h : ps.map (·.text.toList) = ps'.map (·.text.toList)) : ps = ps' := by
  induction ps generalizing ps' with
  | nil => exact (List.map_eq_nil_iff.1 h.symm).symm
  | cons p ps ih =>
    cases ps' with
    | nil => cases h
    | cons p' ps' =>
      obtain ⟨htext, hrest⟩ := List.cons.inj h
      obtain ⟨hp, hps⟩ := List.forall_mem_cons.1 hps
      obtain ⟨hp', hps'⟩ := List.forall_mem_cons.1 hps'
      rw [hp.text_injective hp' (String.toList_inj.1 htext), ih hps hps' hrest]

/-- Functions of one name with one signature have the same parameters. -/
theorem params_eq_of_signatureOf_eq {name : String} {ps ps' : List Shape}
    (hps : ∀ p ∈ ps, p.IsWritten) (hps' : ∀ p ∈ ps', p.IsWritten)
    (h : signatureOf name ps = signatureOf name ps') : ps = ps' := by
  have hlist := congrArg String.toList h
  rw [toList_signatureOf, toList_signatureOf] at hlist
  have hparams := List.append_cancel_right (List.cons.inj (List.append_cancel_left hlist)).2
  refine eq_of_map_text_eq hps hps' ?_
  rw [← splitOn_intercalate_text hps, hparams, splitOn_intercalate_text hps']

theorem signatureOf_injective {name name' : String} {ps ps' : List Shape}
    (hname : IsIdentifier name) (hname' : IsIdentifier name') (hps : ∀ p ∈ ps, p.IsWritten)
    (hps' : ∀ p ∈ ps', p.IsWritten) (h : signatureOf name ps = signatureOf name' ps') :
    name = name' ∧ ps = ps' := by
  obtain rfl : name = name' := by rw [← nameOf_signatureOf hname ps, h, nameOf_signatureOf hname']
  exact ⟨rfl, params_eq_of_signatureOf_eq hps hps' h⟩

end ShaderCost
