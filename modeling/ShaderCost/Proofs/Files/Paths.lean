import Mathlib.Data.List.TakeWhile
import ShaderCost.Files.Path

/-! # What paths mean

A path is known by its elements, and cleaning it keeps what is left of them on a stack (`stack`). The
stack of a path and whether it is absolute say all that its clean form says, and the clean form gives
both back (`stack_clean`, `isAbsolute_clean`), so paths have the same clean form exactly if these agree
(`clean_eq_clean`).

A name is a text that can stand for an entry of a directory. It is put on the stack as it is, so the
path of an entry is that of its directory with the name on top (`IsName.stack_append`), and the name
can be read off the end of the path (`IsName.afterSlash_join`).
-/

namespace ShaderCost.Path

/-! ## Elements -/

theorem elements_eq_splitOn (path : Path) :
    path.elements = (path.toList.splitOn '/').map String.ofList := by
  have h : ∀ chars : List Char,
      (chars.foldr (fun c (acc : List Char × List String) =>
        if c == '/' then ([], String.ofList acc.1 :: acc.2) else (c :: acc.1, acc.2)) ([], [])) =
      ((chars.splitOn '/').headD [], (chars.splitOn '/').tail.map String.ofList) := by
    intro chars
    induction chars with
    | nil => rfl
    | cons c chars ih =>
      rw [List.foldr_cons, ih, List.splitOn_cons_eq_if_modifyHead]
      have hne := List.splitOn_ne_nil '/' chars
      cases hsplit : chars.splitOn '/' with
      | nil => exact absurd hsplit hne
      | cons piece pieces =>
        split
        · rfl
        · rfl
  unfold elements
  simp only [h]
  have hne := List.splitOn_ne_nil '/' path.toList
  cases hsplit : path.toList.splitOn '/' with
  | nil => exact absurd hsplit hne
  | cons piece pieces => rfl

theorem elements_ne_nil (path : Path) : path.elements ≠ [] := by
  rw [elements_eq_splitOn]
  exact fun h => List.splitOn_ne_nil '/' path.toList (List.map_eq_nil_iff.1 h)

theorem elements_of_noSlash {path : Path} (h : '/' ∉ path.toList) : path.elements = [path] := by
  rw [elements_eq_splitOn, List.splitOn_eq_singleton h, List.map_singleton, String.ofList_toList]

theorem elements_append_slash (a b : Path) : (a ++ "/" ++ b).elements = a.elements ++ b.elements := by
  have hlist : (a ++ "/" ++ b).toList = a.toList ++ '/' :: b.toList := by simp
  rw [elements_eq_splitOn, elements_eq_splitOn, elements_eq_splitOn, hlist,
    List.splitOn_append_cons_self, List.map_append]

theorem noSlash_of_mem_splitOn {chars piece : List Char} (h : piece ∈ chars.splitOn '/') :
    '/' ∉ piece := by
  induction chars generalizing piece with
  | nil =>
    obtain rfl : piece = [] := by simpa using h
    exact List.not_mem_nil
  | cons c chars ih =>
    rw [List.splitOn_cons_eq_if_modifyHead] at h
    split at h
    · rcases List.mem_cons.1 h with rfl | h
      · exact List.not_mem_nil
      · exact ih h
    · next hc =>
      cases hsplit : chars.splitOn '/' with
      | nil => exact absurd hsplit (List.splitOn_ne_nil '/' chars)
      | cons first others =>
        rw [hsplit] at h ih
        rcases List.mem_cons.1 h with rfl | h
        · have hfirst := ih List.mem_cons_self
          have hne : '/' ≠ c := fun heq => hc (beq_iff_eq.2 heq.symm)
          simp [hne, hfirst]
        · exact ih (List.mem_cons_of_mem first h)

theorem noSlash_of_mem_elements {path : Path} {element : String} (h : element ∈ path.elements) :
    '/' ∉ element.toList := by
  rw [elements_eq_splitOn] at h
  obtain ⟨piece, hpiece, rfl⟩ := List.mem_map.1 h
  rw [String.toList_ofList]
  exact noSlash_of_mem_splitOn hpiece

/-! ## Stacks -/

/-- What is left of the elements of a path when it is cleaned, the last element first. -/
def stack (path : Path) : List String := path.elements.foldl (push path.isAbsolute) []

/-- The clean path of a stack. -/
def ofStack (absolute : Bool) (stack : List String) : Path :=
  let text := "/".intercalate stack.reverse
  if absolute then "/" ++ text else if text.isEmpty then "." else text

theorem clean_eq_ofStack (path : Path) : path.clean = ofStack path.isAbsolute path.stack := rfl

/-- An element that can be on a stack. -/
structure Stackable (element : String) : Prop where
  ne_empty : element ≠ ""
  ne_here : element ≠ "."
  no_slash : '/' ∉ element.toList

/-- A stack that cleaning leaves as it is. -/
structure Settled (absolute : Bool) (stack : List String) : Prop where
  stackable : ∀ element ∈ stack, Stackable element
  foldl_push : stack.reverse.foldl (push absolute) [] = stack

/-- An element that goes nowhere. -/
def isIdle (element : String) : Bool := element.isEmpty || element == "."

theorem Stackable.isIdle_eq {element : String} (h : Stackable element) : isIdle element = false := by
  simp [isIdle, h.ne_empty, h.ne_here]

theorem push_of_isIdle {element : String} (h : isIdle element = true) (absolute : Bool)
    (stack : List String) : push absolute stack element = stack := by
  unfold isIdle at h
  unfold push
  rw [if_pos h]

theorem push_of_not_isIdle {element : String} (h : isIdle element = false) (hup : element ≠ "..")
    (absolute : Bool) (stack : List String) : push absolute stack element = element :: stack := by
  unfold isIdle at h
  simp [push, h, hup]

theorem push_above_cons (absolute : Bool) {top : String} (htop : top ≠ "..") (below : List String) :
    push absolute (top :: below) ".." = below := by
  have hbeq : (top == "..") = false := by simpa using htop
  change (if top == ".." then ".." :: top :: below else below) = below
  rw [hbeq]
  rfl

namespace Settled

variable {absolute : Bool} {stack : List String}

theorem nil (absolute : Bool) : Settled absolute [] := ⟨by simp, rfl⟩

theorem of_cons {top : String} (h : Settled absolute (top :: stack)) (htop : top ≠ "..") :
    Settled absolute stack := by
  refine ⟨fun element helement => h.stackable element (List.mem_cons_of_mem top helement), ?_⟩
  have hfold := h.foldl_push
  rw [List.reverse_cons, List.foldl_append, List.foldl_cons, List.foldl_nil,
    push_of_not_isIdle (h.stackable top List.mem_cons_self).isIdle_eq htop] at hfold
  exact (List.cons.inj hfold).2

theorem push (h : Settled absolute stack) {element : String} (hslash : '/' ∉ element.toList) :
    Settled absolute (push absolute stack element) := by
  have cons : ∀ element, Stackable element → Path.push absolute stack element = element :: stack →
      Settled absolute (element :: stack) := by
    intro element helement hpush
    refine ⟨?_, ?_⟩
    · simpa using ⟨helement, h.stackable⟩
    · rw [List.reverse_cons, List.foldl_append, h.foldl_push]
      exact hpush
  by_cases hempty : element = ""
  · rw [hempty]
    exact h
  by_cases hhere : element = "."
  · rw [hhere]
    exact h
  have helement : Stackable element := ⟨hempty, hhere, hslash⟩
  by_cases hup : element = ".."
  · subst hup
    cases stack with
    | nil =>
      cases absolute with
      | true => exact .nil true
      | false => exact cons ".." helement rfl
    | cons top below =>
      by_cases htop : top = ".."
      · subst htop
        exact cons ".." helement rfl
      · rw [push_above_cons absolute htop]
        exact h.of_cons htop
  · have hpush := push_of_not_isIdle helement.isIdle_eq hup absolute stack
    rw [hpush]
    exact cons element helement hpush

theorem foldl (h : Settled absolute stack) {elements : List String}
    (hslash : ∀ element ∈ elements, '/' ∉ element.toList) :
    Settled absolute (elements.foldl (Path.push absolute) stack) := by
  induction elements generalizing stack with
  | nil => exact h
  | cons element elements ih =>
    exact ih (h.push (hslash element List.mem_cons_self)) fun e he =>
      hslash e (List.mem_cons_of_mem element he)

end Settled

theorem settled_stack (path : Path) : Settled path.isAbsolute path.stack :=
  (Settled.nil path.isAbsolute).foldl fun _ h => noSlash_of_mem_elements h

/-! ## Clean paths -/

theorem elements_intercalate {elements : List String} (hne : elements ≠ [])
    (hslash : ∀ element ∈ elements, '/' ∉ element.toList) :
    Path.elements ("/".intercalate elements) = elements := by
  have hlist : ("/".intercalate elements).toList =
      ['/'].intercalate (elements.map String.toList) := by simp
  rw [elements_eq_splitOn, hlist, List.splitOn_intercalate '/' ?_ (by simpa using hne)]
  · simp [Function.comp_def]
  · simpa using hslash

theorem isAbsolute_append {a : Path} (ha : a ≠ "") (b : Path) :
    (a ++ b).isAbsolute = a.isAbsolute := by
  unfold isAbsolute
  cases hlist : a.toList with
  | nil => exact absurd (String.toList_eq_nil_iff.1 hlist) ha
  | cons c chars => simp [hlist]

theorem elements_of_isAbsolute {path : Path} (h : path.isAbsolute = true) : "" ∈ path.elements := by
  unfold isAbsolute at h
  rw [elements_eq_splitOn]
  cases hpath : path.toList with
  | nil => exact List.mem_singleton_self ""
  | cons c chars =>
    obtain rfl : c = '/' := by simpa [hpath] using h
    rw [List.splitOn_cons_eq_if_modifyHead]
    exact List.mem_cons_self

/-- The clean form of a relative path that leads somewhere. -/
theorem ofStack_false {stack : List String} (h : ∀ element ∈ stack, Stackable element)
    (hne : stack ≠ []) : ofStack false stack = "/".intercalate stack.reverse ∧
      (ofStack false stack).elements = stack.reverse := by
  have htext : Path.elements ("/".intercalate stack.reverse) = stack.reverse :=
    elements_intercalate (by simpa using hne) fun element helement =>
      (h element (List.mem_reverse.1 helement)).no_slash
  have hsome : ("/".intercalate stack.reverse).isEmpty = false := by
    refine Bool.eq_false_iff.2 fun hempty => ?_
    rw [String.isEmpty_iff.1 hempty, elements_of_noSlash (by decide)] at htext
    have hmem : "" ∈ stack := by
      rw [← List.mem_reverse, ← htext]
      exact List.mem_singleton_self ""
    exact (h "" hmem).ne_empty rfl
  have hclean : ofStack false stack = "/".intercalate stack.reverse := by
    unfold ofStack
    simp only [hsome, Bool.false_eq_true, if_false]
  exact ⟨hclean, hclean ▸ htext⟩

theorem elements_ofStack_true {stack : List String} (h : ∀ element ∈ stack, Stackable element)
    (hne : stack ≠ []) : (ofStack true stack).elements = "" :: stack.reverse := by
  obtain ⟨hclean, helements⟩ := ofStack_false h hne
  have hcut := elements_append_slash "" (ofStack false stack)
  rw [helements, hclean] at hcut
  exact hcut

/-- The elements of a clean path are those of its stack, behind some that go nowhere. -/
theorem elements_ofStack (absolute : Bool) {stack : List String}
    (h : ∀ element ∈ stack, Stackable element) :
    ∃ front, (∀ element ∈ front, isIdle element = true) ∧
      (ofStack absolute stack).elements = front ++ stack.reverse := by
  by_cases hnil : stack = []
  · subst hnil
    cases absolute with
    | true => exact ⟨["", ""], by decide, by decide +kernel⟩
    | false => exact ⟨["."], by decide, by decide +kernel⟩
  · cases absolute with
    | true => exact ⟨[""], by decide, elements_ofStack_true h hnil⟩
    | false => exact ⟨[], by simp, (ofStack_false h hnil).2⟩

theorem isAbsolute_ofStack (absolute : Bool) {stack : List String}
    (h : ∀ element ∈ stack, Stackable element) : (ofStack absolute stack).isAbsolute = absolute := by
  cases absolute with
  | true => simp [ofStack, isAbsolute]
  | false =>
    by_cases hnil : stack = []
    · subst hnil
      decide
    · refine Bool.eq_false_iff.2 fun habsolute => ?_
      have hmem := elements_of_isAbsolute habsolute
      rw [(ofStack_false h hnil).2, List.mem_reverse] at hmem
      exact (h "" hmem).ne_empty rfl

theorem ofStack_ne_empty (absolute : Bool) {stack : List String}
    (h : ∀ element ∈ stack, Stackable element) : ofStack absolute stack ≠ "" := by
  intro hempty
  have habsolute := isAbsolute_ofStack absolute h
  rw [hempty] at habsolute
  obtain rfl : false = absolute := habsolute
  by_cases hnil : stack = []
  · subst hnil
    exact absurd hempty (by decide)
  · have helements := (ofStack_false h hnil).2
    rw [hempty, elements_of_noSlash (by decide)] at helements
    have hmem : "" ∈ stack := by
      rw [← List.mem_reverse, ← helements]
      exact List.mem_singleton_self ""
    exact (h "" hmem).ne_empty rfl

theorem isAbsolute_clean (path : Path) : path.clean.isAbsolute = path.isAbsolute :=
  isAbsolute_ofStack _ (settled_stack path).stackable

theorem foldl_push_of_isIdle (absolute : Bool) {front : List String}
    (h : ∀ element ∈ front, isIdle element = true) (stack : List String) :
    front.foldl (push absolute) stack = stack := by
  induction front with
  | nil => rfl
  | cons element front ih =>
    rw [List.foldl_cons, push_of_isIdle (h element List.mem_cons_self)]
    exact ih fun e he => h e (List.mem_cons_of_mem element he)

theorem stack_clean (path : Path) : path.clean.stack = path.stack := by
  obtain ⟨front, hfront, helements⟩ :=
    elements_ofStack path.isAbsolute (settled_stack path).stackable
  rw [stack, isAbsolute_clean, clean_eq_ofStack, helements, List.foldl_append,
    foldl_push_of_isIdle _ hfront]
  exact (settled_stack path).foldl_push

theorem clean_eq_clean {a b : Path} :
    a.clean = b.clean ↔ a.isAbsolute = b.isAbsolute ∧ a.stack = b.stack := by
  constructor
  · intro h
    rw [← isAbsolute_clean a, ← stack_clean a, h, isAbsolute_clean, stack_clean]
    exact ⟨rfl, rfl⟩
  · rintro ⟨habsolute, hstack⟩
    rw [clean_eq_ofStack, habsolute, hstack, clean_eq_ofStack]

/-! ## The last element -/

theorem throughSlash_append_afterSlash (path : Path) :
    path.throughSlash ++ path.afterSlash = path := by
  apply String.toList_injective
  unfold throughSlash afterSlash
  rw [String.toList_append, String.toList_ofList, String.toList_ofList, ← List.reverse_append,
    List.takeWhile_append_dropWhile, List.reverse_reverse]

theorem noSlash_afterSlash (path : Path) : '/' ∉ path.afterSlash.toList := by
  unfold afterSlash
  rw [String.toList_ofList, List.mem_reverse]
  intro hmem
  exact absurd (List.mem_takeWhile_imp hmem) (by decide)

theorem throughSlash_cases (path : Path) :
    path.throughSlash = "" ∨ ∃ before, path.throughSlash = before ++ "/" := by
  unfold throughSlash
  cases hdrop : path.toList.reverse.dropWhile (· != '/') with
  | nil => exact Or.inl rfl
  | cons c before =>
    obtain rfl : c = '/' := by
      have hhead := List.head?_dropWhile_not (· != '/') path.toList.reverse
      rw [hdrop] at hhead
      simpa using hhead
    refine Or.inr ⟨String.ofList before.reverse, ?_⟩
    apply String.toList_injective
    simp

/-- The last element of a path is what stands after its last slash. -/
theorem elements_eq_concat (path : Path) :
    (path.throughSlash = "" ∧ path.elements = [path.afterSlash]) ∨
      ∃ before : Path, path.throughSlash = before ++ "/" ∧
        path.elements = before.elements ++ [path.afterSlash] := by
  have hpath := path.throughSlash_append_afterSlash
  have hlast := elements_of_noSlash path.noSlash_afterSlash
  rcases path.throughSlash_cases with hnone | ⟨before, hsome⟩
  · refine Or.inl ⟨hnone, ?_⟩
    rw [hnone, String.empty_append] at hpath
    rw [← hlast, hpath]
  · refine Or.inr ⟨before, hsome, ?_⟩
    rw [← hlast, ← elements_append_slash, ← hsome, hpath]

theorem exists_elements_eq (path : Path) : ∃ front, path.elements = front ++ [path.afterSlash] := by
  rcases path.elements_eq_concat with ⟨-, hone⟩ | ⟨before, -, hmore⟩
  · exact ⟨[], hone⟩
  · exact ⟨before.elements, hmore⟩

theorem afterSlash_mem_elements (path : Path) : path.afterSlash ∈ path.elements := by
  obtain ⟨front, hfront⟩ := path.exists_elements_eq
  simp [hfront]

theorem afterSlash_of_elements {path : Path} {elements : List String} {last : String}
    (h : path.elements = elements ++ [last]) : path.afterSlash = last := by
  obtain ⟨front, hfront⟩ := path.exists_elements_eq
  rw [hfront] at h
  exact List.singleton_inj.1 (List.append_inj' h rfl).2

theorem extension_afterSlash (path : Path) : Path.extension path.afterSlash = path.extension := by
  unfold extension afterSlash
  rw [String.toList_ofList, List.reverse_reverse, List.takeWhile_idem]

/-! ## Names -/

/-- A text that can stand for an entry of a directory. -/
structure IsName (name : String) : Prop extends Stackable name where
  ne_above : name ≠ ".."

namespace IsName

variable {name : String}

theorem of_isIdle_eq (hidle : isIdle name = false) (hslash : '/' ∉ name.toList)
    (habove : name ≠ "..") : IsName name := by
  simp only [isIdle, Bool.or_eq_false_iff, beq_eq_false_iff_ne] at hidle
  exact ⟨⟨fun h => absurd hidle.1 (by simp [h]), hidle.2, hslash⟩, habove⟩

instance : Decidable (IsName name) :=
  decidable_of_iff (isIdle name = false ∧ '/' ∉ name.toList ∧ name ≠ "..")
    ⟨fun h => of_isIdle_eq h.1 h.2.1 h.2.2, fun h => ⟨h.isIdle_eq, h.no_slash, h.ne_above⟩⟩

theorem elements_eq (h : IsName name) : Path.elements name = [name] :=
  elements_of_noSlash h.no_slash

/-- The directory of a path that ends in a name, as a stack. -/
theorem stack_throughSlash {path : Path} (h : IsName path.afterSlash) :
    Path.isAbsolute path.throughSlash = path.isAbsolute ∧
      path.stack = path.afterSlash :: Path.stack path.throughSlash := by
  have hpath := path.throughSlash_append_afterSlash
  have hpush : ∀ stack, push path.isAbsolute stack path.afterSlash = path.afterSlash :: stack :=
    push_of_not_isIdle h.isIdle_eq h.ne_above path.isAbsolute
  rcases path.elements_eq_concat with ⟨hnone, hone⟩ | ⟨before, hsome, hmore⟩
  · have habsolute : path.isAbsolute = false := by
      refine Bool.eq_false_iff.2 fun htrue => h.ne_empty ?_
      have hmem := elements_of_isAbsolute htrue
      rw [hone, List.mem_singleton] at hmem
      exact hmem.symm
    rw [hnone]
    refine ⟨habsolute.symm, ?_⟩
    have hstart : Path.stack "" = [] := by decide +kernel
    rw [stack, hone, hstart, List.foldl_cons, hpush, List.foldl_nil]
  · have habsolute : Path.isAbsolute path.throughSlash = path.isAbsolute := by
      have hne : path.throughSlash ≠ "" := by simp [hsome]
      rw [← isAbsolute_append hne path.afterSlash, hpath]
    refine ⟨habsolute, ?_⟩
    have hfront : Path.elements path.throughSlash = before.elements ++ [""] := by
      have hcut := elements_append_slash before ""
      rwa [String.append_empty, ← hsome] at hcut
    have hidle : isIdle "" = true := by decide
    rw [stack, stack, habsolute, hmore, hfront, List.foldl_append, List.foldl_append, List.foldl_cons,
      hpush, List.foldl_cons, push_of_isIdle hidle, List.foldl_nil, List.foldl_nil]

theorem stack_append (h : IsName name) {directory : Path} (hne : directory ≠ "") :
    (directory ++ "/" ++ name).isAbsolute = directory.isAbsolute ∧
      (directory ++ "/" ++ name).stack = name :: directory.stack := by
  have habsolute : (directory ++ "/" ++ name).isAbsolute = directory.isAbsolute := by
    rw [String.append_assoc, isAbsolute_append hne]
  refine ⟨habsolute, ?_⟩
  rw [stack, habsolute, elements_append_slash, h.elements_eq, List.foldl_append]
  exact push_of_not_isIdle h.isIdle_eq h.ne_above _ _

theorem join_eq (h : IsName name) {directory : Path} (hne : directory ≠ "") :
    directory.join name = (directory ++ "/" ++ name).clean := by
  unfold join
  rw [if_neg (by simpa using hne), if_neg (by simpa using h.ne_empty)]

theorem join_ne_empty (h : IsName name) {directory : Path} (hne : directory ≠ "") :
    directory.join name ≠ "" := by
  rw [h.join_eq hne]
  exact ofStack_ne_empty _ (settled_stack _).stackable

theorem base_eq {path : Path} (h : IsName path.afterSlash) : path.base = path.afterSlash := by
  have hpath := path.throughSlash_append_afterSlash
  have hne : path ≠ "" := by
    rintro rfl
    exact h.ne_empty rfl
  -- a path that ends in a name does not end in slashes
  have htrimmed : path.toList.reverse.dropWhile (· == '/') = path.toList.reverse := by
    rw [← hpath, String.toList_append, List.reverse_append]
    cases hlast : path.afterSlash.toList.reverse with
    | nil => exact absurd (String.toList_eq_nil_iff.1 (List.reverse_eq_nil_iff.1 hlast)) h.ne_empty
    | cons c chars =>
      have hmem : c ∈ path.afterSlash.toList := List.mem_reverse.1 (hlast ▸ List.mem_cons_self)
      have hc : c ≠ '/' := fun heq => h.no_slash (heq ▸ hmem)
      exact List.dropWhile_cons_of_neg (by simpa using hc)
  unfold base
  rw [if_neg (by simpa using hne)]
  simp only [htrimmed, List.reverse_reverse, String.ofList_toList]
  rw [if_neg (by simpa using hne)]

theorem afterSlash_join (h : IsName name) {directory : Path} (hne : directory ≠ "") :
    (directory.join name).afterSlash = name := by
  obtain ⟨habsolute, hstack⟩ := h.stack_append hne
  obtain ⟨front, -, helements⟩ := elements_ofStack (directory ++ "/" ++ name).isAbsolute
    (settled_stack (directory ++ "/" ++ name)).stackable
  rw [hstack, List.reverse_cons, ← List.append_assoc] at helements
  rw [h.join_eq hne, clean_eq_ofStack]
  exact afterSlash_of_elements (hstack ▸ helements)

end IsName

end ShaderCost.Path
