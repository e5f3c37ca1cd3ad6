import Mathlib.Data.List.Induction
import ShaderCost.Files.Disk
import ShaderCost.Proofs.Files.Paths

/-! # Looking paths up on a disk

A lookup takes the elements of a path one by one. An element goes nowhere, up or down, and a step down
can be undone by a step up, so a path leads to the same place as its clean form (`find_clean`).

A path made up of one that leads to a directory and of a name in it leads to the entry of that name
(`find_join`), and every path to a file is of this kind (`find_parent`).
-/

namespace ShaderCost

open Path (isIdle)

namespace Disk

/-! ## Steps -/

namespace Place

variable {place next : Place} {element : String}

theorem step_of_isIdle {entries : List (String × Entry)} (hentry : place.entry = .directory entries)
    (h : isIdle element = true) : place.step element = .ok place := by
  unfold isIdle at h
  unfold step
  rw [hentry]
  simp only [if_pos h]

theorem step_up_top {entries : List (String × Entry)} (hentry : place.entry = .directory entries)
    (h : place.above = []) : place.step ".." = .ok place := by
  unfold step
  rw [hentry, h]
  rfl

theorem step_up {entries : List (String × Entry)} {name : String} {entry : Entry}
    {above : List (String × Entry)} (hentry : place.entry = .directory entries)
    (h : place.above = (name, entry) :: above) : place.step ".." = .ok { entry, name, above } := by
  unfold step
  rw [hentry, h]
  rfl

/-- The place of an entry of a directory. -/
def below (place : Place) (name : String) (entry : Entry) : Place :=
  { entry, name, above := (place.name, place.entry) :: place.above }

theorem step_down {entries : List (String × Entry)} {entry : Entry}
    (hentry : place.entry = .directory entries) (h : isIdle element = false) (hup : element ≠ "..")
    (hlookup : entries.lookup element = some entry) :
    place.step element = .ok (place.below element entry) := by
  unfold isIdle at h
  have hup' : (element == "..") = false := by simpa using hup
  unfold step
  rw [hentry]
  simp only [h, hup', hlookup, Bool.false_eq_true, if_false]
  rw [below, hentry]

/-- All that a step can do. -/
theorem step_cases (h : place.step element = .ok next) :
    ∃ entries, place.entry = .directory entries ∧
      ((isIdle element = true ∧ next = place) ∨
        (element = ".." ∧ place.above = [] ∧ next = place) ∨
        (∃ name entry above, element = ".." ∧ place.above = (name, entry) :: above ∧
          next = { entry, name, above }) ∨
        ∃ entry, isIdle element = false ∧ element ≠ ".." ∧ entries.lookup element = some entry ∧
          next = place.below element entry) := by
  cases hentry : place.entry with
  | file content =>
    unfold step at h
    rw [hentry] at h
    cases h
  | directory entries =>
    refine ⟨entries, rfl, ?_⟩
    cases hidle : isIdle element with
    | true =>
      rw [step_of_isIdle hentry hidle] at h
      cases h
      exact Or.inl ⟨rfl, rfl⟩
    | false =>
      by_cases hup : element = ".."
      · subst hup
        cases habove : place.above with
        | nil =>
          rw [step_up_top hentry habove] at h
          cases h
          exact Or.inr (Or.inl ⟨rfl, rfl, rfl⟩)
        | cons top above =>
          rw [step_up hentry habove] at h
          cases h
          exact Or.inr (Or.inr (Or.inl ⟨_, _, _, rfl, rfl, rfl⟩))
      · cases hlookup : entries.lookup element with
        | none =>
          unfold isIdle at hidle
          have hup' : (element == "..") = false := by simpa using hup
          unfold step at h
          rw [hentry] at h
          simp only [hidle, hup', hlookup, Bool.false_eq_true, if_false] at h
          cases h
        | some entry =>
          rw [step_down hentry hidle hup hlookup] at h
          cases h
          exact Or.inr (Or.inr (Or.inr ⟨entry, rfl, hup, rfl, rfl⟩))

theorem step_isDirectory (h : place.step element = .ok next) :
    ∃ entries, place.entry = .directory entries := by
  obtain ⟨entries, hentry, -⟩ := step_cases h
  exact ⟨entries, hentry⟩

end Place

/-! ## Clean paths -/

/-- Several steps, one after another. -/
abbrev walk (place : Place) (elements : List String) : Except FileError Place :=
  elements.foldlM Place.step place

theorem walk_cons_ok {place last : Place} {element : String} {elements : List String} :
    walk place (element :: elements) = .ok last ↔
      ∃ next, place.step element = .ok next ∧ walk next elements = .ok last := by
  unfold walk
  rw [List.foldlM_cons]
  cases place.step element with
  | error e => simp [bind, Except.bind]
  | ok next => simp [bind, Except.bind]

theorem walk_append_ok {place last : Place} {front back : List String} :
    walk place (front ++ back) = .ok last ↔
      ∃ next, walk place front = .ok next ∧ walk next back = .ok last := by
  unfold walk
  rw [List.foldlM_append]
  cases front.foldlM Place.step place with
  | error e => simp [bind, Except.bind]
  | ok next => simp [bind, Except.bind]

theorem walk_singleton (place : Place) (element : String) :
    walk place [element] = place.step element := by
  unfold walk
  simp

theorem walk_of_isIdle {place : Place} {entries : List (String × Entry)} {front : List String}
    (hentry : place.entry = .directory entries) (h : ∀ element ∈ front, isIdle element = true) :
    walk place front = .ok place := by
  induction front with
  | nil => rfl
  | cons element front ih =>
    refine walk_cons_ok.2 ⟨place, Place.step_of_isIdle hentry (h element List.mem_cons_self), ?_⟩
    exact ih fun e he => h e (List.mem_cons_of_mem element he)

/-- One element more goes where the stack with it leads. -/
theorem walk_push {absolute : Bool} {place mid last : Place} {stack : List String} {element : String}
    (habsolute : absolute = true → place.above = []) (hsettled : Path.Settled absolute stack)
    (h : walk place stack.reverse = .ok mid) (hstep : mid.step element = .ok last) :
    walk place (Path.push absolute stack element).reverse = .ok last := by
  have further : ∀ {element}, mid.step element = .ok last →
      walk place (element :: stack).reverse = .ok last := by
    intro element hstep
    rw [List.reverse_cons]
    exact walk_append_ok.2 ⟨mid, h, (walk_singleton mid element).trans hstep⟩
  obtain ⟨entries, hentry⟩ := Place.step_isDirectory hstep
  by_cases hup : element = ".."
  · subst hup
    cases stack with
    | nil =>
      obtain rfl : place = mid := Except.ok.inj h
      cases absolute with
      | true =>
        rw [Place.step_up_top hentry (habsolute rfl)] at hstep
        exact hstep
      | false => exact further hstep
    | cons top below =>
      by_cases htop : top = ".."
      · subst htop
        exact further hstep
      · -- the step up takes back the step down before it
        rw [Path.push_above_cons absolute htop]
        rw [List.reverse_cons] at h
        obtain ⟨before, hbefore, hdown⟩ := walk_append_ok.1 h
        rw [walk_singleton] at hdown
        have hstackable := hsettled.stackable top List.mem_cons_self
        obtain ⟨-, -, ⟨hidle, -⟩ | ⟨heq, -⟩ | ⟨-, -, -, heq, -⟩ | ⟨entry, -, -, -, rfl⟩⟩ :=
          Place.step_cases hdown
        · exact absurd hidle (by simp [hstackable.isIdle_eq])
        · exact absurd heq htop
        · exact absurd heq htop
        · rw [Place.step_up hentry rfl] at hstep
          exact hbefore.trans hstep
  · cases hidle : isIdle element with
    | true =>
      rw [Place.step_of_isIdle hentry hidle] at hstep
      rw [Path.push_of_isIdle hidle]
      exact h.trans hstep
    | false =>
      rw [Path.push_of_not_isIdle hidle hup]
      exact further hstep

/-- What cleaning drops makes no difference to where elements lead. -/
theorem walk_stack {absolute : Bool} {place last : Place} {elements : List String}
    (habsolute : absolute = true → place.above = [])
    (hslash : ∀ element ∈ elements, '/' ∉ element.toList)
    (h : walk place elements = .ok last) :
    walk place (elements.foldl (Path.push absolute) []).reverse = .ok last := by
  induction elements using List.reverseRecOn generalizing last with
  | nil => exact h
  | append_singleton elements element ih =>
    obtain ⟨mid, hmid, hstep⟩ := walk_append_ok.1 h
    rw [walk_singleton] at hstep
    have hfront : ∀ e ∈ elements, '/' ∉ e.toList := fun e he =>
      hslash e (List.mem_append_left _ he)
    have hstack := ih hfront hmid
    have hsettled := (Path.Settled.nil absolute).foldl hfront
    rw [List.foldl_append, List.foldl_cons, List.foldl_nil]
    generalize elements.foldl (Path.push absolute) [] = stack at hstack hsettled
    exact walk_push habsolute hsettled hstack hstep

variable {disk : Disk} {path : Path} {place : Place}

theorem find_eq_ok : disk.find path = .ok place ↔
    path ≠ "" ∧ ∃ first, disk.start path = .ok first ∧ walk first path.elements = .ok place := by
  unfold find
  by_cases hempty : path = ""
  · subst hempty
    simp
  · rw [if_neg (by simpa using hempty)]
    cases disk.start path with
    | error e => simp [bind, Except.bind]
    | ok first => simp [bind, Except.bind, hempty]

theorem stat_eq_ok {entry : Entry} :
    disk.stat path = .ok entry ↔ ∃ place, disk.find path = .ok place ∧ place.entry = entry := by
  unfold stat
  cases disk.find path with
  | error error => simp
  | ok place => simp

theorem start_congr {other : Path} (h : other.isAbsolute = path.isAbsolute) :
    disk.start other = disk.start path := by
  unfold start
  rw [h]

theorem start_above {first : Place} (h : disk.start path = .ok first)
    (habsolute : path.isAbsolute = true) : first.above = [] := by
  unfold start at h
  simp only [habsolute, if_true] at h
  cases h
  rfl

/-- A clean path leads where its stack leads. -/
theorem find_ofStack {first : Place} {stack : List String} {entries : List (String × Entry)}
    (hfirst : disk.start path = .ok first) (hentry : first.entry = .directory entries)
    (hstack : ∀ element ∈ stack, Path.Stackable element)
    (hwalk : walk first stack.reverse = .ok place) :
    disk.find (Path.ofStack path.isAbsolute stack) = .ok place := by
  obtain ⟨front, hfront, helements⟩ := Path.elements_ofStack path.isAbsolute hstack
  refine find_eq_ok.2 ⟨Path.ofStack_ne_empty _ hstack, first, ?_, ?_⟩
  · rw [start_congr (Path.isAbsolute_ofStack _ hstack), hfirst]
  · rw [helements]
    exact walk_append_ok.2 ⟨first, walk_of_isIdle hentry hfront, hwalk⟩

theorem walk_isDirectory {first : Place} {elements : List String}
    (h : walk first elements = .ok place) (hne : elements ≠ []) :
    ∃ entries, first.entry = .directory entries := by
  cases elements with
  | nil => exact absurd rfl hne
  | cons element elements =>
    obtain ⟨next, hstep, -⟩ := walk_cons_ok.1 h
    exact Place.step_isDirectory hstep

/-- A path leads to the same place as its clean form. -/
theorem find_clean (h : disk.find path = .ok place) : disk.find path.clean = .ok place := by
  obtain ⟨-, first, hfirst, hwalk⟩ := find_eq_ok.1 h
  obtain ⟨entries, hentry⟩ := walk_isDirectory hwalk path.elements_ne_nil
  refine find_ofStack hfirst hentry path.settled_stack.stackable ?_
  exact walk_stack (start_above hfirst) (fun _ he => Path.noSlash_of_mem_elements he) hwalk

theorem find_join {name : String} {entry : Entry} {entries : List (String × Entry)}
    (h : disk.find path = .ok place) (hentry : place.entry = .directory entries)
    (hname : Path.IsName name) (hlookup : entries.lookup name = some entry) :
    disk.find (path.join name) = .ok (place.below name entry) := by
  obtain ⟨hne, first, hfirst, hwalk⟩ := find_eq_ok.1 h
  rw [hname.join_eq hne]
  refine find_clean (find_eq_ok.2 ⟨by simp, first, ?_, ?_⟩)
  · rw [start_congr (hname.stack_append hne).1, hfirst]
  · rw [Path.elements_append_slash, hname.elements_eq]
    refine walk_append_ok.2 ⟨place, hwalk, ?_⟩
    rw [walk_singleton]
    exact Place.step_down hentry hname.isIdle_eq hname.ne_above hlookup

/-! ## What is at a place -/

/-- The entry at a place and the directories above it meet a condition. -/
structure Place.All (P : Entry → Prop) (place : Place) : Prop where
  entry : P place.entry
  above : ∀ level ∈ place.above, P level.2 ∧ ∃ entries, level.2 = .directory entries

namespace Place.All

variable {P : Entry → Prop} {next : Place} {element : String}

theorem step (hP : ∀ {entries name entry}, P (.directory entries) → entries.lookup name = some entry →
    P entry) (h : place.All P) (hstep : place.step element = .ok next) : next.All P := by
  obtain ⟨entries, hentry, ⟨-, rfl⟩ | ⟨-, -, rfl⟩ | ⟨name, entry, above, -, habove, rfl⟩ |
    ⟨entry, -, -, hlookup, rfl⟩⟩ := step_cases hstep
  · exact h
  · exact h
  · have hlevels := h.above
    rw [habove] at hlevels
    exact ⟨(hlevels _ List.mem_cons_self).1, fun level hlevel =>
      hlevels level (List.mem_cons_of_mem _ hlevel)⟩
  · refine ⟨hP (hentry ▸ h.entry) hlookup, fun level hlevel => ?_⟩
    rcases List.mem_cons.1 hlevel with rfl | hlevel
    · exact ⟨h.entry, entries, hentry⟩
    · exact h.above level hlevel

theorem walk (hP : ∀ {entries name entry}, P (.directory entries) → entries.lookup name = some entry →
    P entry) (h : place.All P) {elements : List String} (hwalk : walk place elements = .ok next) :
    next.All P := by
  induction elements generalizing place with
  | nil =>
    cases hwalk
    exact h
  | cons element elements ih =>
    obtain ⟨mid, hstep, hrest⟩ := walk_cons_ok.1 hwalk
    exact ih (h.step hP hstep) hrest

end Place.All

theorem start_all {P : Entry → Prop} {first : Place} (hroot : P disk.root)
    (hP : ∀ {entries name entry}, P (.directory entries) → entries.lookup name = some entry → P entry)
    (h : disk.start path = .ok first) : first.All P := by
  have htop : Place.All P { entry := disk.root, name := "", above := [] } :=
    ⟨hroot, fun _ hlevel => absurd hlevel List.not_mem_nil⟩
  unfold start at h
  simp only at h
  split at h
  · cases h
    exact htop
  · exact htop.walk hP h

/-- What holds of the root and is handed down by directories holds wherever a path leads. -/
theorem find_all {P : Entry → Prop} (hroot : P disk.root)
    (hP : ∀ {entries name entry}, P (.directory entries) → entries.lookup name = some entry → P entry)
    (h : disk.find path = .ok place) : place.All P := by
  obtain ⟨-, first, hfirst, hwalk⟩ := find_eq_ok.1 h
  exact (start_all hroot hP hfirst).walk hP hwalk

/-- A step to a file goes down. -/
theorem Place.All.step_file {P : Entry → Prop} {next : Place} {element : String} {content : Bytes}
    (h : place.All P) (hstep : place.step element = .ok next) (hfile : next.entry = .file content) :
    isIdle element = false ∧ element ≠ ".." ∧ ∃ entries, place.entry = .directory entries ∧
      entries.lookup element = some (.file content) := by
  obtain ⟨entries, hentry, ⟨-, rfl⟩ | ⟨-, -, rfl⟩ | ⟨name, entry, above, -, habove, rfl⟩ |
    ⟨entry, hidle, hup, hlookup, rfl⟩⟩ := Place.step_cases hstep
  · cases hentry.symm.trans hfile
  · cases hentry.symm.trans hfile
  · obtain ⟨-, entries, hlevel⟩ := h.above (name, entry) (habove ▸ List.mem_cons_self)
    cases hlevel.symm.trans hfile
  · exact ⟨hidle, hup, entries, hentry, hlookup.trans (congrArg some hfile)⟩

/-- A file is an entry of its directory. -/
theorem find_parent {content : Bytes} (h : disk.find path = .ok place)
    (hfile : place.entry = .file content) :
    Path.IsName path.afterSlash ∧ ∃ directory entries, disk.find path.parent = .ok directory ∧
      directory.entry = .directory entries ∧
      entries.lookup path.afterSlash = some (.file content) := by
  obtain ⟨-, first, hfirst, hwalk⟩ := find_eq_ok.1 h
  have hall : first.All fun _ => True := start_all trivial (fun _ _ => trivial) hfirst
  obtain ⟨topEntries, htop⟩ := walk_isDirectory hwalk path.elements_ne_nil
  have hname : Path.IsName path.afterSlash := by
    obtain ⟨front, hfront⟩ := path.exists_elements_eq
    rw [hfront] at hwalk
    obtain ⟨mid, hmid, hstep⟩ := walk_append_ok.1 hwalk
    rw [walk_singleton] at hstep
    obtain ⟨hidle, hup, -⟩ := (hall.walk (fun _ _ => trivial) hmid).step_file hstep hfile
    exact .of_isIdle_eq hidle path.noSlash_afterSlash hup
  refine ⟨hname, ?_⟩
  obtain ⟨habsolute, hstack⟩ := hname.stack_throughSlash
  have hsettled := path.settled_stack.stackable
  have hwalk : walk first path.stack.reverse = .ok place :=
    walk_stack (start_above hfirst) (fun _ he => Path.noSlash_of_mem_elements he) hwalk
  rw [hstack, List.reverse_cons] at hwalk
  obtain ⟨directory, hdirectory, hstep⟩ := walk_append_ok.1 hwalk
  rw [walk_singleton] at hstep
  obtain ⟨-, -, entries, hentries, hlookup⟩ :=
    (hall.walk (fun _ _ => trivial) hdirectory).step_file hstep hfile
  refine ⟨directory, entries, ?_, hentries, hlookup⟩
  rw [Path.parent, Path.clean_eq_ofStack, habsolute]
  exact find_ofStack hfirst htop (Path.settled_stack path.throughSlash).stackable hdirectory

end Disk

end ShaderCost
