import ShaderCost.Proofs.Files.Lookup

/-! # Files that were written

A place is reached by some names from the root, and these names say what is there (`Place.At`). The
names that elements lead to do not depend on the disk, as long as the directories on the way are there
(`Alike`). A file can be written without losing any, so the path it was written to leads to it
(`read_write`).
-/

namespace ShaderCost

open Path (isIdle)

/-! ## Trees by names -/

namespace Entry

/-- The entries of a directory; a file has none. -/
def entries : Entry → List (String × Entry)
  | directory entries => entries
  | file _ => []

def child? (entry : Entry) (name : String) : Option Entry := entry.entries.lookup name

/-- The entry that names lead to. -/
def at? (entry : Entry) (names : List String) : Option Entry := names.foldlM child? entry

theorem at?_cons (entry : Entry) (name : String) (names : List String) :
    entry.at? (name :: names) = (entry.child? name).bind (at? · names) := rfl

theorem at?_concat (entry : Entry) (names : List String) (name : String) :
    entry.at? (names ++ [name]) = (entry.at? names).bind (child? · name) := by
  unfold at?
  rw [List.foldlM_append]
  cases names.foldlM child? entry with
  | none => rfl
  | some found => simp

theorem lookup_insertNamed (name other : String) (entry : Entry) (entries : List (String × Entry)) :
    (insertNamed name entry entries).lookup other =
      if other = name then some entry else entries.lookup other := by
  have past : ∀ {name : String} (entry : Entry) (rest : List (String × Entry)), other ≠ name →
      ((name, entry) :: rest).lookup other = rest.lookup other := by
    intro name entry rest hne
    rw [List.lookup_cons, beq_false_of_ne hne]
  induction entries with
  | nil =>
    unfold insertNamed
    split
    · next h => rw [h, List.lookup_cons_self]
    · next h => rw [past _ _ h]
  | cons first rest ih =>
    obtain ⟨first, old⟩ := first
    unfold insertNamed
    split
    · next heq =>
      obtain rfl : name = first := eq_of_beq heq
      split
      · next h => rw [h, List.lookup_cons_self]
      · next h => rw [past _ _ h, past _ _ h]
    · next hne =>
      split
      · split
        · next h => rw [h, List.lookup_cons_self]
        · next h => rw [past _ _ h]
      · by_cases hfirst : other = first
        · have hname : other ≠ name := fun h => hne (beq_iff_eq.2 (h.symm.trans hfirst))
          rw [if_neg hname, hfirst, List.lookup_cons_self, List.lookup_cons_self]
        · rw [past _ _ hfirst, past _ _ hfirst, ih]

theorem put_cons (entry : Entry) (name : String) (names : List String) (here : Entry) :
    put entry (name :: names) here = directory (insertNamed name
      (put entry names ((here.child? name).getD (directory []))) here.entries) := by
  cases here <;> rfl

theorem child?_put_cons (entry : Entry) (name other : String) (names : List String) (here : Entry) :
    (put entry (name :: names) here).child? other =
      if other = name then some (put entry names ((here.child? name).getD (directory [])))
      else here.child? other := by
  rw [put_cons]
  exact lookup_insertNamed name other _ here.entries

/-- What is put somewhere is there. -/
theorem at?_put_self (names : List String) (here entry : Entry) :
    (put entry names here).at? names = some entry := by
  induction names generalizing here with
  | nil => rfl
  | cons name names ih =>
    rw [at?_cons, child?_put_cons, if_pos rfl]
    exact ih _

/-- A directory stays one, unless something is put in its place. -/
theorem at?_put_directory {names : List String} {here entry : Entry} {target : List String}
    (htarget : ∀ entries, here.at? target ≠ some (.directory entries))
    {entries : List (String × Entry)} (h : here.at? names = some (.directory entries)) :
    ∃ entries', (put entry target here).at? names = some (.directory entries') := by
  induction target generalizing names here with
  | nil =>
    -- nothing leads through a file
    cases here with
    | directory entries' => exact absurd rfl (htarget entries')
    | file content =>
      cases names with
      | nil => cases h
      | cons name names => cases h
  | cons first target ih =>
    cases names with
    | nil => exact ⟨_, congrArg some (put_cons entry first target here)⟩
    | cons name names =>
      rw [at?_cons] at h ⊢
      obtain ⟨below, hbelow, h⟩ := Option.bind_eq_some_iff.1 h
      rw [child?_put_cons]
      by_cases hname : name = first
      · subst hname
        rw [if_pos rfl, hbelow, Option.getD_some]
        refine ih (fun entries hentries => htarget entries ?_) h
        rw [at?_cons, hbelow]
        exact hentries
      · rw [if_neg hname, hbelow]
        exact ⟨entries, h⟩

/-- A new directory changes nothing for files. -/
theorem at?_put_new {names : List String} {here : Entry} {entries : List (String × Entry)}
    (hparent : here.at? names = some (.directory entries)) {last : String}
    (hnew : entries.lookup last = none) (path : List String) (content : Bytes) :
    (put (.directory []) (names ++ [last]) here).at? path = some (.file content) ↔
      here.at? path = some (.file content) := by
  induction names generalizing here path with
  | nil =>
    cases hparent
    cases path with
    | nil => constructor <;> rintro ⟨⟩
    | cons name path =>
      rw [List.nil_append, at?_cons, at?_cons, child?_put_cons]
      split
      · next hname =>
        have hnone : (directory entries).child? name = none := hname ▸ hnew
        rw [hnone, Option.bind_some, Option.bind_none]
        cases path with
        | nil => constructor <;> rintro ⟨⟩
        | cons name path => constructor <;> rintro ⟨⟩
      · rfl
  | cons first names ih =>
    rw [at?_cons] at hparent
    obtain ⟨below, hbelow, hparent⟩ := Option.bind_eq_some_iff.1 hparent
    cases path with
    | nil =>
      constructor
      · rintro ⟨⟩
      · rintro ⟨⟩
        cases hbelow
    | cons name path =>
      rw [List.cons_append, at?_cons, at?_cons, child?_put_cons]
      split
      · next hname =>
        rw [hname, hbelow, Option.getD_some, Option.bind_some, Option.bind_some]
        exact ih hparent path
      · rfl

end Entry

namespace Disk

/-! ## Places by names -/

theorem Place.names_below (place : Place) (name : String) (entry : Entry) :
    (place.below name entry).names = place.names ++ [name] := by
  unfold names below
  rw [List.map_cons, List.reverse_cons, List.reverse_cons, List.drop_append_of_le_length]
  simp

/-- A place that is reached from a root. -/
inductive Place.At (root : Entry) : Place → Prop where
  | top : At root { entry := root, name := "", above := [] }
  | into {place : Place} {entries : List (String × Entry)} {name : String} {entry : Entry}
      (h : At root place) (hentry : place.entry = .directory entries)
      (hlookup : entries.lookup name = some entry) : At root (place.below name entry)

namespace Place.At

variable {root root' : Entry} {place place' next : Place} {element : String}

theorem at?_names (h : At root place) : root.at? place.names = some place.entry := by
  induction h with
  | top => rfl
  | into h hentry hlookup ih =>
    rw [names_below, Entry.at?_concat, ih, hentry]
    exact hlookup

theorem names_ne_nil {name : String} {entry : Entry} : (place.below name entry).names ≠ [] := by
  rw [names_below]
  simp

theorem step (h : At root place) (hstep : place.step element = .ok next) : At root next := by
  obtain ⟨entries, hentry, ⟨-, rfl⟩ | ⟨-, -, rfl⟩ | ⟨name, entry, above, -, habove, rfl⟩ |
    ⟨entry, -, -, hlookup, rfl⟩⟩ := step_cases hstep
  · exact h
  · exact h
  · cases h with
    | top => cases habove
    | into h _ _ =>
      cases habove
      exact h
  · exact .into h hentry hlookup

theorem walk (h : At root place) {elements : List String} (hwalk : walk place elements = .ok next) :
    At root next := by
  induction elements generalizing place with
  | nil =>
    cases hwalk
    exact h
  | cons element elements ih =>
    obtain ⟨mid, hstep, hrest⟩ := walk_cons_ok.1 hwalk
    exact ih (h.step hstep) hrest

end Place.At

theorem start_at {disk : Disk} {path : Path} {first : Place} (h : disk.start path = .ok first) :
    first.At disk.root := by
  unfold start at h
  simp only at h
  split at h
  · cases h
    exact .top
  · exact Place.At.top.walk h

section Alike

variable {root root' : Entry} {place place' last : Place}

theorem walk_from_directory {elements : List String} (h : walk place elements = .ok last)
    {entries : List (String × Entry)} (hlast : last.entry = .directory entries) :
    ∃ entries, place.entry = .directory entries := by
  by_cases hnil : elements = []
  · subst hnil
    cases h
    exact ⟨entries, hlast⟩
  · exact walk_isDirectory h hnil

/-- There is a directory in the second tree wherever there is one in the first. -/
def KeepsDirectories (root root' : Entry) : Prop :=
  ∀ {names entries}, root.at? names = some (.directory entries) →
    ∃ entries', root'.at? names = some (.directory entries')

/-- The places have the same names in two trees. -/
structure Alike (root root' : Entry) (place place' : Place) : Prop where
  left : place.At root
  right : place'.At root'
  names_eq : place.names = place'.names

namespace Alike

theorem isDirectory (hkept : KeepsDirectories root root') (h : Alike root root' place place')
    {entries : List (String × Entry)} (hentry : place.entry = .directory entries) :
    ∃ entries', place'.entry = .directory entries' := by
  obtain ⟨entries', hentries'⟩ := hkept (hentry ▸ h.left.at?_names)
  rw [h.names_eq, h.right.at?_names] at hentries'
  exact ⟨entries', Option.some.inj hentries'⟩

/-- A step to a directory leads to the same names in both trees. -/
theorem step (hkept : KeepsDirectories root root') (h : Alike root root' place place')
    {element : String} (hstep : place.step element = .ok last) {entries : List (String × Entry)}
    (hlast : last.entry = .directory entries) :
    ∃ last', place'.step element = .ok last' ∧ Alike root root' last last' := by
  obtain ⟨here, hentry, hcases⟩ := Place.step_cases hstep
  obtain ⟨here', hentry'⟩ := h.isDirectory hkept hentry
  obtain ⟨h, h', hnames⟩ := h
  obtain ⟨hidle, rfl⟩ | ⟨rfl, habove, rfl⟩ | ⟨name, entry, above, rfl, habove, rfl⟩ |
    ⟨entry, hidle, hup, hlookup, rfl⟩ := hcases
  · exact ⟨place', Place.step_of_isIdle hentry' hidle, h, h', hnames⟩
  · refine ⟨place', Place.step_up_top hentry' ?_, h, h', hnames⟩
    cases h with
    | into _ _ _ => cases habove
    | top =>
      cases h' with
      | top => rfl
      | into _ _ _ => exact absurd hnames.symm Place.At.names_ne_nil
  · cases h with
    | top => cases habove
    | @into parent _ _ _ h _ _ =>
      cases habove
      cases h' with
      | top => exact absurd hnames Place.At.names_ne_nil
      | @into parent' _ _ _ h' _ _ =>
        rw [Place.names_below, Place.names_below] at hnames
        exact ⟨parent', Place.step_up hentry' rfl, h, h', (List.append_inj' hnames rfl).1⟩
  · have hbelow := Place.At.into h hentry hlookup
    obtain ⟨entries', hentries'⟩ := hkept (hlast ▸ hbelow.at?_names)
    rw [Place.names_below, hnames, Entry.at?_concat, h'.at?_names, hentry'] at hentries'
    refine ⟨_, Place.step_down hentry' hidle hup hentries', hbelow, .into h' hentry' hentries', ?_⟩
    rw [Place.names_below, Place.names_below, hnames]

theorem walk (hkept : KeepsDirectories root root') (h : Alike root root' place place')
    {elements : List String} (hwalk : walk place elements = .ok last)
    {entries : List (String × Entry)} (hlast : last.entry = .directory entries) :
    ∃ last', Disk.walk place' elements = .ok last' ∧ Alike root root' last last' := by
  induction elements generalizing place place' with
  | nil =>
    cases hwalk
    exact ⟨place', rfl, h⟩
  | cons element elements ih =>
    obtain ⟨next, hstep, hrest⟩ := walk_cons_ok.1 hwalk
    obtain ⟨here, hnext⟩ := walk_from_directory hrest hlast
    obtain ⟨next', hstep', halike⟩ := h.step hkept hstep hnext
    obtain ⟨last', hwalk', hlast'⟩ := ih halike hrest
    exact ⟨last', walk_cons_ok.2 ⟨next', hstep', hwalk'⟩, hlast'⟩

end Alike

theorem start_alike {disk : Disk} (hkept : KeepsDirectories disk.root root') {path : Path}
    (h : disk.start path = .ok place) {entries : List (String × Entry)}
    (hentry : place.entry = .directory entries) :
    ∃ place', { disk with root := root' }.start path = .ok place' ∧
      Alike disk.root root' place place' := by
  unfold start at h ⊢
  simp only at h ⊢
  split at h
  · next habsolute =>
    cases h
    rw [if_pos habsolute]
    exact ⟨_, rfl, .top, .top, rfl⟩
  · next hrelative =>
    rw [if_neg hrelative]
    exact Alike.walk hkept ⟨.top, .top, rfl⟩ h hentry

end Alike

/-! ## Writing -/

variable {disk disk' : Disk} {path : Path}

theorem splitLast_spec (path : Path) : path.elements = (splitLast path).1 ++ [(splitLast path).2] := by
  unfold splitLast
  have hne := path.elements_ne_nil
  rcases List.eq_nil_or_concat path.elements with hnil | ⟨front, last, hconcat⟩
  · exact absurd hnil hne
  · rw [hconcat]
    simp

theorem bind_eq_ok {α β : Type} {first : Except FileError α} {next : α → Except FileError β} {b : β} :
    first >>= next = .ok b ↔ ∃ a, first = .ok a ∧ next a = .ok b := by
  cases first with
  | error error => simp [bind, Except.bind]
  | ok a => simp [bind, Except.bind]

/-- All that is known of a disk on which an entry was put. -/
theorem place_eq_ok {operation : String} {entry : Entry}
    (h : disk.place operation path entry = .ok disk') :
    path ≠ "" ∧ ∃ first parent, disk.start path = .ok first ∧
      walk first (splitLast path).1 = .ok parent ∧ (∃ entries, parent.entry = .directory entries) ∧
      isIdle (splitLast path).2 = false ∧ (splitLast path).2 ≠ ".." ∧
      disk' = { disk with
        root := Entry.put entry (parent.names ++ [(splitLast path).2]) disk.root } := by
  unfold place at h
  simp only at h
  split at h
  · next found hfound =>
    cases h
    by_cases hempty : path = ""
    · rw [if_pos (String.isEmpty_iff.2 hempty)] at hfound
      cases hfound
    rw [if_neg (by simpa using hempty)] at hfound
    obtain ⟨first, hfirst, hfound⟩ := bind_eq_ok.1 hfound
    obtain ⟨parent, hparent, hfound⟩ := bind_eq_ok.1 hfound
    refine ⟨hempty, first, parent, hfirst, hparent, ?_⟩
    split at hfound
    · cases hfound
    · next hdirectory =>
      split at hfound
      · cases hfound
      · next hlast =>
        cases hfound
        refine ⟨?_, ?_⟩
        · cases hentry : parent.entry with
          | file content => simp [hentry, Entry.isDirectory] at hdirectory
          | directory entries => exact ⟨entries, rfl⟩
        · simp only [Bool.or_eq_true, not_or, Bool.not_eq_true, beq_eq_false_iff_ne] at hlast
          exact ⟨by simp [isIdle, hlast], hlast.2, rfl⟩
  · cases h

/-- What is written to a path can be read from it. -/
theorem read_write {content : Bytes} (h : disk.write path content = .ok disk') :
    path ≠ "" ∧ disk'.read path = .ok content := by
  have hplace : disk.place "open" path (.file content) = .ok disk' ∧
      ∀ place entries, disk.find path = .ok place → place.entry ≠ .directory entries := by
    unfold write at h
    split at h
    · cases h
    · next hno =>
      refine ⟨h, fun place entries hfind hentry => ?_⟩
      obtain ⟨entry, name, above⟩ := place
      cases hentry
      exact hno _ _ _ hfind
  obtain ⟨hplace, hno⟩ := hplace
  obtain ⟨hne, first, parent, hfirst, hparent, ⟨entries, hentries⟩, hidle, hup, rfl⟩ :=
    place_eq_ok hplace
  refine ⟨hne, ?_⟩
  have helements := splitLast_spec path
  generalize (splitLast path).1 = front, (splitLast path).2 = last at *
  have hparentAt := (start_at hfirst).walk hparent
  have hkept : KeepsDirectories disk.root
      (Entry.put (.file content) (parent.names ++ [last]) disk.root) := by
    intro names entries' hnames
    refine Entry.at?_put_directory (fun below hbelow => ?_) hnames
    rw [Entry.at?_concat, hparentAt.at?_names, hentries] at hbelow
    refine hno (parent.below last (.directory below)) below ?_ rfl
    refine find_eq_ok.2 ⟨hne, first, hfirst, ?_⟩
    rw [helements]
    refine walk_append_ok.2 ⟨parent, hparent, ?_⟩
    rw [walk_singleton]
    exact Place.step_down hentries hidle hup hbelow
  -- the same elements lead to the same names on the new disk
  obtain ⟨firstEntries, hfirstEntries⟩ := walk_from_directory hparent hentries
  obtain ⟨first', hfirst', halike⟩ := start_alike hkept hfirst hfirstEntries
  obtain ⟨parent', hparent', halike'⟩ := halike.walk hkept hparent hentries
  obtain ⟨entries', hentries'⟩ := halike'.isDirectory hkept hentries
  have hat := halike'.right.at?_names
  have hlookup := Entry.at?_put_self (parent.names ++ [last]) disk.root (.file content)
  rw [← halike'.names_eq] at hat
  rw [Entry.at?_concat, hat, hentries'] at hlookup
  have hfind : { disk with root := Entry.put (.file content) (parent.names ++ [last]) disk.root }.find
      path = .ok (parent'.below last (.file content)) := by
    refine find_eq_ok.2 ⟨hne, first', hfirst', ?_⟩
    rw [helements]
    refine walk_append_ok.2 ⟨parent', hparent', ?_⟩
    rw [walk_singleton]
    exact Place.step_down hentries' hidle hup hlookup
  unfold read
  rw [hfind]
  rfl

/-! ## Making directories -/

/-- The second disk has the files of the first, no others, and all its directories. -/
structure AddsDirectories (disk disk' : Disk) : Prop where
  workingDirectory : disk'.workingDirectory = disk.workingDirectory
  files : ∀ names content, disk'.root.at? names = some (.file content) ↔
    disk.root.at? names = some (.file content)
  directories : KeepsDirectories disk.root disk'.root

namespace AddsDirectories

theorem refl (disk : Disk) : AddsDirectories disk disk :=
  ⟨rfl, fun _ _ => Iff.rfl, fun h => ⟨_, h⟩⟩

theorem trans {disk'' : Disk} (h : AddsDirectories disk disk') (h' : AddsDirectories disk' disk'') :
    AddsDirectories disk disk'' := by
  refine ⟨h'.workingDirectory.trans h.workingDirectory, fun names content => ?_, fun hentry => ?_⟩
  · exact (h'.files names content).trans (h.files names content)
  · obtain ⟨_, hentry⟩ := h.directories hentry
    exact h'.directories hentry

/-- A directory that is made where nothing is. -/
theorem place {operation : String} {error : FileError} (hfind : disk.find path = .error error)
    (h : disk.place operation path (.directory []) = .ok disk') : AddsDirectories disk disk' := by
  obtain ⟨hne, first, parent, hfirst, hparent, ⟨entries, hentries⟩, hidle, hup, rfl⟩ :=
    place_eq_ok h
  have hparentAt := ((start_at hfirst).walk hparent).at?_names
  rw [hentries] at hparentAt
  have hnew : entries.lookup (splitLast path).2 = none := by
    by_contra hold
    obtain ⟨entry, hentry⟩ := Option.ne_none_iff_exists'.1 hold
    have hfound : disk.find path = .ok (parent.below (splitLast path).2 entry) := by
      refine find_eq_ok.2 ⟨hne, first, hfirst, ?_⟩
      rw [splitLast_spec path]
      refine walk_append_ok.2 ⟨parent, hparent, ?_⟩
      rw [walk_singleton]
      exact Place.step_down hentries hidle hup hentry
    rw [hfound] at hfind
    cases hfind
  refine ⟨rfl, Entry.at?_put_new hparentAt hnew, Entry.at?_put_directory fun below hbelow => ?_⟩
  rw [Entry.at?_concat, hparentAt] at hbelow
  cases hnew.symm.trans hbelow

theorem makeAll (disk : Disk) (paths : List Path) :
    (∀ made, disk.makeAll paths = .ok made → AddsDirectories disk made) ∧
      ∀ e, disk.makeAll paths = .error e → AddsDirectories disk e.disk := by
  induction paths generalizing disk with
  | nil =>
    constructor
    · rintro _ ⟨⟩
      exact refl disk
    · rintro _ ⟨⟩
  | cons path paths ih =>
    unfold Disk.makeAll
    split
    · exact ih disk
    · constructor
      · rintro _ ⟨⟩
      · rintro _ ⟨⟩
        exact refl disk
    · next hfind =>
      split
      · next made hmade =>
        have hadds := place hfind hmade
        exact ⟨fun _ h => hadds.trans ((ih made).1 _ h), fun _ h => hadds.trans ((ih made).2 _ h)⟩
      · constructor
        · rintro _ ⟨⟩
        · rintro _ ⟨⟩
          exact refl disk

end AddsDirectories

end Disk

end ShaderCost
