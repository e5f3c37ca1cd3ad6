import ShaderCost.Proofs.Files.Lookup
import ShaderCost.Watch.Watcher

/-! # Watched files are collected

A watcher and a run walk the same tree with different filters: the watcher leaves more directories
out, and it judges a file by its whole path where the run judges it by its name. What a walk enters
(`Enters`) shrinks with the directories it leaves out (`Enters.mono`), so the directories that a path
is watched for are entered by the run too, and the files in them that the watcher follows are among
those that the run takes (`watched_files_are_collected`).

That a path which the walk makes up leads to the directory it was made up for depends on the names in
the tree being fit for it (`Entry.WellFormed`), as they are on every disk.
-/

namespace ShaderCost

/-! ## Trees -/

/-- The entries of each directory have names, and no two have the same. -/
inductive Entry.WellFormed : Entry → Prop where
  | file (content : Bytes) : WellFormed (.file content)
  | directory {entries : List (String × Entry)} (names : ∀ named ∈ entries, Path.IsName named.1)
      (distinct : (entries.map (·.1)).Nodup) (below : ∀ named ∈ entries, named.2.WellFormed) :
      WellFormed (.directory entries)

theorem mem_of_lookup_eq_some {entries : List (String × Entry)} {name : String} {entry : Entry}
    (h : entries.lookup name = some entry) : (name, entry) ∈ entries := by
  obtain ⟨front, back, rfl, -⟩ := List.lookup_eq_some_iff.1 h
  simp

namespace Entry.WellFormed

variable {entries : List (String × Entry)} {name : String} {entry : Entry}

theorem isName (h : (Entry.directory entries).WellFormed) (hmem : (name, entry) ∈ entries) :
    Path.IsName name := by
  cases h with
  | directory names distinct below => exact names (name, entry) hmem

theorem of_mem (h : (Entry.directory entries).WellFormed) (hmem : (name, entry) ∈ entries) :
    entry.WellFormed := by
  cases h with
  | directory names distinct below => exact below (name, entry) hmem

theorem of_lookup (h : (Entry.directory entries).WellFormed)
    (hlookup : entries.lookup name = some entry) :
    entry.WellFormed :=
  h.of_mem (mem_of_lookup_eq_some hlookup)

theorem lookup_eq_some (h : (Entry.directory entries).WellFormed) (hmem : (name, entry) ∈ entries) :
    entries.lookup name = some entry := by
  cases h with
  | directory names distinct below =>
    obtain ⟨front, back, rfl⟩ := List.append_of_mem hmem
    rw [List.map_append, List.map_cons, List.nodup_append] at distinct
    refine List.lookup_eq_some_iff.2 ⟨front, back, rfl, fun named hnamed => ?_⟩
    have hne := distinct.2.2 named.1 (List.mem_map_of_mem hnamed) name List.mem_cons_self
    simpa using hne.symm

end Entry.WellFormed

/-! ## What a walk enters -/

variable {skip skip' : Visit → Bool} {path path' : Path} {entries entries' : List (String × Entry)}

theorem mem_walkEntries {visit : Visit} : visit ∈ walkEntries skip path entries ↔
    ∃ name entry, (name, entry) ∈ entries ∧
      (entry.isDirectory && skip { path := path.join name, name, isDirectory := true }) = false ∧
      visit ∈ entry.walk skip (path.join name) name := by
  induction entries with
  | nil => simp [walkEntries]
  | cons named entries ih =>
    obtain ⟨name, entry⟩ := named
    rw [walkEntries, List.mem_append, ih]
    constructor
    · rintro (hhere | ⟨name', entry', hmem, hrest⟩)
      · split at hhere
        · exact absurd hhere List.not_mem_nil
        · next hskip => exact ⟨name, entry, List.mem_cons_self, by simpa using hskip, hhere⟩
      · exact ⟨name', entry', List.mem_cons_of_mem _ hmem, hrest⟩
    · rintro ⟨name', entry', hmem, hskip, hvisit⟩
      rcases List.mem_cons.1 hmem with heq | hmem
      · cases heq
        exact Or.inl (by rwa [if_neg (by simp [hskip])])
      · exact Or.inr ⟨name', entry', hmem, hskip, hvisit⟩

/-- A walk from an entry at a path enters a directory at a path: it skips none on the way. -/
inductive Enters (skip : Visit → Bool) : Path → Entry → Path → List (String × Entry) → Prop where
  | here (path : Path) (entries : List (String × Entry)) :
      Enters skip path (.directory entries) path entries
  | into {path path' : Path} {entries entries' : List (String × Entry)} {name : String}
      {entry : Entry} (hmem : (name, entry) ∈ entries)
      (hskip : skip { path := path.join name, name, isDirectory := true } = false)
      (h : Enters skip (path.join name) entry path' entries') :
      Enters skip path (.directory entries) path' entries'

theorem Enters.isDirectory {entry : Entry} (h : Enters skip path entry path' entries') :
    entry.isDirectory = true := by
  cases h <;> rfl

theorem enters_of_mem_walk {visit : Visit} (hvisit : visit.isDirectory = true) {path : Path}
    {name : String} : (entry : Entry) → visit ∈ entry.walk skip path name →
      ∃ entries, Enters skip path entry visit.path entries
  | .file content, h => by
    rw [Entry.walk, List.mem_singleton] at h
    cases h
    cases hvisit
  | .directory entries, h => by
    rw [Entry.walk] at h
    rcases List.mem_cons.1 h with rfl | h
    · exact ⟨entries, .here path entries⟩
    · obtain ⟨name', entry, hmem, hskip, h⟩ := mem_walkEntries.1 h
      have hsize := List.sizeOf_lt_of_mem hmem
      obtain ⟨entries', hbelow⟩ := enters_of_mem_walk hvisit entry h
      rw [hbelow.isDirectory, Bool.true_and] at hskip
      exact ⟨entries', .into hmem hskip hbelow⟩
termination_by entry => sizeOf entry
decreasing_by
  simp only [Prod.mk.sizeOf_spec, Entry.directory.sizeOf_spec] at hsize ⊢
  omega

namespace Enters

variable {entry : Entry}

/-- What is met in a directory that a walk enters is met on the walk. -/
theorem walkEntries_subset (h : Enters skip path entry path' entries') (name : String) :
    walkEntries skip path' entries' ⊆ entry.walk skip path name := by
  induction h generalizing name with
  | here path entries =>
    rw [Entry.walk]
    exact List.subset_cons_self _ _
  | @into path path' entries entries' name' entry hmem hskip h ih =>
    intro visit hvisit
    rw [Entry.walk]
    refine List.mem_cons_of_mem _ (mem_walkEntries.2 ⟨name', entry, hmem, ?_, ih name' hvisit⟩)
    rw [hskip, Bool.and_false]

/-- The path of a directory that a walk enters leads to it. -/
theorem find (h : Enters skip path entry path' entries') {disk : Disk} {place : Disk.Place}
    (hfind : disk.find path = .ok place) (hentry : place.entry = entry) (htree : entry.WellFormed) :
    ∃ place', disk.find path' = .ok place' ∧ place'.entry = .directory entries' := by
  induction h generalizing place with
  | here path entries => exact ⟨place, hfind, hentry⟩
  | into hmem hskip h ih =>
    exact ih (Disk.find_join hfind hentry (htree.isName hmem) (htree.lookup_eq_some hmem)) rfl
      (htree.of_mem hmem)

/-- A walk that skips fewer directories enters no fewer. -/
theorem mono (h : Enters skip path entry path' entries') (hpath : path ≠ "")
    (htree : entry.WellFormed)
    (hskip' : ∀ {path : Path} {name : String}, path ≠ "" → Path.IsName name →
      skip { path := path.join name, name, isDirectory := true } = false →
      skip' { path := path.join name, name, isDirectory := true } = false) :
    Enters skip' path entry path' entries' := by
  induction h with
  | here path entries => exact .here path entries
  | into hmem hskip h ih =>
    have hname := htree.isName hmem
    exact .into hmem (hskip' hpath hname hskip) (ih (hname.join_ne_empty hpath) (htree.of_mem hmem))

end Enters

/-! ## What is watched -/

namespace Watcher

variable {w : Watcher} {directory : Path}

theorem mem_addDirectory {added : Path} (h : directory ∈ (w.addDirectory added).1.directories) :
    directory ∈ w.directories ∨ directory = added := by
  unfold addDirectory at h
  split at h
  · exact Or.inl h
  · rcases Std.TreeSet.mem_insert.1 h with heq | h
    · exact Or.inr (Std.LawfulEqCmp.eq_of_compare heq).symm
    · exact Or.inl h

theorem mem_addDirectories {directories : List Path}
    (h : directory ∈ (w.addDirectories directories).1.directories) :
    directory ∈ w.directories ∨ directory ∈ directories := by
  unfold addDirectories at h
  generalize ([] : List TraceEntry) = told at h
  induction directories generalizing w told with
  | nil => exact Or.inl h
  | cons first directories ih =>
    rw [List.foldl_cons] at h
    rcases ih _ h with h | h
    · rcases mem_addDirectory h with h | rfl
      · exact Or.inl h
      · exact Or.inr List.mem_cons_self
    · exact Or.inr (List.mem_cons_of_mem first h)

/-- The directories that the path of a directory stands for. -/
theorem addPath_directory {disk : Disk} {root : Path} {entries : List (String × Entry)}
    (h : disk.stat root = .ok (.directory entries)) : w.addPath disk root = .ok (w.addDirectories
      ((((Entry.directory entries).walk (fun visit => w.files.skipsDirectory visit.path) root
        root.base).filter (·.isDirectory)).map (·.path))) := by
  simp only [addPath, directoriesOf, h, bind, Except.bind, pure, Except.pure]

end Watcher

theorem FileSettings.isExcluded_of_skipsDirectory (files : FileSettings) {path : Path} {name : String}
    (hpath : path ≠ "") (hname : Path.IsName name)
    (h : files.skipsDirectory (path.join name) = false) : files.isExcluded name = false := by
  have hlast := hname.afterSlash_join hpath
  have hbase : (path.join name).base = name := by
    rw [Path.IsName.base_eq (hlast.symm ▸ hname), hlast]
  unfold skipsDirectory at h
  rw [hbase, Bool.or_eq_false_iff] at h
  exact h.2

/-- The path of a file as it is made up from that of its directory. -/
theorem Path.join_eq_clean {directory file : Path} (hname : IsName file.afterSlash)
    (hne : directory ≠ "") (hparent : file.parent = directory.clean) :
    directory.join file.afterSlash = file.clean := by
  obtain ⟨habsolute, hstack⟩ := hname.stack_throughSlash
  obtain ⟨habsolute', hstack'⟩ := clean_eq_clean.1 hparent
  obtain ⟨habsolute'', hstack''⟩ := hname.stack_append hne
  rw [hname.join_eq hne, clean_eq_clean, habsolute'', hstack'', hstack, ← hstack', ← habsolute',
    habsolute]
  exact ⟨rfl, rfl⟩

theorem FileSettings.accepts_of_watches {files : FileSettings} {directory file : Path}
    (hname : Path.IsName file.afterSlash) (hne : directory ≠ "") (h : files.watches file = true) :
    files.accepts { path := directory.join file.afterSlash, name := file.afterSlash
                    isDirectory := false } = true := by
  simp only [watches, Bool.and_eq_true, Bool.not_eq_true'] at h
  obtain ⟨⟨-, hshader⟩, hexcluded⟩ := h
  have hextension : (directory.join file.afterSlash).extension = file.extension := by
    rw [← Path.extension_afterSlash, hname.afterSlash_join hne, Path.extension_afterSlash]
  have hname' : files.isExcluded file.afterSlash = false := by
    refine Bool.eq_false_iff.2 fun htrue => ?_
    unfold isExcluded at htrue hexcluded
    rw [hname.elements_eq, List.any_cons, List.any_nil, Bool.or_false] at htrue
    exact Bool.false_ne_true (hexcluded.symm.trans
      (List.any_eq_true.2 ⟨file.afterSlash, file.afterSlash_mem_elements, htrue⟩))
  unfold isShader at hshader
  simp only [accepts, isShader, hextension, hshader, hname', Bool.not_false, Bool.and_self]

/-- A run takes every file that the watcher follows in a directory which it watches for the same path. -/
theorem watched_files_are_collected {w w' : Watcher} {told : List TraceEntry} {disk : Disk}
    {root directory file : Path} {entries : List (String × Entry)} {content : Bytes}
    (htree : disk.root.WellFormed) (hroot : disk.stat root = .ok (.directory entries))
    (hadd : w.addPath disk root = .ok (w', told)) (hold : directory ∉ w.directories)
    (hnew : directory ∈ w'.directories) (hfile : disk.stat file = .ok (.file content))
    (hparent : file.parent = directory.clean) (hwatches : w.files.watches file = true) :
    ∃ shaders, w.files.collect disk root = .ok shaders ∧ file.clean ∈ shaders := by
  obtain ⟨start, hstart, hentry⟩ := Disk.stat_eq_ok.1 hroot
  obtain ⟨place, hplace, hcontent⟩ := Disk.stat_eq_ok.1 hfile
  have hstartTree : (Entry.directory entries).WellFormed :=
    hentry ▸ (Disk.find_all htree Entry.WellFormed.of_lookup hstart).entry
  -- the directory is entered by the walk of the watcher
  have hvisited : ∃ visit ∈ (Entry.directory entries).walk
      (fun visit => w.files.skipsDirectory visit.path) root root.base,
        visit.isDirectory = true ∧ visit.path = directory := by
    rw [Watcher.addPath_directory hroot, Except.ok.injEq] at hadd
    obtain rfl : (Watcher.addDirectories _ _).1 = w' := congrArg Prod.fst hadd
    rcases Watcher.mem_addDirectories hnew with hmem | hmem
    · exact absurd hmem hold
    · simpa [and_assoc] using hmem
  obtain ⟨visit, hvisit, hvisitDirectory, rfl⟩ := hvisited
  obtain ⟨entries', henters⟩ := enters_of_mem_walk hvisitDirectory _ hvisit
  -- so it holds the file
  obtain ⟨at', hat, hatEntry⟩ := henters.find hstart hentry hstartTree
  obtain ⟨hname, at'', entries'', hat'', hatEntry'', hlookup⟩ := Disk.find_parent hplace hcontent
  rw [hparent, Disk.find_clean hat] at hat''
  obtain rfl : at' = at'' := Except.ok.inj hat''
  obtain rfl : entries' = entries'' := Entry.directory.inj (hatEntry.symm.trans hatEntry'')
  -- and the walk of the run meets it there
  have hentersRun : Enters (fun visit => w.files.isExcluded visit.name) root (.directory entries)
      visit.path entries' :=
    henters.mono (Disk.find_eq_ok.1 hstart).1 hstartTree w.files.isExcluded_of_skipsDirectory
  have hne := (Disk.find_eq_ok.1 hat).1
  refine ⟨w.files.shadersBelow root (.directory entries), ?_, ?_⟩
  · simp only [FileSettings.collect, hroot, bind, Except.bind, pure, Except.pure]
  · rw [← Path.join_eq_clean hname hne hparent]
    refine List.mem_map.2 ⟨_, List.mem_filter.2 ⟨hentersRun.walkEntries_subset root.base ?_,
      FileSettings.accepts_of_watches hname hne hwatches⟩, rfl⟩
    exact mem_walkEntries.2 ⟨file.afterSlash, .file content, mem_of_lookup_eq_some hlookup, rfl,
      by rw [Entry.walk]; exact List.mem_singleton_self _⟩

/-- A disk with a shader two directories deep, beside a directory to exclude. -/
def nestedShader : Disk :=
  { root := .directory [("shaders", .directory
      [("inner", .directory [("glow.frag", .file [])]), ("vendor", .directory [])])] }

def nestedWatcher : Watcher :=
  { files := { extensions := some [".glsl", ".frag"], exclude := some ["vend*"] } }

theorem watched_files_are_collected_nested :
    nestedWatcher.files.watches "shaders/./inner//glow.frag" = true ∧
      ∃ shaders, nestedWatcher.files.collect nestedShader "./shaders/" = .ok shaders ∧
        "shaders/inner/glow.frag" ∈ shaders := by
  have htree : nestedShader.root.WellFormed := by
    have hinner : (Entry.directory [("glow.frag", .file [])]).WellFormed :=
      .directory (by decide +kernel) (by decide) (by simpa using .file [])
    have hvendor : (Entry.directory []).WellFormed := .directory (by simp) (by simp) (by simp)
    have hshaders : (Entry.directory [("inner", .directory [("glow.frag", .file [])]),
        ("vendor", .directory [])]).WellFormed :=
      .directory (by decide +kernel) (by decide) (by simpa using ⟨hinner, hvendor⟩)
    exact .directory (by decide +kernel) (by decide) (by simpa using hshaders)
  have hroot : nestedShader.stat "./shaders/" = .ok (.directory
      [("inner", .directory [("glow.frag", .file [])]), ("vendor", .directory [])]) := by
    have habsolute : Path.isAbsolute "./shaders/" = false := by decide +kernel
    have helements : Path.elements "./shaders/" = [".", "shaders", ""] := by decide +kernel
    simp [Disk.stat, Disk.find, Disk.start, Disk.Place.step, nestedShader, habsolute, helements,
      bind, Except.bind, pure, Except.pure]
  have hfile : nestedShader.stat "shaders/./inner//glow.frag" = .ok (.file []) := by
    have habsolute : Path.isAbsolute "shaders/./inner//glow.frag" = false := by decide +kernel
    have helements : Path.elements "shaders/./inner//glow.frag" =
        ["shaders", ".", "inner", "", "glow.frag"] := by decide +kernel
    simp [Disk.stat, Disk.find, Disk.start, Disk.Place.step, nestedShader, habsolute, helements,
      bind, Except.bind, pure, Except.pure]
  have hwatches : nestedWatcher.files.watches "shaders/./inner//glow.frag" = true := by
    decide +kernel
  have hparent : Path.parent "shaders/./inner//glow.frag" = Path.clean "shaders/inner" := by
    decide +kernel
  have hclean : Path.clean "shaders/./inner//glow.frag" = "shaders/inner/glow.frag" := by
    decide +kernel
  refine ⟨hwatches, ?_⟩
  rw [← hclean]
  exact watched_files_are_collected htree hroot (Watcher.addPath_directory hroot)
    (by decide +kernel) (by decide +kernel) hfile hparent hwatches

end ShaderCost
