/-
# Unpacking stays below its directory

The path of an entry is taken for what its segments say.  It is refused unless
it starts in the directory and never goes up, and then it leads through names
alone (`safeNames_eq_ok_iff`).  Names put after the path of the directory lead
strictly below the place of that, however either is spelled, and only there is
the entry written (`confined_extractEntry`).

The directories that a file lies in are made where they are missing, and this
may concern places outside, since the directory itself may be missing.  No file
is made, changed or lost by it.
-/
import SealedModules.Command.Invocation
import SealedModules.Proofs.Packing
import SealedModules.Proofs.Places

namespace SealedModules

/-! ## Entry paths -/

namespace Command

theorem namesBelow?_segments (segments : List String) :
    namesBelow? (segments.filterMap Path.Component.ofSegment?) =
      if ".." ∈ segments then none else some (segments.filter fun name => Disk.IsProper name) := by
  induction segments with
  | nil => rfl
  | cons segment segments ih =>
      by_cases hsilent : segment = "" ∨ segment = "."
      · have hnot : ¬ Disk.IsProper segment := fun h => hsilent.elim h.1 h.2.1
        have hup : ¬ ".." = segment := by
          rintro rfl
          exact absurd hsilent (by decide)
        have hnone : Path.Component.ofSegment? segment = none := if_pos hsilent
        rw [List.filterMap_cons_none hnone, ih, List.filter_cons_of_neg (by simpa using hnot)]
        simp only [List.mem_cons, hup, false_or]
      · by_cases hup : segment = ".."
        · subst hup
          rw [if_pos List.mem_cons_self]
          rfl
        · have hproper : Disk.IsProper segment :=
            ⟨fun h => hsilent (.inl h), fun h => hsilent (.inr h), hup⟩
          have hsome : Path.Component.ofSegment? segment = some (.name segment) := by
            rw [Path.Component.ofSegment?, if_neg hsilent, if_neg hup]
          rw [List.filterMap_cons_some hsome, namesBelow?, ih,
            List.filter_cons_of_pos (by simpa using hproper)]
          simp only [List.mem_cons, Ne.symm hup, false_or]
          split
          · rfl
          · rfl

/-- A path is accepted if it does not start at the root, never goes up, and
names something; it then leads through the names among its segments. -/
theorem safeNames_eq_ok_iff {path : String} {names : List String} :
    safeNames path = .ok names ↔
      Path.isAbsolute path = false ∧ ".." ∉ Path.segments path ∧ names ≠ [] ∧
        names = (Path.segments path).filter fun name => Disk.IsProper name := by
  have hcomponents : Path.isAbsolute path = false → namesBelow? (Path.components path) =
      namesBelow? ((Path.segments path).filterMap Path.Component.ofSegment?) := by
    intro hrelative
    rw [Path.components, hrelative]
    simp only [Bool.false_eq_true, if_false]
    split
    · rfl
    · rfl
  unfold safeNames
  cases habsolute : Path.isAbsolute path with
  | true =>
      rw [Path.components, habsolute]
      simp [namesBelow?]
  | false =>
      rw [hcomponents habsolute, namesBelow?_segments]
      by_cases hup : ".." ∈ Path.segments path
      · simp [hup]
      · rw [if_neg hup]
        constructor
        · intro h
          split at h
          · cases h
          · cases h
          · rename_i found hne hfound
            obtain rfl := Except.ok.inj h
            obtain rfl := Option.some.inj hfound
            exact ⟨rfl, hup, fun hnil => hne hnil, rfl⟩
        · rintro ⟨-, -, hne, rfl⟩
          split
          · contradiction
          · rename_i hnil
            exact absurd (Option.some.inj hnil) hne
          · rename_i hsome
            exact congrArg _ (Option.some.inj hsome).symm

theorem isName_of_safeNames {path : String} {names : List String}
    (h : safeNames path = .ok names) : names ≠ [] ∧ ∀ name ∈ names, Path.IsName name := by
  obtain ⟨-, -, hne, rfl⟩ := safeNames_eq_ok_iff.mp h
  refine ⟨hne, fun name hmem => ?_⟩
  obtain ⟨hsegment, hproper⟩ := List.mem_filter.mp hmem
  exact ⟨of_decide_eq_true hproper, Path.not_slash_of_mem_segments hsegment⟩

/-! ## Extracting -/

/-- Strictly below a place. -/
def Below (top place : Location) : Prop := ∃ names, names ≠ [] ∧ place = top ++ names

theorem confined_extractEntry (disk : Disk) (directory : String) (entry : String × Bytes) :
    Disk.Confined (Below (disk.place directory)) disk (extractEntry disk directory entry).2 := by
  unfold extractEntry
  cases hnames : safeNames entry.1 with
  | error error => exact .refl _ disk
  | ok names =>
      obtain ⟨hne, hproper⟩ := isName_of_safeNames hnames
      let target := Path.append directory (Path.ofNames names)
      have hparents := disk.confined_ensureNested (Path.nesting target).tail
      have hmade : Disk.Confined (Below (disk.place directory)) disk (disk.ensureParents target).2 :=
        hparents.mono fun _ hnever => hnever.elim
      simp only
      rcases hresult : disk.ensureParents target with ⟨outcome, made⟩
      rw [hresult] at hmade
      cases outcome with
      | error fault => exact hmade
      | ok _ =>
          have hwritten : Disk.Confined (Below (disk.place directory)) made
              (made.writeFile target entry.2).2 := by
            refine (made.confined_writeFile target entry.2).mono fun place hplace => ?_
            refine ⟨names, hne, ?_⟩
            rw [hplace, hmade.place_eq]
            exact disk.place_append directory hne hproper
          simp only
          split
          · rename_i hwrite
            rw [hwrite] at hwritten
            exact hmade.trans hwritten
          · rename_i hwrite
            rw [hwrite] at hwritten
            exact hmade.trans hwritten

/-- However many entries are extracted before one fails. -/
theorem confined_extractEntries (directory : String) (entries : List (String × Bytes))
    (disk : Disk) :
    Disk.Confined (Below (disk.place directory)) disk
      (extractEntries directory entries disk).2 := by
  induction entries generalizing disk with
  | nil => exact .refl _ disk
  | cons entry entries ih =>
      have hfirst := confined_extractEntry disk directory entry
      unfold extractEntries
      rcases hresult : extractEntry disk directory entry with ⟨outcome, after⟩
      rw [hresult] at hfirst
      cases outcome with
      | error error => exact hfirst
      | ok _ =>
          have hrest := ih after
          rw [hfirst.place_eq] at hrest
          exact hfirst.trans hrest

theorem disk_unpackFile_of_not_extracted {pack : String} {directory : Option String}
    {listOnly : Bool} {disk : Disk}
    (h : listOnly = true ∨ ∀ bytes entries, disk.fileBytes pack = .ok bytes →
      Pack.read bytes ≠ .ok entries) : (unpackFile pack directory listOnly disk).disk = disk := by
  unfold unpackFile
  split
  · rfl
  · rename_i bytes hbytes
    split
    · rfl
    · rename_i entries hread
      rcases h with rfl | h
      · rfl
      · exact absurd hread (h bytes entries hbytes)

theorem confined_unpackFile (pack : String) (directory : Option String) (listOnly : Bool)
    (disk : Disk) :
    Disk.Confined (fun place => ∃ top ∈ directory, Below (disk.place top) place) disk
      (unpackFile pack directory listOnly disk).disk := by
  unfold unpackFile
  split
  · exact .refl _ disk
  · split
    · exact .refl _ disk
    · rename_i entries hread
      split
      · exact .refl _ disk
      · cases directory with
        | none => exact .refl _ disk
        | some top =>
            have hextracted : Disk.Confined
                (fun place => ∃ other ∈ some top, Below (disk.place other) place) disk
                (extractEntries top entries disk).2 :=
              (confined_extractEntries top entries disk).mono fun place hplace =>
                ⟨top, rfl, hplace⟩
            simp only
            split
            · rename_i hresult
              rw [hresult] at hextracted
              exact hextracted
            · rename_i hresult
              rw [hresult] at hextracted
              exact hextracted

/-! ## The command -/

theorem confined_run_unpack (invocation : Invocation) {pack : String} {directory : Option String}
    {listOnly : Bool} (hcommand : invocation.command = .unpack pack directory listOnly)
    (disk : Disk) :
    Disk.Confined (fun place => ∃ top ∈ directory, Below (disk.place top) place) disk
      (invocation.run disk).disk := by
  unfold Invocation.run
  split
  · exact .refl _ disk
  · rw [hcommand]
    exact confined_unpackFile pack directory listOnly disk

/-- Whatever bytes are taken for a pack, and whether or not all of its entries
are extracted: the only files that come about or change lie strictly below the
output directory, and no directory is lost.  Nothing at all changes if the
entries are only listed, or if there is no pack to read.  An entry is extracted
under the names of its path, which are accepted if the path does not start at
the root, has no segment that goes up, and has a name. -/
theorem unpacking_stays_below (settingsPath key : Option String) (pack : String)
    (directory : Option String) (listOnly : Bool) (disk : Disk) :
    let run := Invocation.run { settingsPath, key, command := .unpack pack directory listOnly } disk
    (∀ place, (∀ top ∈ directory, ¬ Below (disk.place top) place) →
        run.disk.leaf? place = disk.leaf? place) ∧
      (∀ place, disk.HoldsDirectory place → run.disk.HoldsDirectory place) ∧
      (∀ path location, disk.locate path = .ok location → disk.place path = location) ∧
      ((listOnly = true ∨ ∀ bytes entries, disk.fileBytes pack = .ok bytes →
          Pack.read bytes ≠ .ok entries) → run.disk = disk) ∧
      ∀ path names, (safeNames path = .ok names ↔
          Path.isAbsolute path = false ∧ ".." ∉ Path.segments path ∧ names ≠ [] ∧
            names = (Path.segments path).filter fun name => Disk.IsProper name) ∧
        (safeNames path = .ok names →
          Path.components (Path.ofNames names) = names.map .name) := by
  intro run
  have hconfined := confined_run_unpack
    { settingsPath, key, command := .unpack pack directory listOnly } rfl disk
  refine ⟨fun place hout => ?_, hconfined.directory, fun path location => Disk.place_of_locate,
    fun hnone => ?_, fun path names => ⟨safeNames_eq_ok_iff, fun hsafe => ?_⟩⟩
  · refine hconfined.leaf place ?_
    rintro ⟨top, htop, hbelow⟩
    exact hout top htop hbelow
  · unfold run Invocation.run
    split
    · rfl
    · exact disk_unpackFile_of_not_extracted hnone
  · obtain ⟨hne, hnames⟩ := isName_of_safeNames hsafe
    exact Path.components_ofNames hne hnames

/-- A pack whose second entry goes up: the first is extracted, with its path
cleared of what says nothing, and a file next to the directory stays. -/
theorem entry_that_goes_up_is_not_extracted :
    let pack : Bytes := [7, 0, 0, 0, 1, 0, 0, 0, 0, 0, 0, 0, 97, 47, 46, 47, 47, 98, 47, 5,
      4, 0, 0, 0, 1, 0, 0, 0, 0, 0, 0, 0, 46, 46, 47, 120, 6,
      77, 83, 80, 65, 67, 75, 0, 0, 2, 0, 0, 0, 37, 0, 0, 0, 0, 0, 0, 0, 249, 204, 41, 60]
    let disk := Disk.scratch.set ["tmp", "work"] (.directory [("p", .file pack), ("x", .file [9])])
    let run := Invocation.run { command := .unpack "p" (some "./d") false } disk
    Pack.read pack = .ok [("a/.//b/", [5]), ("../x", [6])] ∧
      run.outcome = .error { message := "refusing to extract '../x' outside the output directory" } ∧
      run.disk.fileBytes "d/a/b" = .ok [5] ∧
      run.disk.leaf? ["tmp", "work", "x"] = some (.file [9]) := by
  intro pack disk run
  have hd : disk.place "./d" = ["tmp", "work", "d"] := by decide +kernel
  refine ⟨by decide +kernel, by decide +kernel, by decide +kernel, ?_⟩
  refine ((unpacking_stays_below none none "p" (some "./d") false disk).1 _ ?_).trans rfl
  rintro top htop ⟨names, -, hplace⟩
  obtain rfl := Option.some.inj htop
  rw [hd] at hplace
  simp at hplace

end Command

end SealedModules
