/-
# Making the directories on the way

A path lies in the places that its front segments name, and making it a
directory makes those first that are missing.  This cannot be followed from the
outermost place, since it starts at the innermost one: `ensureNested` tries the
path itself, and only if something on the way is missing the place it lies in.

So what is made below a place is told from what is made of the place itself.
If that can be made, whatever it takes, a name further can be made as well
unless there is a file (`ensurePath_append`).
-/
import Mathlib.Data.List.Induction
import SealedModules.Proofs.Trees

namespace SealedModules

/-! ## The places a path lies in -/

namespace Path

theorem nestingFrom_of_silent {silent : List String} (h : ∀ segment ∈ silent, isSilent segment = true)
    (first : String) (rest : List String) :
    nestingFrom first (silent ++ rest) = nestingFrom first rest := by
  induction silent with
  | nil => rfl
  | cons segment silent ih =>
      rw [List.cons_append, nestingFrom, if_pos (h segment List.mem_cons_self)]
      exact ih fun other hmem => h other (List.mem_cons_of_mem segment hmem)

theorem nesting_eq_nestingFrom {base : String} (h : base ≠ "") :
    ∃ first rest, stem base = first :: rest ∧ nesting base = nestingFrom first rest.reverse := by
  obtain ⟨blanks, hsegments, hblanks⟩ := exists_segments_eq_stem base
  obtain ⟨first, rest, hstem⟩ := List.exists_cons_of_ne_nil (stem_ne_nil h)
  refine ⟨first, rest, hstem, ?_⟩
  rw [hstem, List.cons_append] at hsegments
  have hsilent : ∀ segment ∈ blanks.reverse, isSilent segment = true := by
    intro segment hmem
    rw [hblanks segment (List.mem_reverse.mp hmem)]
    rfl
  rw [nesting, hsegments]
  simp only [if_neg h]
  rw [List.reverse_append, nestingFrom_of_silent hsilent]

theorem nesting_append {base name : String} (hbase : base ≠ "") (hname : IsName name) :
    nesting (append base name) = append base name :: nesting base := by
  obtain ⟨first, rest, hstem, hnesting⟩ := nesting_eq_nestingFrom hbase
  have hsegments : segments (append base name) = first :: (rest ++ [name]) := by
    rw [segments_append (not_isAbsolute_of_isName hname), segments_of_isName hname, hstem]
    rfl
  have hne : append base name ≠ "" := by
    intro hempty
    rw [hempty] at hsegments
    obtain ⟨-, hnil⟩ := List.cons.inj (show [""] = first :: (rest ++ [name]) from hsegments)
    simp at hnil
  have hspeaks : ¬ isSilent name = true := by
    simp [isSilent, hname.proper.1, hname.proper.2.1]
  rw [nesting, hsegments]
  simp only [if_neg hne]
  rw [List.reverse_append, List.reverse_singleton, List.singleton_append, nestingFrom,
    if_neg hspeaks, List.reverse_cons, List.reverse_reverse, ← hsegments, ofNames_segments,
    hnesting]

/-- What is left of a path if segments that say nothing are taken off its end;
only of a path of slashes one is kept. -/
theorem nestingFrom_eq (first : String) (rest : List String) :
    ∃ core silent blanks tail, first :: rest.reverse = core ++ silent ∧
      (∀ segment ∈ silent, isSilent segment = true) ∧
      (blanks = [] ∧ core ≠ [""] ∨ blanks = [""] ∧ core = [""]) ∧ core ≠ [] ∧
      nestingFrom first rest = ofNames (core ++ blanks) :: tail := by
  induction rest with
  | nil =>
      by_cases hfirst : first = ""
      · subst hfirst
        exact ⟨[""], [], [""], [], rfl, nofun, .inr ⟨rfl, rfl⟩, by simp, rfl⟩
      · refine ⟨[first], [], [], [], rfl, nofun, .inl ⟨rfl, by simpa using hfirst⟩, by simp, ?_⟩
        rw [nestingFrom, if_neg hfirst, List.append_nil]
        exact congrArg (· :: []) String.ofList_toList.symm
  | cons segment rest ih =>
      rw [nestingFrom]
      split
      · rename_i hsilent
        obtain ⟨core, silent, blanks, tail, hsegments, hall, hblanks, hne, hnesting⟩ := ih
        refine ⟨core, silent ++ [segment], blanks, tail, ?_, ?_, hblanks, hne, hnesting⟩
        · rw [List.reverse_cons, ← List.cons_append, hsegments, List.append_assoc]
        · exact List.forall_mem_append.mpr ⟨hall, List.forall_mem_singleton.mpr hsilent⟩
      · refine ⟨first :: (segment :: rest).reverse, [], [], nestingFrom first rest,
          (List.append_nil _).symm, nofun, .inl ⟨rfl, ?_⟩, List.cons_ne_nil _ _, ?_⟩
        · simp
        · rw [List.append_nil]

theorem ofNames_prefix {names : List String} (hne : names ≠ []) (more : List String) :
    (ofNames names).toList <+: (ofNames (names ++ more)).toList := by
  simp only [ofNames, String.toList_ofList, List.map_append]
  exact Text.join_prefix_append '/' (fun hnil => hne (List.map_eq_nil_iff.mp hnil)) _

/-- A path that leads where another one does, being the start of it. -/
structure Shortens (short path : String) : Prop where
  ne_empty : short ≠ ""
  begins : short.toList <+: path.toList
  isAbsolute_eq : isAbsolute short = isAbsolute path
  segments_eq : ∃ core silent blanks, segments path = core ++ silent ∧
    segments short = core ++ blanks ∧ (∀ segment ∈ silent, isSilent segment = true) ∧
    ∀ segment ∈ blanks, isSilent segment = true

/-- The first of the places that a path lies in is where the path leads. -/
theorem exists_nesting_eq {path : String} (h : path ≠ "") :
    ∃ short tail, nesting path = short :: tail ∧ Shortens short path := by
  obtain ⟨first, rest, hsegments⟩ := List.exists_cons_of_ne_nil (segments_ne_nil path)
  obtain ⟨core, silent, blanks, tail, hcore, hsilent, hblanks, hne, hnesting⟩ :=
    nestingFrom_eq first rest.reverse
  rw [List.reverse_reverse, ← hsegments] at hcore
  have hempty : ∀ segment ∈ blanks, segment = "" := by
    rcases hblanks with ⟨rfl, -⟩ | ⟨rfl, -⟩ <;> simp
  have hshort : segments (ofNames (core ++ blanks)) = core ++ blanks := by
    refine segments_ofNames_of_not_mem (by simp [hne]) fun name hmem => ?_
    rcases List.mem_append.mp hmem with hmem | hmem
    · exact not_slash_of_mem_segments (hcore ▸ List.mem_append_left silent hmem)
    · simp [hempty name hmem]
  have hshortNe : ofNames (core ++ blanks) ≠ "" := by
    intro hnil
    have hsame : core ++ blanks = [""] := by rw [← hshort, hnil]; rfl
    rcases hblanks with ⟨rfl, hcore'⟩ | ⟨rfl, rfl⟩
    · exact hcore' (by rwa [List.append_nil] at hsame)
    · exact absurd (congrArg List.length hsame) (by decide)
  have hhead : (core ++ blanks).head? = (core ++ silent).head? := by
    rw [List.head?_append_of_ne_nil core hne, List.head?_append_of_ne_nil core hne]
  have habsolute : isAbsolute (ofNames (core ++ blanks)) = isAbsolute path := by
    rw [Bool.eq_iff_iff, isAbsolute_iff_head?, isAbsolute_iff_head?, hshort, hcore, hhead]
    exact and_congr_right fun _ => iff_of_true hshortNe h
  refine ⟨ofNames (core ++ blanks), tail, ?_, hshortNe, ?_, habsolute, core, silent, blanks, hcore,
    hshort, hsilent, fun segment hmem => by rw [hempty segment hmem]; rfl⟩
  · rw [nesting, hsegments]
    simp only [if_neg h]
    exact hnesting
  · rcases hblanks with ⟨rfl, -⟩ | ⟨rfl, rfl⟩
    · rw [← ofNames_segments path, hcore, List.append_nil]
      exact ofNames_prefix hne silent
    · have hslash : isAbsolute path = true :=
        (isAbsolute_iff_head? path).mpr ⟨by rw [hcore]; rfl, h⟩
      obtain ⟨cs, hcs⟩ := List.head?_eq_some_iff.mp (of_decide_eq_true hslash)
      exact ⟨cs, hcs.symm⟩

end Path

namespace Disk

/-! ## Places that are there already -/

/-- A walk that ends in a directory may go on through segments that say
nothing, and need not. -/
theorem walk_append_silent {d : Disk} {start location : Location} {names silent : List String}
    (h : ∀ segment ∈ silent, Path.isSilent segment = true) (hholds : d.HoldsDirectory location) :
    d.walk start (names ++ silent) = .ok location ↔ d.walk start names = .ok location := by
  have hstay : d.walk location silent = .ok location := by
    induction silent with
    | nil => exact walk_nil d location
    | cons segment silent ih =>
        have hsegment := Path.isSilent_iff.mp (h segment List.mem_cons_self)
        rw [walk_cons_of_leads hholds (.stay hsegment)]
        exact ih fun other hmem => h other (List.mem_cons_of_mem segment hmem)
  rw [walk_append_eq_ok_iff]
  constructor
  · rintro ⟨place, hplace, hlast⟩
    rwa [← follow_of_walk hlast, follow_of_silent h]
  · intro hwalk
    exact ⟨location, hwalk, hstay⟩

theorem holdsDirectory_of_node? {d : Disk} {location : Location} {entries : List (String × Node)}
    (h : d.node? location = some (.directory entries)) : d.HoldsDirectory location := by
  rw [HoldsDirectory, h]
  rfl

theorem ensureNested_of_lookup {d : Disk} {path : String} {entries : List (String × Node)}
    (h : d.lookup path = .ok (.directory entries)) (outer : List String) :
    d.ensureNested (path :: outer) = (.ok (), d) := by
  obtain ⟨location, hlocate, hnode⟩ := lookup_eq_ok.mp h
  obtain ⟨hsound, hwalk⟩ := locate_eq_ok hlocate
  obtain ⟨blanks, hsegments, hblanks⟩ := exists_segments_eq path
  rw [hsegments, walk_append_silent (isSilent_of_forall_eq_empty hblanks)
    (holdsDirectory_of_node? hnode)] at hwalk
  have hthere : d.makeDirectory path = .error .alreadyExists := by
    unfold makeDirectory
    simp only [hsound]
    rw [hwalk]
    show (if (d.node? location).isSome then _ else _) = _
    rw [hnode]
    rfl
  have hdirectory : d.isDirectory path = true := by
    rw [isDirectory, h]
    rfl
  simp only [ensureNested, hthere, hdirectory, if_true]

theorem ensurePath_of_lookup {d : Disk} {path : String} {entries : List (String × Node)}
    (h : d.lookup path = .ok (.directory entries)) : d.ensurePath path = (.ok (), d) := by
  obtain ⟨location, hlocate, hnode⟩ := lookup_eq_ok.mp h
  obtain ⟨hsound, hwalk⟩ := locate_eq_ok hlocate
  have hholds := holdsDirectory_of_node? hnode
  obtain ⟨short, tail, hnesting, hshort⟩ :=
    Path.exists_nesting_eq (pathFault?_eq_none_iff.mp hsound).2.1
  obtain ⟨core, silent, blanks, hpath, hsegments, hsilent, hblanks⟩ := hshort.segments_eq
  have hlookup : d.lookup short = .ok (.directory entries) := by
    refine lookup_eq_ok.mpr ⟨location, ?_, hnode⟩
    rw [hpath, walk_append_silent hsilent hholds] at hwalk
    rw [locate, sound_of_prefix hshort.ne_empty hshort.begins hsound]
    simp only [start, hshort.isAbsolute_eq, hsegments]
    exact (walk_append_silent hblanks hholds).mpr hwalk
  rw [ensurePath, hnesting]
  exact ensureNested_of_lookup hlookup tail

/-! ## A name further -/

theorem walk_cons_of_leaf {d : Disk} {location : Location} {node : Node}
    (h : d.leaf? location = some node) (name : String) (names : List String) :
    d.walk location (name :: names) = .error .notADirectory := by
  obtain ⟨hnode, hleaf⟩ := Option.filter_eq_some_iff.mp h
  have hfound : d.node? location = some node := hnode
  rw [walk, hfound, walkFrom, if_pos hleaf]

theorem walk_cons_of_long {d : Disk} {location : Location} {name : String}
    (h : d.HoldsDirectory location) (hname : IsProper name) (hlong : maxName < name.utf8ByteSize)
    (names : List String) : d.walk location (name :: names) = .error .nameTooLong := by
  obtain ⟨node, hnode, hdirectory⟩ := (Option.any_eq_true _ _).mp h
  rw [walk, hnode, walkFrom, if_neg (by simp [hdirectory]), if_neg (not_or_intro hname.1 hname.2.1),
    if_neg hname.2.2, if_pos hlong]

/-- Where a walk fails otherwise than by something missing, making directories
does not help. -/
theorem walk_error_of_confined {d made : Disk} (hmade : Confined (fun _ => False) d made)
    {location : Location} {names : List String} {fault : Fault}
    (h : d.walk location names = .error fault) (hfault : fault ≠ .noEntry) :
    made.walk location names = .error fault := by
  induction names generalizing location with
  | nil =>
      rw [walk_nil] at h
      cases h
  | cons name names ih =>
      by_cases hholds : d.HoldsDirectory location
      · have hholds' := hmade.directory location hholds
        have hgoes {place : Location} (hleads : Leads location name place) :
            made.walk location (name :: names) = .error fault := by
          rw [walk_cons_of_leads hholds hleads] at h
          rw [walk_cons_of_leads hholds' hleads]
          exact ih h
        by_cases hstay : name = "" ∨ name = "."
        · exact hgoes (.stay hstay)
        · by_cases hup : name = ".."
          · exact hgoes (.up hup)
          · have hname : IsProper name :=
              ⟨fun h => hstay (.inl h), fun h => hstay (.inr h), hup⟩
            by_cases hlong : maxName < name.utf8ByteSize
            · rw [walk_cons_of_long hholds hname hlong] at h
              rw [walk_cons_of_long hholds' hname hlong, h]
            · exact hgoes (.down hname (Nat.not_lt.mp hlong))
      · cases hnode : d.node? location with
        | none =>
            rw [walk, hnode] at h
            exact absurd (Except.error.inj h).symm hfault
        | some node =>
            have hleaf : d.leaf? location = some node := by
              refine Option.filter_eq_some_iff.mpr ⟨hnode, ?_⟩
              rw [HoldsDirectory, hnode] at hholds
              simpa using hholds
            rw [walk_cons_of_leaf hleaf] at h
            rw [walk_cons_of_leaf ((hmade.leaf location not_false).trans hleaf), h]

section
variable {path name : String} (hname : Path.IsName name)
include hname

theorem trimSegments_append :
    trimSegments (Path.append path name) = Path.stem path ++ [name] := by
  rw [trimSegments, Path.segments_append (Path.not_isAbsolute_of_isName hname),
    Path.segments_of_isName hname, List.reverse_append, List.reverse_singleton,
    List.singleton_append, List.dropWhile_cons_of_neg (by simpa using hname.proper.1),
    List.reverse_cons, List.reverse_reverse]

theorem start_append (d : Disk) : d.start (Path.append path name) = d.start path := by
  rw [start, Path.isAbsolute_append (Path.not_isAbsolute_of_isName hname), start]

end

/-- The disk with a directory at a location, unless there is something. -/
def withDirectory (d : Disk) (location : Location) : Disk :=
  if (d.node? location).isSome then d else d.set location .empty

theorem walk_stem_of_lookup {d : Disk} {path : String} {node : Node} (h : d.lookup path = .ok node) :
    d.walk (d.start path) (Path.stem path) = .ok (d.place path) := by
  obtain ⟨location, hlocate, -⟩ := lookup_eq_ok.mp h
  rw [place_of_locate hlocate]
  exact walk_stem (locate_eq_ok hlocate).2

theorem lookup_of_walk_stem {d : Disk} {path : String} {location : Location}
    (hsound : pathFault? path = none)
    (hwalk : d.walk (d.start path) (Path.stem path) = .ok location)
    (hholds : d.HoldsDirectory location) : ∃ entries, d.lookup path = .ok (.directory entries) := by
  obtain ⟨node, hnode, hdirectory⟩ := (Option.any_eq_true _ _).mp hholds
  obtain ⟨blanks, hsegments, hblanks⟩ := Path.exists_segments_eq_stem path
  have hlocate : d.locate path = .ok location := by
    rw [locate, hsound, hsegments]
    exact (walk_append_silent (isSilent_of_forall_eq_empty hblanks) hholds).mpr hwalk
  cases node with
  | directory entries => exact ⟨entries, lookup_eq_ok.mpr ⟨location, hlocate, hnode⟩⟩
  | file contents => cases hdirectory

section
variable {d : Disk} {path name : String} {entries : List (String × Node)}
  (hpath : d.lookup path = .ok (.directory entries)) (hname : Path.IsPlain name)
  (hsound : pathFault? (Path.append path name) = none)
include hpath

theorem holdsDirectory_place : d.HoldsDirectory (d.place path) := by
  obtain ⟨location, hlocate, hnode⟩ := lookup_eq_ok.mp hpath
  rw [place_of_locate hlocate]
  exact holdsDirectory_of_node? hnode

theorem node?_place_name (name : String) :
    d.node? (d.place path ++ [name]) = entries.lookup name := by
  rw [node?_place_append hpath]
  show (entries.lookup name).bind some = _
  rw [Option.bind_fun_some]

include hname

theorem walk_append_name :
    d.walk (d.start path) (Path.stem path ++ [name]) = .ok (d.place path ++ [name]) := by
  refine walk_append_eq_ok_iff.mpr ⟨d.place path, walk_stem_of_lookup hpath, ?_⟩
  rw [walk_cons_of_leads (holdsDirectory_place hpath) (.down hname.isName.proper hname.short),
    walk_nil]

include hsound

theorem locate_append : d.locate (Path.append path name) = .ok (d.place path ++ [name]) := by
  rw [locate, hsound, start_append hname.isName,
    Path.segments_append (Path.not_isAbsolute_of_isName hname.isName),
    Path.segments_of_isName hname.isName]
  exact walk_append_name hpath hname

theorem makeDirectory_append :
    d.makeDirectory (Path.append path name) =
      if (entries.lookup name).isSome then .error .alreadyExists
      else .ok (d.set (d.place path ++ [name]) .empty) := by
  unfold makeDirectory
  simp only [hsound]
  rw [start_append hname.isName, trimSegments_append hname.isName, walk_append_name hpath hname]
  show (if (d.node? (d.place path ++ [name])).isSome then _ else _) = _
  rw [node?_place_name hpath]
  rfl

section
variable (hchild : ∀ child, entries.lookup name = some child → child.isDirectory = true)
include hchild

theorem isDirectory_append {child : Node} (h : entries.lookup name = some child) :
    d.isDirectory (Path.append path name) = true := by
  have hthere : d.lookup (Path.append path name) = .ok child :=
    lookup_eq_ok.mpr ⟨_, locate_append hpath hname hsound, (node?_place_name hpath name).trans h⟩
  rw [isDirectory, hthere]
  exact hchild child h

theorem ensureDirectory_append :
    d.ensureDirectory (Path.append path name) =
      .ok (d.withDirectory (d.place path ++ [name])) := by
  rw [ensureDirectory, makeDirectory_append hpath hname hsound, withDirectory, node?_place_name hpath]
  cases hlookup : entries.lookup name with
  | none => rfl
  | some child =>
      simp only [Option.isSome_some, if_true, isDirectory_append hpath hname hsound hchild hlookup]

theorem ensureNested_append (outer : List String) :
    d.ensureNested (Path.append path name :: outer) =
      (.ok (), d.withDirectory (d.place path ++ [name])) := by
  rw [ensureNested, makeDirectory_append hpath hname hsound, withDirectory, node?_place_name hpath]
  cases hlookup : entries.lookup name with
  | none => rfl
  | some child =>
      simp only [Option.isSome_some, if_true, isDirectory_append hpath hname hsound hchild hlookup]

end

end

/-- What can be made a directory can be made a directory with another in it,
unless there is something else. -/
theorem ensurePath_append {d made : Disk} {path name : String} {entries : List (String × Node)}
    (hmade : d.ensurePath path = (.ok (), made))
    (hpath : made.lookup path = .ok (.directory entries)) (hname : Path.IsPlain name)
    (hsound : pathFault? (Path.append path name) = none)
    (hchild : ∀ child, entries.lookup name = some child → child.isDirectory = true) :
    d.ensurePath (Path.append path name) =
      (.ok (), made.withDirectory (made.place path ++ [name])) := by
  have hrootSound := pathFault?_of_lookup hpath
  have hne : path ≠ "" := (pathFault?_eq_none_iff.mp hrootSound).2.1
  rw [ensurePath, Path.nesting_append hne hname.isName]
  cases hwalk : d.walk (d.start path) (Path.stem path ++ [name]) with
  | ok location =>
      -- the place was there already, and nothing was made for it
      obtain ⟨place, hplace, hlast⟩ := walk_append_eq_ok_iff.mp hwalk
      obtain ⟨hholds, -⟩ := walk_cons_eq_ok_iff.mp hlast
      obtain ⟨there, hthere⟩ := lookup_of_walk_stem hrootSound hplace hholds
      rw [ensurePath_of_lookup hthere] at hmade
      obtain rfl := (Prod.mk.inj hmade).2
      exact ensureNested_append hpath hname hsound hchild _
  | error fault =>
      have hnested : d.ensureNested (Path.nesting path) = (.ok (), made) := hmade
      have hconfined : Confined (fun _ => False) d made := by
        have hall := d.confined_ensureNested (Path.nesting path)
        rwa [hnested] at hall
      have hmissing : fault = .noEntry := by
        by_contra hfault
        have hfails := walk_error_of_confined hconfined hwalk hfault
        have hstart : d.start path = made.start path := by
          rw [start, ← hconfined.current, start]
        rw [hstart, walk_append_name hpath hname] at hfails
        cases hfails
      have hmake : d.makeDirectory (Path.append path name) = .error .noEntry := by
        unfold makeDirectory
        simp only [hsound]
        rw [trimSegments_append hname.isName, start_append hname.isName, hwalk, hmissing]
        rfl
      simp only [ensureNested, hmake, hnested, ensureDirectory_append hpath hname hsound hchild]

/-! ## Names further -/

theorem set_withDirectory {d : Disk} {location : Location} {name : String} (new : Node) :
    (d.withDirectory location).set (location ++ [name]) new = d.set (location ++ [name]) new := by
  rw [withDirectory]
  split
  · rfl
  · rename_i hnone
    exact congrArg (Disk.mk · d.current d.limits)
      (Node.put_put_append (Option.not_isSome_iff_eq_none.mp hnone) [name] new)

theorem node?_withDirectory_append (d : Disk) (location : Location) (name : String) :
    (d.withDirectory location).node? (location ++ [name]) = d.node? (location ++ [name]) := by
  rw [withDirectory]
  split
  · rfl
  · rename_i hnone
    rw [node?_append, node?_set, node?_append, Option.not_isSome_iff_eq_none.mp hnone]
    rfl

theorem withDirectory_withDirectory (d : Disk) (location : Location) (name : String) :
    (d.withDirectory location).withDirectory (location ++ [name]) =
      d.withDirectory (location ++ [name]) := by
  by_cases hsome : (d.node? (location ++ [name])).isSome
  · have houter : d.withDirectory location = d := by
      obtain ⟨child, hchild⟩ := Option.isSome_iff_exists.mp hsome
      rw [node?_append] at hchild
      obtain ⟨node, hnode, -⟩ := Option.bind_eq_some_iff.mp hchild
      rw [withDirectory, hnode]
      rfl
    rw [houter]
  · rw [withDirectory, node?_withDirectory_append, if_neg hsome, set_withDirectory, withDirectory,
      if_neg hsome]

theorem current_withDirectory (d : Disk) (location : Location) :
    (d.withDirectory location).current = d.current := by
  rw [withDirectory]
  split
  · rfl
  · rfl

theorem hasRoom_withDirectory_iff {d : Disk} {top location : Location} {count : Nat} :
    (d.withDirectory top).HasRoom location count ↔ d.HasRoom location count := by
  unfold withDirectory
  split
  · rfl
  · rfl

theorem place_withDirectory (d : Disk) (location : Location) (path : String) :
    (d.withDirectory location).place path = d.place path := by
  rw [place, start, current_withDirectory]
  rfl

theorem holdsDirectory_withDirectory {d : Disk} {location place : Location}
    (h : d.HoldsDirectory place) : (d.withDirectory location).HoldsDirectory place := by
  rw [withDirectory]
  split
  · exact h
  · rename_i hnone
    refine holdsDirectory_set ?_ h
    rw [HoldsDirectory, Option.not_isSome_iff_eq_none.mp hnone]
    exact Bool.false_ne_true

theorem lookup_withDirectory {d : Disk} {path name : String} {entries : List (String × Node)}
    (hpath : d.lookup path = .ok (.directory entries)) (hname : Path.IsPlain name)
    (hsound : pathFault? (Path.append path name) = none)
    (hchild : ∀ child, entries.lookup name = some child → child.isDirectory = true) :
    ∃ lower, (d.withDirectory (d.place path ++ [name])).lookup (Path.append path name) =
      .ok (.directory lower) := by
  have hlocate : (d.withDirectory (d.place path ++ [name])).locate (Path.append path name) =
      .ok (d.place path ++ [name]) := by
    obtain ⟨-, hwalk⟩ := locate_eq_ok (locate_append hpath hname hsound)
    rw [locate, hsound, start, current_withDirectory]
    exact walk_mono (fun place => holdsDirectory_withDirectory) hwalk
  have hnode : ∃ lower, (d.withDirectory (d.place path ++ [name])).node?
      (d.place path ++ [name]) = some (.directory lower) := by
    rw [withDirectory]
    split
    · rename_i hsome
      obtain ⟨child, hthere⟩ := Option.isSome_iff_exists.mp hsome
      have hdirectory := hchild child ((node?_place_name hpath name).symm.trans hthere)
      cases child with
      | directory lower => exact ⟨lower, hthere⟩
      | file contents => cases hdirectory
    · exact ⟨[], node?_set _ _ _⟩
  obtain ⟨lower, hnode⟩ := hnode
  exact ⟨lower, lookup_eq_ok.mpr ⟨_, hlocate, hnode⟩⟩

theorem place_descend (d : Disk) (path : String) {names : List String}
    (h : ∀ name ∈ names, Path.IsName name) :
    d.place (Path.descend path names) = d.place path ++ names := by
  by_cases hne : names = []
  · rw [hne, List.append_nil]
    rfl
  · rw [Path.descend_eq_append hne h, place_append d path hne h]

theorem lookup_of_withDirectory {d : Disk} {path : String} {top : Node} {names : Location}
    (hpath : d.lookup path = .ok top) (hnames : ∀ name ∈ names, Path.IsName name)
    {entries : List (String × Node)}
    (hlookup : (d.withDirectory (d.place path ++ names)).lookup (Path.descend path names) =
      .ok (.directory entries)) (name : String) :
    entries.lookup name = top.at? (names ++ [name]) := by
  rw [← node?_place_name hlookup, place_withDirectory, place_descend d path hnames,
    node?_withDirectory_append, List.append_assoc, node?_place_append hpath]

/-- A directory can be made any number of names below one that can be made, if
there are only directories on the way. -/
theorem ensurePath_descend {d made : Disk} {path : String} {top : Node} {names : List String}
    (hmade : d.ensurePath path = (.ok (), made)) (hpath : made.lookup path = .ok top)
    (hnames : ∀ name ∈ names, Path.IsPlain name)
    (hsound : pathFault? (Path.descend path names) = none) {last : String}
    (hclear : top.Clear (names ++ [last])) :
    d.ensurePath (Path.descend path names) =
        (.ok (), made.withDirectory (made.place path ++ names)) ∧
      ∃ entries, (made.withDirectory (made.place path ++ names)).lookup (Path.descend path names) =
        .ok (.directory entries) := by
  induction names using List.reverseRecOn generalizing last with
  | nil =>
      have hthere : made.node? (made.place path ++ []) = some top := node?_place_append hpath []
      have hkept : made.withDirectory (made.place path ++ []) = made := by
        rw [withDirectory, hthere]
        rfl
      rw [hkept]
      refine ⟨hmade, ?_⟩
      cases top with
      | directory entries => exact ⟨entries, hpath⟩
      | file contents => exact absurd hclear.1 Bool.false_ne_true
  | append_singleton front name ih =>
      obtain ⟨hfront, hname⟩ := List.forall_mem_append.mp hnames
      have hname : Path.IsPlain name := hname name List.mem_cons_self
      have hfrontName : ∀ name ∈ front, Path.IsName name := fun name hmem => (hfront name hmem).isName
      obtain ⟨hclear, hthere⟩ := Node.clear_append_iff.mp hclear
      have hne : path ≠ "" := (pathFault?_eq_none_iff.mp (pathFault?_of_lookup hpath)).2.1
      obtain ⟨hfirst, entries, hlookup⟩ := ih hfront
        (sound_descend hne (fun name hmem => (hnames name hmem).isName) hsound) hclear
      have hstep : Path.descend path (front ++ [name]) =
          Path.append (Path.descend path front) name := List.foldl_append
      have hplace : (made.withDirectory (made.place path ++ front)).place
          (Path.descend path front) = made.place path ++ front :=
        (place_withDirectory made _ _).trans (made.place_descend path hfrontName)
      have hchild : ∀ child, entries.lookup name = some child → child.isDirectory = true := by
        intro child hchild
        rw [lookup_of_withDirectory hpath hfrontName hlookup] at hchild
        exact (hthere child hchild).1
      rw [hstep] at hsound ⊢
      have hsecond := ensurePath_append hfirst hlookup hname hsound hchild
      have hfound := lookup_withDirectory hlookup hname hsound hchild
      rw [hplace, withDirectory_withDirectory, List.append_assoc] at hsecond hfound
      exact ⟨hsecond, hfound⟩

theorem writeFile_append {d : Disk} {path name : String} {entries : List (String × Node)}
    (hpath : d.lookup path = .ok (.directory entries)) (hname : Path.IsPlain name)
    (hsound : pathFault? (Path.append path name) = none)
    (hchild : ∀ child, entries.lookup name = some child → ∃ before, child = .file before)
    {contents : Bytes} (hroom : d.HasRoom (d.place path ++ [name]) contents.length) :
    d.writeFile (Path.append path name) contents =
      (.ok (), d.set (d.place path ++ [name]) (.file contents)) := by
  have hslash : endsInSlash (Path.append path name) = false := by
    refine decide_eq_false fun hlast => ?_
    obtain ⟨front, -, hsegments⟩ := Path.exists_segments_of_slash hlast
    rw [Path.segments_append (Path.not_isAbsolute_of_isName hname.isName),
      Path.segments_of_isName hname.isName] at hsegments
    exact hname.isName.proper.1 (List.cons.inj (List.append_inj_right' hsegments rfl)).1
  have hlast : d.walk (d.place path) [name] = .ok (d.place path ++ [name]) := by
    rw [walk_cons_of_leads (holdsDirectory_place hpath)
      (.down hname.isName.proper hname.short), walk_nil]
  have hdot : d.walk (d.start path) (Path.stem path ++ ["."]) = .ok (d.place path) :=
    (walk_append_silent (by simp [Path.isSilent]) (holdsDirectory_place hpath)).mpr
      (walk_stem_of_lookup hpath)
  have hfree : (d.node? (d.place path ++ [name])).any Node.isDirectory = false := by
    rw [node?_place_name hpath]
    cases hlookup : entries.lookup name with
    | none => rfl
    | some child =>
        obtain ⟨before, rfl⟩ := hchild child hlookup
        rfl
  have htarget : d.target (Path.append path name) = .ok (d.place path ++ [name]) := by
    unfold target
    simp only [hsound, trimSegments_append hname.isName, start_append hname.isName,
      List.dropLast_concat, List.getLast?_concat, Option.toList_some, hdot, hslash]
    refine bind_eq_ok.mpr ⟨_, rfl, ?_⟩
    rw [if_neg Bool.false_ne_true]
    refine bind_eq_ok.mpr ⟨_, hlast, ?_⟩
    rw [hfree]
    rfl
  exact writeFile_of_target htarget hroom

end Disk

end SealedModules
