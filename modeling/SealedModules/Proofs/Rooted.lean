/-
# Where a module's file is looked for

The file of a module is looked for at a path that its name makes, put after a
root.  A name without two dots side by side makes a path whose segments lead
nowhere but down (`exists_segments_toPath`): its dots have become slashes, and
the one dot that comes with the extension does not stand alone.

But a slash at the start makes a path absolute, and such a path takes the place
of the root instead of going behind it.  So the path stays below its root just
if the name starts with neither a slash nor a dot.  A name that is nothing but
the dot and the extension is the exception: nothing is left of it but the ending
(`isAbsolute_toPath_iff`).  No asset leaves its root in this way.
-/
import SealedModules.Finding.ModuleName
import SealedModules.Proofs.AssetPath
import SealedModules.Proofs.Places
import SealedModules.Settings

namespace SealedModules

/-! ## Segments that lead down -/

namespace Path

/-- The segments that say something. -/
def spoken (segments : List String) : List String := segments.filter fun segment => !isSilent segment

theorem spoken_cons_of_silent {segment : String} (h : segment = "" ∨ segment = ".")
    (rest : List String) : spoken (segment :: rest) = spoken rest := by
  rw [spoken, List.filter_cons_of_neg, spoken]
  rw [isSilent_iff.mpr h]
  exact Bool.false_ne_true

theorem spoken_cons {segment : String} (h : ¬ (segment = "" ∨ segment = "."))
    (rest : List String) : spoken (segment :: rest) = segment :: spoken rest := by
  rw [spoken, List.filter_cons_of_pos, spoken]
  rw [Bool.eq_false_iff.mpr fun hsilent => h (isSilent_iff.mp hsilent)]
  rfl

theorem mem_spoken_iff {segments : List String} {segment : String} :
    segment ∈ spoken segments ↔ segment ∈ segments ∧ segment ≠ "" ∧ segment ≠ "." := by
  rw [spoken, List.mem_filter, Bool.not_eq_true', Bool.eq_false_iff, Ne, isSilent_iff, not_or]

theorem isName_of_mem_spoken {path name : String} (hdown : ".." ∉ segments path)
    (h : name ∈ spoken (segments path)) : IsName name := by
  obtain ⟨hmem, hempty, hdot⟩ := mem_spoken_iff.mp h
  have hup : name ≠ ".." := fun heq => hdown (heq ▸ hmem)
  exact ⟨⟨hempty, hdot, hup⟩, not_slash_of_mem_segments hmem⟩

theorem filterMap_ofSegment? {segments : List String} (hdown : ".." ∉ segments) :
    segments.filterMap Component.ofSegment? = (spoken segments).map .name := by
  induction segments with
  | nil => rfl
  | cons segment rest ih =>
      have hup : segment ≠ ".." := fun heq => hdown (heq ▸ List.mem_cons_self)
      have hrest := ih fun hmem => hdown (List.mem_cons_of_mem segment hmem)
      by_cases hsilent : segment = "" ∨ segment = "."
      · have hnone : Component.ofSegment? segment = none := if_pos hsilent
        rw [List.filterMap_cons_none hnone, spoken_cons_of_silent hsilent]
        exact hrest
      · have hname : Component.ofSegment? segment = some (.name segment) := by
          rw [Component.ofSegment?, if_neg hsilent, if_neg hup]
        rw [List.filterMap_cons_some hname, spoken_cons hsilent, hrest]
        rfl

/-- A path says what another says, and then more. -/
def Below (base path : String) : Prop :=
  ∃ more, more ≠ [] ∧ components path = components base ++ more

end Path

namespace Disk

theorem isProper_of_mem {name : String} {c : Char} (hmem : c ∈ name.toList) (hdot : c ≠ '.') :
    IsProper name := by
  refine ⟨?_, ?_, ?_⟩
  · rintro rfl
    cases hmem
  · rintro rfl
    exact hdot (List.mem_singleton.mp hmem)
  · rintro rfl
    rcases List.mem_cons.mp hmem with heq | hmem
    · exact hdot heq
    · exact hdot (List.mem_singleton.mp hmem)

/-- Segments that do not lead up lead down through the names they speak. -/
theorem follow_eq_append_spoken {segments : List String} (hdown : ".." ∉ segments)
    (place : Location) : follow place segments = place ++ Path.spoken segments := by
  induction segments generalizing place with
  | nil => exact (List.append_nil place).symm
  | cons segment rest ih =>
      have hup : segment ≠ ".." := fun heq => hdown (heq ▸ List.mem_cons_self)
      have hrest := ih fun hmem => hdown (List.mem_cons_of_mem segment hmem)
      rw [follow, List.foldl_cons, step]
      by_cases hsilent : segment = "" ∨ segment = "."
      · rw [if_pos hsilent, Path.spoken_cons_of_silent hsilent]
        exact hrest place
      · rw [if_neg hsilent, if_neg hup, Path.spoken_cons hsilent]
        exact (hrest (place ++ [segment])).trans (List.append_assoc _ _ _)

end Disk

theorem Settings.isBareExtension_iff {extension : String} : isBareExtension extension = true ↔
    extension ≠ "" ∧ ∀ c ∈ extension.toList, c ≠ '.' ∧ c ≠ '/' ∧ c ≠ '\\' := by
  simp [isBareExtension, and_assoc]

namespace ModuleName

/-! ## The path that a name makes -/

theorem toList_ending (extension : String) :
    ("." ++ extension).toList = '.' :: extension.toList := by
  rw [String.toList_append]
  rfl

/-- What a name makes of itself before the ending: the extension is left out,
and dots become slashes. -/
theorem toPath_eq {name : String} (hname : Text.hasDoubleDot name.toList = false)
    (extension : String) :
    ∃ stem, (name.toList = stem ∧ name ≠ "." ++ extension ∨
        name.toList = stem ++ '.' :: extension.toList) ∧
      (toPath name extension).toList = Text.replace '.' '/' stem ++ '.' :: extension.toList := by
  obtain ⟨ending, hending⟩ : ∃ ending, '.' :: extension.toList = ending := ⟨_, rfl⟩
  obtain ⟨stem, hstem⟩ : ∃ stem, (Text.dropEnd? ending name.toList).getD name.toList = stem :=
    ⟨_, rfl⟩
  have hsplits : name.toList = stem ∧ name ≠ "." ++ extension ∨ name.toList = stem ++ ending := by
    cases hdrop : Text.dropEnd? ending name.toList with
    | none =>
        rw [hdrop] at hstem
        refine .inl ⟨hstem, fun heq => ?_⟩
        have hself : name.toList = [] ++ ending := by rw [heq, toList_ending, hending, List.nil_append]
        rw [hself, Text.dropEnd?_append] at hdrop
        cases hdrop
    | some rest =>
        rw [hdrop] at hstem
        obtain rfl : rest = stem := hstem
        exact .inr (Text.dropEnd?_eq_some hdrop)
  have hdots : ¬ Text.hasDoubleDot stem = true := by
    intro hdots
    have hbegins : stem <+: name.toList := by
      rcases hsplits with ⟨heq, -⟩ | heq
      · exact heq ▸ List.prefix_rfl
      · exact heq ▸ List.prefix_append _ _
    have hinfix := (Text.hasDoubleDot_iff.mp hdots).trans hbegins.isInfix
    exact absurd (Text.hasDoubleDot_iff.mpr hinfix) (Bool.eq_false_iff.mp hname)
  refine ⟨stem, hending ▸ hsplits, ?_⟩
  simp only [toPath, hending, hstem, if_neg hdots, String.toList_ofList]

/-- A name starts with a slash, or with a dot that is not the one before the
extension. -/
def StartsAtTop (name extension : String) : Prop :=
  name.toList.head? = some '/' ∨ name.toList.head? = some '.' ∧ name ≠ "." ++ extension

instance (name extension : String) : Decidable (StartsAtTop name extension) :=
  inferInstanceAs (Decidable (_ ∨ _ ∧ _))

theorem isAbsolute_toPath_iff {name : String} (hname : Text.hasDoubleDot name.toList = false)
    (extension : String) :
    Path.isAbsolute (toPath name extension) = true ↔ StartsAtTop name extension := by
  obtain ⟨stem, hstem, hpath⟩ := toPath_eq hname extension
  rw [Path.isAbsolute, decide_eq_true_iff, hpath, StartsAtTop]
  cases stem with
  | nil =>
      have hdot : ('.' :: extension.toList).head? ≠ some '/' := by simp
      refine iff_of_false hdot ?_
      rcases hstem with ⟨hempty, -⟩ | hself
      · rw [hempty]
        simp
      · have hname : name = "." ++ extension :=
          String.toList_injective (hself.trans (toList_ending extension).symm)
        rw [hself, hname]
        simp
  | cons c stem =>
      have hhead : name.toList.head? = some c := by
        rcases hstem with ⟨heq, -⟩ | heq
        · rw [heq]
          rfl
        · rw [heq]
          rfl
      have hother : name ≠ "." ++ extension := by
        rcases hstem with ⟨-, hne⟩ | heq
        · exact hne
        · intro hname
          have hlength := congrArg List.length heq
          simp only [hname, toList_ending, List.length_append, List.length_cons] at hlength
          omega
      have hfirst : (Text.replace '.' '/' (c :: stem) ++ '.' :: extension.toList).head? =
          some (if c = '.' then '/' else c) := rfl
      rw [hhead, hfirst, Option.some_inj, Option.some_inj, Option.some_inj, and_iff_left hother]
      by_cases hdot : c = '.'
      · rw [if_pos hdot]
        exact iff_of_true rfl (.inr hdot)
      · rw [if_neg hdot, or_iff_left hdot]

section

variable {name extension : String} (hname : Text.hasDoubleDot name.toList = false)
  (hextension : Settings.isBareExtension extension = true)
include hname hextension

/-- Only the last segment of the path has a dot, and it is a proper one. -/
theorem exists_segments_toPath :
    ∃ front last, Path.segments (toPath name extension) = front ++ [last] ∧
      (∀ segment ∈ front, '.' ∉ segment.toList) ∧ Disk.IsProper last := by
  obtain ⟨hempty, hbare⟩ := Settings.isBareExtension_iff.mp hextension
  obtain ⟨stem, -, hpath⟩ := toPath_eq hname extension
  obtain ⟨front, last, hsplit⟩ := (List.eq_nil_or_concat' (Text.split '/'
    (Text.replace '.' '/' stem))).resolve_left (Text.split_ne_nil _ _)
  have hending : '/' ∉ '.' :: extension.toList := by
    rw [List.mem_cons]
    exact not_or_intro (by decide) fun hmem => (hbare '/' hmem).2.1 rfl
  have hsegments := Text.split_append_of_not_mem hsplit hending
  refine ⟨front.map String.ofList, String.ofList (last ++ '.' :: extension.toList), ?_, ?_, ?_⟩
  · rw [Path.segments, hpath, hsegments, List.map_append]
    rfl
  · intro segment hmem
    obtain ⟨piece, hpiece, rfl⟩ := List.mem_map.mp hmem
    have hpiece : piece ∈ Text.split '/' (Text.replace '.' '/' stem) :=
      hsplit ▸ List.mem_append_left [last] hpiece
    rw [String.toList_ofList]
    intro hdot
    exact AssetPath.not_mem_replace '.' '/' (by decide) stem (Text.mem_of_mem_split hpiece hdot)
  · -- the extension has a character, and that is not a dot
    obtain ⟨c, rest, hchars⟩ := List.exists_cons_of_ne_nil fun hnil =>
      hempty (String.toList_eq_nil_iff.mp hnil)
    have hmem : c ∈ (String.ofList (last ++ '.' :: extension.toList)).toList := by
      rw [String.toList_ofList, hchars]
      simp
    exact Disk.isProper_of_mem hmem (hbare c (hchars ▸ List.mem_cons_self)).1

theorem not_parent_mem_toPath : ".." ∉ Path.segments (toPath name extension) := by
  obtain ⟨front, last, hsegments, hfront, hlast⟩ := exists_segments_toPath hname hextension
  rw [hsegments, List.mem_append, List.mem_singleton]
  rintro (hmem | heq)
  · exact hfront ".." hmem (by decide)
  · exact hlast.2.2 heq.symm

theorem head_toPath_ne_here : (Path.segments (toPath name extension)).head? ≠ some "." := by
  obtain ⟨front, last, hsegments, hfront, hlast⟩ := exists_segments_toPath hname hextension
  intro hhead
  have hmem := List.mem_of_head? hhead
  rw [hsegments, List.mem_append, List.mem_singleton] at hmem
  rcases hmem with hmem | heq
  · exact hfront "." hmem (by decide)
  · exact hlast.2.1 heq.symm

theorem spoken_toPath_ne_nil : Path.spoken (Path.segments (toPath name extension)) ≠ [] := by
  obtain ⟨front, last, hsegments, -, hlast⟩ := exists_segments_toPath hname hextension
  have hspoken : last ∈ Path.spoken (Path.segments (toPath name extension)) := by
    rw [Path.mem_spoken_iff, hsegments]
    exact ⟨List.mem_append_right front List.mem_cons_self, hlast.1, hlast.2.1⟩
  exact List.ne_nil_of_mem hspoken

end

/-! ## The law of roots -/

/-- Below any root, the file of a name without two dots side by side is looked
for down from it, through the names that its path speaks, unless the name starts
with a slash or with a dot that is not the one before the extension.  Such a
name makes an absolute path, and that is where its file is looked for, whatever
the root: these are the names that do not stay below every root. -/
theorem file_path_below_every_root_iff {name extension : String}
    (hname : Text.hasDoubleDot name.toList = false)
    (hextension : Settings.isBareExtension extension = true) :
    let relative := toPath name extension
    let names := Path.spoken (Path.segments relative)
    (Path.isAbsolute relative = true ↔ StartsAtTop name extension) ∧
      (StartsAtTop name extension → ∀ root, filePath (some root) name extension = relative) ∧
      (¬ StartsAtTop name extension → names ≠ [] ∧ (∀ piece ∈ names, Path.IsName piece) ∧
        ∀ root, Path.components (filePath (some root) name extension) =
            Path.components root ++ names.map .name ∧
          ∀ disk : Disk, disk.place (filePath (some root) name extension) =
            disk.place root ++ names) ∧
      ((∀ root, Path.Below root (filePath (some root) name extension)) ↔
        ¬ StartsAtTop name extension) := by
  intro relative names
  have hdown : ".." ∉ Path.segments relative := not_parent_mem_toPath hname hextension
  have hnames : names ≠ [] := spoken_toPath_ne_nil hname hextension
  have habsolute := isAbsolute_toPath_iff hname extension
  have hescapes : StartsAtTop name extension → ∀ root,
      filePath (some root) name extension = relative := by
    intro htop root
    exact if_pos (.inl (habsolute.mpr htop))
  have hrelative : ¬ StartsAtTop name extension → Path.isAbsolute relative = false := fun htop =>
    Bool.eq_false_iff.mpr fun habs => htop (habsolute.mp habs)
  have hstays : ¬ StartsAtTop name extension → ∀ root,
      Path.components (filePath (some root) name extension) =
        Path.components root ++ names.map .name := by
    intro htop root
    have hhere := head_toPath_ne_here hname hextension
    exact (Path.components_append (hrelative htop) hhere).trans
      (congrArg _ (Path.filterMap_ofSegment? hdown))
  refine ⟨habsolute, hescapes, fun htop => ⟨hnames, ?_, fun root => ⟨hstays htop root, ?_⟩⟩, ?_⟩
  · exact fun _ hmem => Path.isName_of_mem_spoken hdown hmem
  · intro disk
    exact (disk.place_append_eq_follow root (hrelative htop)).trans
      (Disk.follow_eq_append_spoken hdown _)
  · constructor
    · intro hbelow htop
      -- a path that speaks a name is not below one that starts at the top
      obtain ⟨more, -, hmore⟩ := hbelow "root"
      rw [hescapes htop, Path.components, if_pos (habsolute.mpr htop)] at hmore
      cases hmore
    · intro htop root
      exact ⟨names.map .name, fun hnil => hnames (List.map_eq_nil_iff.mp hnil), hstays htop root⟩

/-- The law at a root with a slash at its end. -/
theorem file_path_below_scripts :
    Text.hasDoubleDot "ui.list.lua".toList = false ∧ Settings.isBareExtension "lua" = true ∧
      ¬ StartsAtTop "ui.list.lua" "lua" ∧
      filePath (some "scripts/") "ui.list.lua" "lua" = "scripts/ui/list.lua" ∧
      Path.Below "scripts/" (filePath (some "scripts/") "ui.list.lua" "lua") := by
  have hname : Text.hasDoubleDot "ui.list.lua".toList = false := by decide
  have hextension : Settings.isBareExtension "lua" = true := by decide
  have htop : ¬ StartsAtTop "ui.list.lua" "lua" := by decide
  obtain ⟨-, -, -, hiff⟩ := file_path_below_every_root_iff hname hextension
  exact ⟨hname, hextension, htop, by decide +kernel, hiff.mpr htop "scripts/"⟩

/-- A name that starts with a dot leads out of its root, where the asset of that
name stays below it. -/
theorem file_path_of_leading_dot_leaves_root :
    Text.hasDoubleDot ".x".toList = false ∧ Settings.isBareExtension "lua" = true ∧
      filePath (some "scripts") ".x" "lua" = "/x.lua" ∧
      assetPath (some "scripts") ".x" "lua" = "scripts/x.lua" ∧
      ¬ Path.Below "scripts" (filePath (some "scripts") ".x" "lua") := by
  have hpath : filePath (some "scripts") ".x" "lua" = "/x.lua" := by decide
  refine ⟨by decide, by decide, hpath, by decide, ?_⟩
  rintro ⟨more, -, hmore⟩
  have htop : Path.components "/x.lua" = [.root, .name "x.lua"] := by decide
  have hroot : Path.components "scripts" = [.name "scripts"] := by decide
  rw [hpath, htop, hroot] at hmore
  cases hmore

end ModuleName

end SealedModules
