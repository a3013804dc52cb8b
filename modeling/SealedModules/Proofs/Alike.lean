/-
# Disks that show the same

Of a directory a path only asks whether it is one, so the order of its entries
counts for nothing.  Two disks are alike if they show the same at every place,
a directory as no more than a directory.  Every path then leads to the same
place on both, or fails with the same fault (`Alike.locate`), a file is read
alike, and a file written to both keeps them alike (`Targeted.alike_set`).

A file is written at a path just if the path is `Targeted` (`target_eq_ok_iff`),
and then shows at its place and nowhere else (`Targeted.shows?_set`).  So
whatever could be read or written elsewhere still can.
-/
import SealedModules.Proofs.Places

namespace SealedModules

/-! ## Nodes -/

namespace Node

/-- A node without what lies in it. -/
def bare : Node → Node
  | .directory _ => .empty
  | node => node

theorem isDirectory_bare (node : Node) : node.bare.isDirectory = node.isDirectory := by
  cases node with
  | directory entries => rfl
  | file contents => rfl

theorem map_bare_of_isDirectory {found : Option Node} (h : found.any isDirectory = true) :
    found.map bare = some .empty := by
  obtain ⟨node, rfl, hdirectory⟩ := (Option.any_eq_true _ _).mp h
  cases node with
  | directory entries => rfl
  | file contents => cases hdirectory

theorem map_bare_at?_put {node : Node} {parent place : Location} {name : String}
    (hparent : (node.at? parent).any isDirectory = true)
    (hfree : (node.at? (parent ++ [name])).any isDirectory = false) (contents : Bytes) :
    ((node.put (parent ++ [name]) (.file contents)).at? place).map bare =
      if place = parent ++ [name] then some (.file contents)
      else (node.at? place).map bare := by
  -- on the way to the directory; a place leaves the way, or is on it and a directory
  induction parent generalizing node place with
  | nil =>
      have hnode : node.isDirectory = true := hparent
      cases place with
      | nil =>
          have hhere : (node.at? []).any isDirectory = true := hnode
          rw [if_neg (by simp), map_bare_of_isDirectory hhere]
          rfl
      | cons step steps =>
          by_cases hstep : step = name
          · subst hstep
            simp only [List.nil_append, put, at?, child?_withChild, if_pos, Option.bind_some,
              List.cons.injEq, true_and] at hfree ⊢
            cases steps with
            | nil => rfl
            | cons next rest =>
                rw [if_neg (List.cons_ne_nil next rest)]
                cases hchild : node.child? step with
                | none => rfl
                | some child =>
                    rw [hchild] at hfree
                    rw [Option.bind_some, at?_of_not_isDirectory hfree]
                    rfl
          · have hne : step :: steps ≠ [name] := fun h => hstep (List.cons.inj h).1
            simp only [List.nil_append, put, at?, child?_withChild, if_neg hstep, if_neg hne]
  | cons first rest ih =>
      obtain ⟨found, hfound, hdirectory⟩ := (Option.any_eq_true _ _).mp hparent
      obtain ⟨child, hchild, hbelow⟩ := Option.bind_eq_some_iff.mp hfound
      cases place with
      | nil =>
          have hhere : (node.at? []).any isDirectory = true := isDirectory_of_child? hchild
          rw [if_neg (by simp), map_bare_of_isDirectory hhere]
          rfl
      | cons step steps =>
          by_cases hstep : step = first
          · subst hstep
            rw [List.cons_append, at?, hchild] at hfree
            simp only [List.cons_append, put, at?, child?_withChild, if_pos, Option.bind_some,
              hchild, Option.getD_some, List.cons.injEq, true_and]
            exact ih ((Option.any_eq_true _ _).mpr ⟨found, hbelow, hdirectory⟩) hfree
          · have hne : step :: steps ≠ first :: (rest ++ [name]) := fun h =>
              hstep (List.cons.inj h).1
            simp only [List.cons_append, put, at?, child?_withChild, if_neg hstep, if_neg hne]

end Node

namespace Disk

/-! ## What a disk shows -/

/-- What is to be seen at a location. -/
def shows? (d : Disk) (location : Location) : Option Node := (d.node? location).map Node.bare

theorem any_isDirectory_shows? (d : Disk) (location : Location) :
    (d.shows? location).any Node.isDirectory = (d.node? location).any Node.isDirectory := by
  rw [shows?]
  cases d.node? location with
  | none => rfl
  | some node => exact node.isDirectory_bare

theorem holdsDirectory_iff_shows? {d : Disk} {location : Location} :
    d.HoldsDirectory location ↔ (d.shows? location).any Node.isDirectory = true := by
  rw [any_isDirectory_shows?]
  rfl

/-- What a walk does with its first step is told by what shows where it
starts. -/
theorem walk_cons (d : Disk) (location : Location) (name : String) (names : List String) :
    d.walk location (name :: names) =
      match d.shows? location with
      | none => .error .noEntry
      | some node =>
        if !node.isDirectory then .error .notADirectory
        else if name = "" ∨ name = "." then d.walk location names
        else if name = ".." then d.walk location.dropLast names
        else if name.utf8ByteSize > maxName then .error .nameTooLong
        else d.walk (location ++ [name]) names := by
  cases hnode : d.node? location with
  | none =>
      rw [walk, hnode, shows?, hnode]
      rfl
  | some node =>
      have hdown : d.node? (location ++ [name]) = node.child? name := by
        rw [node?_append, hnode]
        rfl
      simp only [walk, hnode, shows?, walkFrom, Option.map_some, Node.isDirectory_bare,
        List.tail_reverse, List.reverse_reverse, List.reverse_append, List.reverse_singleton,
        List.singleton_append, hdown]

/-! ## Disks that are alike -/

/-- The disks show the same at every location, and have the same current
directory and the same limits. -/
structure Alike (d d' : Disk) : Prop where
  current : d.current = d'.current
  shows : ∀ location, d.shows? location = d'.shows? location
  limits : d.limits = d'.limits

namespace Alike

variable {d d' : Disk}

theorem refl (d : Disk) : d.Alike d := ⟨rfl, fun _ => rfl, rfl⟩

theorem walk (h : d.Alike d') (location : Location) (names : List String) :
    d.walk location names = d'.walk location names := by
  induction names generalizing location with
  | nil => rw [walk_nil, walk_nil]
  | cons name names ih => simp only [walk_cons, h.shows, ih]

theorem locate (h : d.Alike d') (path : String) : d.locate path = d'.locate path := by
  simp only [Disk.locate, start, h.current, h.walk]

/-- What is made of the node at the end of a path is the same, if it does not
depend on what lies in a directory. -/
theorem bind_lookup (h : d.Alike d') (path : String) {α : Type} {f : Node → Except Fault α}
    (hf : ∀ node, f node.bare = f node) :
    (d.lookup path >>= f) = (d'.lookup path >>= f) := by
  have hshown (d : Disk) : (d.lookup path >>= f) =
      (d.locate path >>= fun location => (d.shows? location).elim (.error .noEntry) f) := by
    unfold lookup
    cases d.locate path with
    | error fault => rfl
    | ok location =>
        cases hnode : d.node? location with
        | none => simp only [shows?, hnode, bind, Except.bind, Option.map_none, Option.elim_none]
        | some node =>
            simp only [shows?, hnode, bind, Except.bind, Option.map_some, Option.elim_some]
            exact (hf node).symm
  rw [hshown, hshown, h.locate]
  congr 1
  funext location
  rw [h.shows]

theorem openFile (h : d.Alike d') (path : String) : d.openFile path = d'.openFile path := by
  refine h.bind_lookup path fun node => ?_
  cases node with
  | directory entries => rfl
  | file contents => rfl

theorem fileBytes (h : d.Alike d') (path : String) : d.fileBytes path = d'.fileBytes path := by
  refine h.bind_lookup path fun node => ?_
  cases node with
  | directory entries => rfl
  | file contents => rfl

theorem target (h : d.Alike d') (path : String) : d.target path = d'.target path := by
  simp only [Disk.target, start, h.current, h.walk, ← any_isDirectory_shows?, h.shows]

end Alike

/-! ## Where a file can be written -/

theorem target_eq_ok_iff {d : Disk} {path : String} {location : Location} :
    d.target path = .ok location ↔ d.Targeted path location := by
  refine ⟨target_eq_ok, fun ⟨hsound, hwalked, hfree⟩ => ?_⟩
  have hlast {front : List String} {name : String}
      (hsegments : Path.segments path = front ++ [name]) :
      ∃ parent, d.walk (d.start path) front = .ok parent ∧ d.HoldsDirectory parent ∧
        Leads parent name location := by
    rw [hsegments] at hwalked
    obtain ⟨parent, hparent, hstep⟩ := walk_append_eq_ok_iff.mp hwalked
    obtain ⟨hholds, place, hleads, hplace⟩ := walk_cons_eq_ok_iff.mp hstep
    rw [walk_nil] at hplace
    obtain rfl := Except.ok.inj hplace
    exact ⟨parent, hparent, hholds, hleads⟩
  have hslash : endsInSlash path = false := by
    refine decide_eq_false fun hends => ?_
    obtain ⟨front, -, hsegments⟩ := Path.exists_segments_of_slash hends
    obtain ⟨parent, -, hholds, hleads⟩ := hlast hsegments
    cases hleads with
    | stay _ => exact hfree hholds
    | up hup => exact absurd hup (by decide)
    | down hname => exact hname.1 rfl
  obtain ⟨init, name, hsegments, htrim⟩ := segments_of_not_endsInSlash hsound hslash
  obtain ⟨parent, hparent, hholds, hleads⟩ := hlast hsegments
  have hdot : d.walk (d.start path) (init ++ ["."]) = .ok parent :=
    walk_append_eq_ok_iff.mpr ⟨parent, hparent, walk_cons_eq_ok_iff.mpr
      ⟨hholds, parent, .stay (.inr rfl), walk_nil d parent⟩⟩
  have hname : d.walk parent [name] = .ok location :=
    (walk_cons_of_leads hholds hleads []).trans (walk_nil d location)
  unfold Disk.target
  simp only [hsound, htrim, List.dropLast_concat, List.getLast?_concat, Option.toList_some,
    hslash]
  refine bind_eq_ok.mpr ⟨parent, hdot, ?_⟩
  rw [if_neg Bool.false_ne_true]
  refine bind_eq_ok.mpr ⟨location, hname, ?_⟩
  exact if_neg hfree

namespace Targeted

variable {d : Disk} {path : String} {location : Location} (h : d.Targeted path location)

include h

theorem shows?_set (contents : Bytes) (place : Location) :
    (d.set location (.file contents)).shows? place =
      if place = location then some (.file contents) else d.shows? place := by
  obtain ⟨parent, name, rfl, hparent⟩ :=
    exists_parent_of_walk h.walked (Path.segments_ne_nil path) h.free
  exact Node.map_bare_at?_put hparent (Bool.not_eq_true _ ▸ h.free) contents

theorem targeted_set {other : String} {place : Location} (hother : d.Targeted other place)
    (contents : Bytes) : (d.set location (.file contents)).Targeted other place where
  sound := hother.sound
  walked := walk_mono (fun _ hplace => holdsDirectory_set h.free hplace) hother.walked
  free := by
    rw [holdsDirectory_iff_shows?, h.shows?_set]
    split
    · exact Bool.false_ne_true
    · exact fun hholds => hother.free (holdsDirectory_iff_shows?.mpr hholds)

/-- Disks that are alike are so after the same file was written to both. -/
theorem alike_set {d' : Disk} (halike : d.Alike d') (contents : Bytes) :
    (d.set location (.file contents)).Alike (d'.set location (.file contents)) := by
  have h' : d'.Targeted path location :=
    target_eq_ok_iff.mp (halike.target path ▸ target_eq_ok_iff.mpr h)
  refine ⟨halike.current, fun place => ?_, halike.limits⟩
  rw [h.shows?_set, h'.shows?_set, halike.shows]

end Targeted

end Disk

end SealedModules
