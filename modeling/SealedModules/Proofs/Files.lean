/-
# What is written to a file is read from it

A path is walked name by name, and a walk only asks whether what it stands on
is a directory.  So a walk that succeeds still does, and ends at the same
location, on every disk that has directories where the first one has them
(`walk_mono`), and a file put where no directory is takes none away
(`holdsDirectory_set`).

`target` decides where a path is written by walking to the place its last
name lies in; `target_eq_ok` says what it then knows.  With this, a file that
was created is found again under the same path (`lookup_store`).
-/
import SealedModules.Disk
import SealedModules.Proofs.Text
import SealedModules.Proofs.Writing

namespace SealedModules

theorem bind_eq_ok {ε α β : Type} {x : Except ε α} {f : α → Except ε β} {b : β} :
    x >>= f = .ok b ↔ ∃ a, x = .ok a ∧ f a = .ok b := by
  cases x with
  | error e => exact ⟨fun h => (nomatch h), fun ⟨_, h, _⟩ => (nomatch h)⟩
  | ok a => exact ⟨fun h => ⟨a, rfl, h⟩, fun ⟨_, ha, h⟩ => Except.ok.inj ha ▸ h⟩

/-! ## Directories on the way -/

namespace Node

theorem at?_of_not_isDirectory {node : Node} (h : node.isDirectory = false) (name : String)
    (names : Location) : node.at? (name :: names) = none := by
  cases node with
  | directory entries => cases h
  | file contents => rfl

theorem isDirectory_at?_put {node new : Node} {location place : Location}
    (h : (node.at? place).any isDirectory = true)
    (hfree : (node.at? location).any isDirectory = false) :
    ((node.put location new).at? place).any isDirectory = true := by
  induction location generalizing node place with
  | nil =>
      cases place with
      | nil =>
          rw [h] at hfree
          cases hfree
      | cons name names =>
          rw [at?_of_not_isDirectory hfree] at h
          cases h
  | cons name names ih =>
      cases place with
      | nil => rfl
      | cons step steps =>
          simp only [put, at?, child?_withChild] at h hfree ⊢
          split
          · rename_i hstep
            subst hstep
            cases hchild : node.child? step with
            | none =>
                rw [hchild] at h
                cases h
            | some child =>
                rw [hchild] at h hfree
                exact ih h hfree
          · exact h

end Node

namespace Disk

/-- There is a directory at a location. -/
def HoldsDirectory (d : Disk) (location : Location) : Prop :=
  (d.node? location).any Node.isDirectory = true

theorem holdsDirectory_set {d : Disk} {location place : Location} {new : Node}
    (hfree : ¬ d.HoldsDirectory location) (h : d.HoldsDirectory place) :
    (d.set location new).HoldsDirectory place :=
  Node.isDirectory_at?_put h (Bool.not_eq_true _ ▸ hfree)

theorem node?_append (d : Disk) (location : Location) (name : String) :
    d.node? (location ++ [name]) = (d.node? location).bind fun node => node.child? name := by
  unfold node?
  rw [Node.at?_append]
  congr 1
  funext node
  simp [Node.at?]

/-! ## Walking -/

/-- A name that names something, and not where one is or was. -/
def IsProper (name : String) : Prop := name ≠ "" ∧ name ≠ "." ∧ name ≠ ".."

instance (name : String) : Decidable (IsProper name) := inferInstanceAs (Decidable (_ ∧ _ ∧ _))

/-- Where one step of a walk leads from a directory. -/
inductive Leads (location : Location) (name : String) : Location → Prop where
  | stay (h : name = "" ∨ name = ".") : Leads location name location
  | up (h : name = "..") : Leads location name location.dropLast
  | down (hname : IsProper name) (hsize : name.utf8ByteSize ≤ maxName) :
      Leads location name (location ++ [name])

theorem walk_nil (d : Disk) (location : Location) : d.walk location [] = .ok location := by
  rw [walk, walkFrom, List.reverse_reverse]

theorem leads_of_walk_cons {d : Disk} {location last : Location} {name : String}
    {names : List String} (h : d.walk location (name :: names) = .ok last) :
    d.HoldsDirectory location ∧
      ∃ place, Leads location name place ∧ d.walk place names = .ok last := by
  unfold walk at h
  cases hnode : d.node? location with
  | none =>
      rw [hnode] at h
      cases h
  | some node =>
      rw [hnode, walkFrom] at h
      split at h
      · cases h
      · rename_i hdirectory
        have hholds : d.HoldsDirectory location := by
          rw [HoldsDirectory, hnode]
          simpa using hdirectory
        refine ⟨hholds, ?_⟩
        split at h
        · rename_i hstay
          exact ⟨location, .stay hstay, by rwa [walk, hnode]⟩
        · rename_i hnot
          split at h
          · rename_i hup
            rw [List.tail_reverse, List.reverse_reverse] at h
            exact ⟨location.dropLast, .up hup, h⟩
          · rename_i hnotUp
            split at h
            · cases h
            · rename_i hsize
              have hproper : IsProper name :=
                ⟨fun h => hnot (.inl h), fun h => hnot (.inr h), hnotUp⟩
              refine ⟨location ++ [name], .down hproper (Nat.not_lt.mp hsize), ?_⟩
              rw [walk, node?_append, hnode, List.reverse_append]
              exact h

theorem walk_cons_of_leads {d : Disk} {location place : Location} {name : String}
    (hholds : d.HoldsDirectory location) (hleads : Leads location name place)
    (names : List String) : d.walk location (name :: names) = d.walk place names := by
  obtain ⟨node, hnode, hdirectory⟩ := (Option.any_eq_true _ _).mp hholds
  rw [walk, hnode, walkFrom, if_neg (by simp [hdirectory])]
  cases hleads with
  | stay hstay => rw [if_pos hstay, walk, hnode]
  | up hup =>
      rw [if_neg (by simp [hup]), if_pos hup, walk, List.tail_reverse, List.reverse_reverse]
  | down hname hsize =>
      have hnot : ¬ (name = "" ∨ name = ".") := by
        rintro (hempty | hdot)
        · exact hname.1 hempty
        · exact hname.2.1 hdot
      rw [if_neg hnot, if_neg hname.2.2, if_neg (Nat.not_lt.mpr hsize), walk, node?_append,
        hnode, List.reverse_append]
      rfl

theorem walk_cons_eq_ok_iff {d : Disk} {location last : Location} {name : String}
    {names : List String} :
    d.walk location (name :: names) = .ok last ↔
      d.HoldsDirectory location ∧
        ∃ place, Leads location name place ∧ d.walk place names = .ok last :=
  ⟨leads_of_walk_cons, fun ⟨hholds, _, hleads, h⟩ =>
    (walk_cons_of_leads hholds hleads names).trans h⟩

/-- A walk goes on where another one ended. -/
theorem walk_append_eq_ok_iff {d : Disk} {location last : Location} {names more : List String} :
    d.walk location (names ++ more) = .ok last ↔
      ∃ place, d.walk location names = .ok place ∧ d.walk place more = .ok last := by
  induction names generalizing location with
  | nil =>
      rw [List.nil_append]
      constructor
      · intro h
        exact ⟨location, walk_nil d location, h⟩
      · rintro ⟨place, hplace, h⟩
        rw [walk_nil] at hplace
        rwa [Except.ok.inj hplace]
  | cons name names ih =>
      rw [List.cons_append, walk_cons_eq_ok_iff]
      constructor
      · rintro ⟨hholds, step, hleads, h⟩
        obtain ⟨place, hplace, hlast⟩ := ih.mp h
        exact ⟨place, walk_cons_eq_ok_iff.mpr ⟨hholds, step, hleads, hplace⟩, hlast⟩
      · rintro ⟨place, hplace, hlast⟩
        obtain ⟨hholds, step, hleads, hrest⟩ := walk_cons_eq_ok_iff.mp hplace
        exact ⟨hholds, step, hleads, ih.mpr ⟨place, hrest, hlast⟩⟩

/-- A walk succeeds wherever there are at least the same directories. -/
theorem walk_mono {d d' : Disk}
    (hmono : ∀ location, d.HoldsDirectory location → d'.HoldsDirectory location)
    {location last : Location} {names : List String} (h : d.walk location names = .ok last) :
    d'.walk location names = .ok last := by
  induction names generalizing location with
  | nil => rwa [walk_nil] at h ⊢
  | cons name names ih =>
      obtain ⟨hholds, place, hleads, hrest⟩ := walk_cons_eq_ok_iff.mp h
      exact walk_cons_eq_ok_iff.mpr ⟨hmono location hholds, place, hleads, ih hrest⟩

/-! ## Writing and reading again -/

/-- The last segment of a path that does not speak of a directory is a name,
so that no segment is trimmed off. -/
theorem segments_of_not_endsInSlash {path : String} (hsound : pathFault? path = none)
    (hslash : endsInSlash path = false) :
    ∃ init name, Path.segments path = init ++ [name] ∧ trimSegments path = init ++ [name] := by
  have hpath : path.toList ≠ [] := by
    intro hnil
    have hempty : path = "" := String.toList_eq_nil_iff.mp hnil
    rw [hempty] at hsound
    cases hsound
  have hsegments : Path.segments path ≠ [] := by
    unfold Path.segments
    exact fun h => Text.split_ne_nil _ _ (List.map_eq_nil_iff.mp h)
  obtain ⟨init, name, hlast⟩ : ∃ init name, Path.segments path = init ++ [name] := by
    rcases List.eq_nil_or_concat (Path.segments path) with hnil | ⟨init, name, hlast⟩
    · exact absurd hnil hsegments
    · exact ⟨init, name, by rw [hlast, List.concat_eq_append]⟩
  have hname : name ≠ "" := by
    intro hempty
    have hpiece : (Path.segments path).getLast? = some "" := by
      rw [hlast, hempty, List.getLast?_concat]
    rw [Path.segments, List.getLast?_map] at hpiece
    obtain ⟨piece, hsplit, hpiece⟩ := Option.map_eq_some_iff.mp hpiece
    rw [String.ofList_eq_empty_iff.mp hpiece] at hsplit
    exact Text.getLast?_split hpath (of_decide_eq_false hslash) hsplit
  refine ⟨init, name, hlast, ?_⟩
  rw [trimSegments, hlast, List.reverse_append, List.reverse_singleton, List.singleton_append,
    List.dropWhile_cons_of_neg (by simpa using hname), List.reverse_cons, List.reverse_reverse]

/-- What is known of the place a path is written at. -/
structure Targeted (d : Disk) (path : String) (location : Location) : Prop where
  sound : pathFault? path = none
  walked : d.walk (d.start path) (Path.segments path) = .ok location
  free : ¬ d.HoldsDirectory location

theorem target_eq_ok {d : Disk} {path : String} {location : Location}
    (h : d.target path = .ok location) : d.Targeted path location := by
  unfold target at h
  cases hsound : pathFault? path with
  | some fault =>
      rw [hsound] at h
      cases h
  | none =>
      rw [hsound] at h
      simp only [] at h
      obtain ⟨place, hplace, h⟩ := bind_eq_ok.mp h
      split at h
      · cases h
      · rename_i hslash
        obtain ⟨found, hfound, h⟩ := bind_eq_ok.mp h
        split at h
        · cases h
        · rename_i hfree
          obtain rfl := Except.ok.inj h
          obtain ⟨init, name, hsegments, htrim⟩ :=
            segments_of_not_endsInSlash hsound (Bool.not_eq_true _ ▸ hslash)
          rw [htrim, List.dropLast_concat] at hplace
          rw [htrim, List.getLast?_concat] at hfound
          obtain ⟨before, hbefore, hstay⟩ := walk_append_eq_ok_iff.mp hplace
          obtain ⟨-, same, hleads, hsame⟩ := walk_cons_eq_ok_iff.mp hstay
          rw [walk_nil] at hsame
          obtain rfl := Except.ok.inj hsame
          have hwalked : d.walk (d.start path) (Path.segments path) = .ok found := by
            rw [hsegments]
            refine walk_append_eq_ok_iff.mpr ⟨before, hbefore, ?_⟩
            cases hleads with
            | stay _ => exact hfound
            | up hup => exact absurd hup (by decide)
            | down hname => exact absurd rfl hname.2.1
          exact ⟨hsound, hwalked, hfree⟩

theorem create_eq_ok_iff {d opened : Disk} {path : String} {location : Location} :
    d.create path = .ok (location, opened) ↔
      d.target path = .ok location ∧ opened = d.set location (.file []) := by
  constructor
  · intro h
    obtain ⟨found, htarget, h⟩ := bind_eq_ok.mp h
    obtain ⟨rfl, rfl⟩ := Prod.mk.inj (Except.ok.inj h)
    exact ⟨htarget, rfl⟩
  · rintro ⟨htarget, rfl⟩
    exact bind_eq_ok.mpr ⟨location, htarget, rfl⟩

theorem node?_set (d : Disk) (location : Location) (node : Node) :
    (d.set location node).node? location = some node :=
  Node.at?_put d.root location node

@[simp] theorem limits_set (d : Disk) (location : Location) (node : Node) :
    (d.set location node).limits = d.limits := rfl

@[simp] theorem limits_store (d : Disk) (location : Location) (contents : Bytes) :
    (d.store location contents).limits = d.limits := rfl

/-- What was written to a file is what its path leads to. -/
theorem lookup_store {d opened : Disk} {path : String} {location : Location}
    (h : d.create path = .ok (location, opened)) (contents : Bytes) :
    (opened.store location contents).lookup path = .ok (.file contents) := by
  obtain ⟨htarget, rfl⟩ := create_eq_ok_iff.mp h
  have htargeted := target_eq_ok htarget
  have hmono : ∀ place, d.HoldsDirectory place →
      ((d.set location (.file [])).set location (.file contents)).HoldsDirectory place := by
    intro place hplace
    refine holdsDirectory_set ?_ (holdsDirectory_set htargeted.free hplace)
    rw [HoldsDirectory, node?_set]
    exact nofun
  have hlocate : ((d.set location (.file [])).set location (.file contents)).locate path =
      .ok location := by
    rw [locate, htargeted.sound]
    exact walk_mono hmono htargeted.walked
  refine bind_eq_ok.mpr ⟨location, hlocate, ?_⟩
  rw [store, node?_set]

theorem openFile_store {d opened : Disk} {path : String} {location : Location}
    (h : d.create path = .ok (location, opened)) (contents : Bytes) :
    (opened.store location contents).openFile path =
      .ok (contents.length, { rest := contents }) := by
  rw [openFile, lookup_store h]
  rfl

theorem fileBytes_store {d opened : Disk} {path : String} {location : Location}
    (h : d.create path = .ok (location, opened)) (contents : Bytes) :
    (opened.store location contents).fileBytes path = .ok contents := by
  rw [fileBytes, lookup_store h]
  rfl

theorem openFile_of_fileBytes {d : Disk} {path : String} {bytes : Bytes}
    (h : d.fileBytes path = .ok bytes) :
    d.openFile path = .ok (bytes.length, { rest := bytes }) := by
  obtain ⟨node, hlookup, h⟩ := bind_eq_ok.mp h
  refine bind_eq_ok.mpr ⟨node, hlookup, ?_⟩
  cases node with
  | file contents =>
      obtain rfl := Except.ok.inj h
      rfl
  | directory entries => cases h

/-! ## Limits -/

/-- A file opened at a place takes so many bytes. -/
def HasRoom (d : Disk) (location : Location) (count : Nat) : Prop :=
  ∀ room, d.room location = some room → count ≤ room

theorem accepts_output_eq_iff {d : Disk} {location : Location} {count : Nat} :
    (d.output location).accepts count = count ↔ d.HasRoom location count :=
  Output.accepts_eq_iff

/-- A file opened at a place takes so many bytes and is then closed. -/
def Admits (d : Disk) (location : Location) (count : Nat) : Prop :=
  d.HasRoom location count ∧ (d.limits location).closing = none

theorem hasRoom_of_room_eq_none {d : Disk} {location : Location} (h : d.room location = none)
    (count : Nat) : d.HasRoom location count := by
  intro room hroom
  cases h.symm.trans hroom

theorem admits_of_limits_eq {d : Disk} {location : Location} (h : d.limits location = {})
    (count : Nat) : d.Admits location count :=
  ⟨hasRoom_of_room_eq_none (congrArg Limit.room h) count, congrArg Limit.closing h⟩

end Disk

end SealedModules
