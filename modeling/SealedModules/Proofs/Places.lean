/-
# Where paths lead, and what an operation leaves alone

Without links a path leads where its segments say, one after the other, whatever
the disk holds (`place`); a walk that succeeds ends there (`follow_of_walk`).
What is put there changes no other place, as long as only directories lead there
(`leaf?_put`): a file on the way would be lost, but no walk passes through one.

So an operation is told by the places at which it may change something other
than directories, `Confined`: making directories has none (`confined_ensureNested`),
and writing a file has the place of its path (`confined_writeFile`).
-/
import SealedModules.Proofs.Path

namespace SealedModules

/-! ## Nodes -/

namespace Node

/-- What there is at a location, unless it is a directory. -/
def leaf? (node : Node) (location : Location) : Option Node :=
  (node.at? location).filter fun found => !found.isDirectory

theorem leaf?_eq_some_file_iff {node : Node} {location : Location} {contents : Bytes} :
    node.leaf? location = some (.file contents) ↔ node.at? location = some (.file contents) :=
  Option.filter_eq_some_iff.trans (and_iff_left rfl)

theorem isDirectory_of_child? {node child : Node} {name : String}
    (h : node.child? name = some child) : node.isDirectory = true := by
  cases node with
  | directory entries => rfl
  | file contents => cases h

theorem isDirectory_at?_of_append {node found : Node} {front back : Location}
    (h : node.at? (front ++ back) = some found) (hback : back ≠ []) :
    (node.at? front).any isDirectory = true := by
  rw [at?_append] at h
  obtain ⟨reached, hreached, h⟩ := Option.bind_eq_some_iff.mp h
  rw [hreached]
  cases back with
  | nil => exact absurd rfl hback
  | cons name names =>
      obtain ⟨child, hchild, -⟩ := Option.bind_eq_some_iff.mp h
      exact isDirectory_of_child? hchild

theorem leaf?_of_isDirectory {node : Node} {location : Location}
    (h : (node.at? location).any isDirectory = true) : node.leaf? location = none := by
  obtain ⟨found, hfound, hdirectory⟩ := (Option.any_eq_true _ _).mp h
  rw [leaf?, hfound, Option.filter_some, hdirectory]
  rfl

/-- On the way to a location there are only directories, as far as it leads. -/
def Clear : Node → Location → Prop
  | _, [] => True
  | node, name :: names =>
    node.isDirectory = true ∧ ∀ child, node.child? name = some child → child.Clear names

theorem clear_append_iff {node : Node} {front back : Location} :
    node.Clear (front ++ back) ↔
      node.Clear front ∧ ∀ found, node.at? front = some found → found.Clear back := by
  induction front generalizing node with
  | nil =>
      refine ⟨fun h => ⟨trivial, fun found hfound => ?_⟩, fun h => h.2 node rfl⟩
      obtain rfl := Option.some.inj hfound
      exact h
  | cons name names ih =>
      constructor
      · rintro ⟨hdirectory, hbelow⟩
        refine ⟨⟨hdirectory, fun child hchild => (ih.mp (hbelow child hchild)).1⟩, ?_⟩
        intro found hfound
        obtain ⟨child, hchild, hfound⟩ := Option.bind_eq_some_iff.mp hfound
        exact (ih.mp (hbelow child hchild)).2 found hfound
      · rintro ⟨⟨hdirectory, hbelow⟩, hfound⟩
        refine ⟨hdirectory, fun child hchild => ih.mpr ⟨hbelow child hchild, ?_⟩⟩
        intro found hthere
        exact hfound found (Option.bind_eq_some_iff.mpr ⟨child, hchild, hthere⟩)

theorem clear_of_isDirectory {node : Node} {parent : Location} (name : String)
    (h : (node.at? parent).any isDirectory = true) : node.Clear (parent ++ [name]) := by
  induction parent generalizing node with
  | nil => exact ⟨h, fun _ _ => trivial⟩
  | cons first rest ih =>
      obtain ⟨found, hfound, hdirectory⟩ := (Option.any_eq_true _ _).mp h
      obtain ⟨reached, hreached, hrest⟩ := Option.bind_eq_some_iff.mp hfound
      refine ⟨isDirectory_of_child? hreached, fun child hchild => ih ?_⟩
      obtain rfl := Option.some.inj (hreached.symm.trans hchild)
      exact (Option.any_eq_true _ _).mpr ⟨found, hrest, hdirectory⟩

theorem leaf?_put {node : Node} {location place : Location} (new : Node)
    (hclear : node.Clear location) (h : ¬ location <+: place) :
    (node.put location new).leaf? place = node.leaf? place := by
  -- on the way to the location; a place leaves the way, or is on it and a directory
  induction location generalizing node place with
  | nil => exact absurd List.nil_prefix h
  | cons name names ih =>
      obtain ⟨hdirectory, hbelow⟩ := hclear
      cases place with
      | nil =>
          have hhere : (node.at? []).any isDirectory = true := hdirectory
          exact (leaf?_of_isDirectory hhere).symm
      | cons step steps =>
          by_cases hstep : step = name
          · subst hstep
            have hnot : ¬ names <+: steps := fun hbegins =>
              h ((List.prefix_cons_inj step).mpr hbegins)
            simp only [put, leaf?, at?, child?_withChild, if_pos, Option.bind_some]
            cases hchild : node.child? step with
            | some child => exact ih (hbelow child hchild) hnot
            | none =>
                have hempty : Node.empty.Clear names := by
                  cases names with
                  | nil => trivial
                  | cons next rest => exact ⟨rfl, fun child hchild => by cases hchild⟩
                refine (ih hempty hnot).trans ?_
                cases steps with
                | nil => rfl
                | cons next rest => rfl
          · simp only [put, leaf?, at?, child?_withChild, if_neg hstep]

theorem leaf?_put_append (node new : Node) (location rest : Location) :
    (node.put location new).leaf? (location ++ rest) = new.leaf? rest := by
  rw [leaf?, at?_append, at?_put]
  rfl

theorem setEntry_setEntry (name : String) (first second : Node) (entries : List (String × Node)) :
    setEntry name second (setEntry name first entries) = setEntry name second entries := by
  induction entries with
  | nil => exact if_pos rfl
  | cons entry rest ih =>
      by_cases h : name = entry.1
      · rw [setEntry, if_pos h, setEntry, if_pos rfl, setEntry, if_pos h]
      · rw [setEntry, if_neg h, setEntry, if_neg h, setEntry, if_neg h, ih]

theorem put_put (node first second : Node) (location : Location) :
    (node.put location first).put location second = node.put location second := by
  induction location generalizing node with
  | nil => rfl
  | cons name names ih =>
      rw [put, put, child?_withChild, if_pos rfl, Option.getD_some, ih, put]
      exact congrArg directory (setEntry_setEntry name _ _ node.entries)

/-- An empty directory need not be put where one will be made on the way. -/
theorem put_put_append {node : Node} {front : Location} (h : node.at? front = none)
    (back : Location) (new : Node) :
    (node.put front .empty).put (front ++ back) new = node.put (front ++ back) new := by
  induction front generalizing node with
  | nil => cases h
  | cons name names ih =>
      rw [put, List.cons_append, put, child?_withChild, if_pos rfl, Option.getD_some, put]
      refine (congrArg directory (setEntry_setEntry name _ _ node.entries)).trans ?_
      refine congrArg (node.withChild name) ?_
      cases names with
      | nil =>
          have hnone : node.child? name = none := by
            cases hchild : node.child? name with
            | none => rfl
            | some child =>
                rw [at?, hchild] at h
                cases h
          rw [hnone]
          rfl
      | cons next rest =>
          refine ih ?_
          cases hchild : node.child? name with
          | none => rfl
          | some child => rwa [at?, hchild] at h

theorem at?_put_append (node : Node) (front back : Location) (new : Node) :
    (node.put (front ++ back) new).at? front =
      some (((node.at? front).getD .empty).put back new) := by
  induction front generalizing node with
  | nil => rfl
  | cons name names ih =>
      rw [List.cons_append, put, at?, child?_withChild, if_pos rfl, Option.bind_some, ih, at?]
      cases node.child? name with
      | some child => rfl
      | none =>
          cases names with
          | nil => rfl
          | cons next rest => rfl

end Node

namespace Disk

/-! ## Following a path -/

/-- Where a segment leads if it leads anywhere. -/
def step (place : Location) (segment : String) : Location :=
  if segment = "" ∨ segment = "." then place
  else if segment = ".." then place.dropLast
  else place ++ [segment]

/-- Where segments lead, one after the other. -/
def follow (place : Location) (segments : List String) : Location := segments.foldl step place

/-- Where a path leads. -/
def place (d : Disk) (path : String) : Location := follow (d.start path) (Path.segments path)

theorem step_of_isProper {name : String} (h : IsProper name) (place : Location) :
    step place name = place ++ [name] := by
  rw [step, if_neg (not_or_intro h.1 h.2.1), if_neg h.2.2]

theorem step_eq_of_leads {place last : Location} {segment : String}
    (h : Leads place segment last) : step place segment = last := by
  cases h with
  | stay h => exact if_pos h
  | up h =>
      subst h
      rfl
  | down hname hsize => exact step_of_isProper hname place

theorem follow_append (place : Location) (front back : List String) :
    follow place (front ++ back) = follow (follow place front) back :=
  List.foldl_append

theorem follow_of_silent {silent : List String}
    (h : ∀ segment ∈ silent, Path.isSilent segment = true) (place : Location) :
    follow place silent = place := by
  induction silent with
  | nil => rfl
  | cons segment silent ih =>
      have hstay := Path.isSilent_iff.mp (h segment List.mem_cons_self)
      rw [follow, List.foldl_cons, step, if_pos hstay]
      exact ih fun other hmem => h other (List.mem_cons_of_mem segment hmem)

theorem isSilent_of_forall_eq_empty {blanks : List String} (h : ∀ segment ∈ blanks, segment = "") :
    ∀ segment ∈ blanks, Path.isSilent segment = true := by
  intro segment hmem
  rw [h segment hmem]
  rfl

theorem follow_of_isProper {names : List String} (h : ∀ name ∈ names, IsProper name)
    (place : Location) : follow place names = place ++ names := by
  induction names generalizing place with
  | nil => exact (List.append_nil place).symm
  | cons name names ih =>
      have hrest := ih (fun other hmem => h other (List.mem_cons_of_mem name hmem)) (place ++ [name])
      rw [follow, List.foldl_cons, step_of_isProper (h name List.mem_cons_self)]
      exact hrest.trans (List.append_assoc place [name] names)

/-- A walk that succeeds ends where its names lead. -/
theorem follow_of_walk {d : Disk} {location last : Location} {names : List String}
    (h : d.walk location names = .ok last) : follow location names = last := by
  induction names generalizing location with
  | nil =>
      rw [walk_nil] at h
      exact Except.ok.inj h
  | cons name names ih =>
      obtain ⟨-, place, hleads, hrest⟩ := walk_cons_eq_ok_iff.mp h
      rw [follow, List.foldl_cons, step_eq_of_leads hleads]
      exact ih hrest

theorem locate_eq_ok {d : Disk} {path : String} {location : Location}
    (h : d.locate path = .ok location) :
    pathFault? path = none ∧ d.walk (d.start path) (Path.segments path) = .ok location := by
  unfold locate at h
  cases hsound : pathFault? path with
  | some fault =>
      rw [hsound] at h
      cases h
  | none =>
      rw [hsound] at h
      exact ⟨rfl, h⟩

theorem place_of_locate {d : Disk} {path : String} {location : Location}
    (h : d.locate path = .ok location) : d.place path = location :=
  follow_of_walk (locate_eq_ok h).2

theorem exists_segments_eq (path : String) :
    ∃ blanks, Path.segments path = trimSegments path ++ blanks ∧
      ∀ segment ∈ blanks, segment = "" := by
  refine ⟨((Path.segments path).reverse.takeWhile (· = "")).reverse, ?_, ?_⟩
  · rw [trimSegments, ← List.reverse_append, List.takeWhile_append_dropWhile, List.reverse_reverse]
  · intro segment hmem
    simpa using List.mem_takeWhile_imp (List.mem_reverse.mp hmem)

theorem follow_trimSegments (place : Location) (path : String) :
    follow place (trimSegments path) = follow place (Path.segments path) := by
  obtain ⟨blanks, hsegments, hblanks⟩ := exists_segments_eq path
  rw [hsegments, follow_append, follow_of_silent (isSilent_of_forall_eq_empty hblanks)]

theorem place_append_eq_follow (d : Disk) (base : String) {child : String}
    (h : Path.isAbsolute child = false) :
    d.place (Path.append base child) = follow (d.place base) (Path.segments child) := by
  obtain ⟨blanks, hsegments, hblanks⟩ := Path.exists_segments_eq_stem base
  have hstem (start : Location) : follow start (Path.stem base) =
      follow start (Path.segments base) := by
    rw [hsegments, follow_append, follow_of_silent (isSilent_of_forall_eq_empty hblanks)]
  rw [place, start, Path.isAbsolute_append h, Path.segments_append h, follow_append, hstem]
  rfl

theorem place_append (d : Disk) (base : String) {names : List String} (hne : names ≠ [])
    (h : ∀ name ∈ names, Path.IsName name) :
    d.place (Path.append base (Path.ofNames names)) = d.place base ++ names := by
  rw [place_append_eq_follow d base (Path.not_isAbsolute_ofNames h), Path.segments_ofNames hne h]
  exact follow_of_isProper (fun name hmem => (h name hmem).proper) _

/-! ## What walks stand on -/

/-- What there is at a place, unless it is a directory. -/
def leaf? (d : Disk) (place : Location) : Option Node := d.root.leaf? place

theorem holdsDirectory_dropLast {d : Disk} {place : Location} (h : d.HoldsDirectory place) :
    d.HoldsDirectory place.dropLast := by
  rcases List.eq_nil_or_concat' place with rfl | ⟨front, name, rfl⟩
  · exact h
  · obtain ⟨node, hnode, -⟩ := (Option.any_eq_true _ _).mp h
    rw [List.dropLast_concat]
    exact Node.isDirectory_at?_of_append hnode (List.cons_ne_nil name [])

/-- A walk that comes to a place without a directory took its last step out of
one. -/
theorem exists_parent_of_walk {d : Disk} {location last : Location} {names : List String}
    (h : d.walk location names = .ok last) (hne : names ≠ []) (hfree : ¬ d.HoldsDirectory last) :
    ∃ parent name, last = parent ++ [name] ∧ d.HoldsDirectory parent := by
  obtain ⟨front, name, rfl⟩ := (List.eq_nil_or_concat' names).resolve_left hne
  obtain ⟨before, -, hlast⟩ := walk_append_eq_ok_iff.mp h
  obtain ⟨hholds, found, hleads, hfound⟩ := walk_cons_eq_ok_iff.mp hlast
  rw [walk_nil] at hfound
  obtain rfl := Except.ok.inj hfound
  cases hleads with
  | stay _ => exact absurd hholds hfree
  | up _ => exact absurd (holdsDirectory_dropLast hholds) hfree
  | down hname hsize => exact ⟨before, name, rfl, hholds⟩

theorem trimSegments_ne_nil {path : String} (hsound : pathFault? path = none)
    (hrelative : Path.isAbsolute path = false) : trimSegments path ≠ [] := by
  intro hnil
  obtain ⟨blanks, hsegments, hblanks⟩ := exists_segments_eq path
  rw [hnil, List.nil_append] at hsegments
  refine absurd ?_ (Bool.eq_false_iff.mp hrelative)
  refine (Path.isAbsolute_iff_head? path).mpr ⟨?_, ?_⟩
  · cases hpath : Path.segments path with
    | nil => exact absurd hpath (Path.segments_ne_nil path)
    | cons segment segments =>
        rw [List.head?_cons, hblanks segment (by rw [← hsegments, hpath]; exact List.mem_cons_self)]
  · intro hempty
    rw [hempty] at hsound
    cases hsound

/-! ## Confined changes -/

/-- The disk after differs only at some places, unless in directories, and
every directory is still there. -/
structure Confined (within : Location → Prop) (d after : Disk) : Prop where
  leaf : ∀ place, ¬ within place → after.leaf? place = d.leaf? place
  directory : ∀ place, d.HoldsDirectory place → after.HoldsDirectory place
  current : after.current = d.current
  limits : after.limits = d.limits

namespace Confined

variable {within : Location → Prop} {d after last : Disk}

theorem refl (within : Location → Prop) (d : Disk) : Confined within d d :=
  ⟨fun _ _ => rfl, fun _ h => h, rfl, rfl⟩

theorem trans (h : Confined within d after) (h' : Confined within after last) :
    Confined within d last :=
  ⟨fun place hout => (h'.leaf place hout).trans (h.leaf place hout),
    fun place hplace => h'.directory place (h.directory place hplace),
    h'.current.trans h.current, h'.limits.trans h.limits⟩

theorem mono {wider : Location → Prop} (h : Confined within d after)
    (hwider : ∀ place, within place → wider place) : Confined wider d after :=
  ⟨fun place hout => h.leaf place fun hplace => hout (hwider place hplace), h.directory,
    h.current, h.limits⟩

theorem place_eq (h : Confined within d after) (path : String) : after.place path = d.place path := by
  rw [place, start, h.current]
  rfl

theorem hasRoom_iff (h : Confined within d after) (location : Location) (count : Nat) :
    after.HasRoom location count ↔ d.HasRoom location count := by
  rw [HasRoom, HasRoom, room, room, h.limits]

end Confined

/-- A node without directories put into a directory. -/
theorem confined_set {d : Disk} {parent : Location} {name : String} {new : Node}
    (hparent : d.HoldsDirectory parent) (hfree : ¬ d.HoldsDirectory (parent ++ [name]))
    (hnew : ∀ rest, rest ≠ [] → new.leaf? rest = none) {within : Location → Prop}
    (hwithin : within (parent ++ [name]) ∨ new.leaf? [] = d.leaf? (parent ++ [name])) :
    Confined within d (d.set (parent ++ [name]) new) := by
  refine ⟨fun place hout => ?_, fun place => holdsDirectory_set hfree, rfl, rfl⟩
  by_cases hbegins : parent ++ [name] <+: place
  · obtain ⟨rest, rfl⟩ := hbegins
    rw [leaf?, set, Node.leaf?_put_append]
    by_cases hrest : rest = []
    · subst hrest
      rw [List.append_nil] at hout ⊢
      exact hwithin.resolve_left hout
    · rw [hnew rest hrest, leaf?, Node.leaf?, Node.at?_append]
      cases hnode : d.root.at? (parent ++ [name]) with
      | none => rfl
      | some node =>
          have hnot : node.isDirectory = false := by
            rw [HoldsDirectory, node?, hnode] at hfree
            exact Bool.not_eq_true _ ▸ hfree
          obtain ⟨first, more, rfl⟩ := List.exists_cons_of_ne_nil hrest
          rw [Option.bind_some, Node.at?_of_not_isDirectory hnot]
          rfl
  · exact Node.leaf?_put new (Node.clear_of_isDirectory name hparent) hbegins

/-! ### Making directories -/

/-- What it takes to make a directory, and what it makes. -/
theorem makeDirectory_eq_ok {d made : Disk} {path : String} (h : d.makeDirectory path = .ok made) :
    ∃ parent name, d.place path = parent ++ [name] ∧ d.HoldsDirectory parent ∧
      d.node? (parent ++ [name]) = none ∧ made = d.set (parent ++ [name]) .empty ∧
      pathFault? path = none ∧
      d.walk (d.start path) (trimSegments path) = .ok (parent ++ [name]) := by
  unfold makeDirectory at h
  cases hsound : pathFault? path with
  | some fault =>
      rw [hsound] at h
      cases h
  | none =>
      rw [hsound] at h
      obtain ⟨location, hwalk, h⟩ := bind_eq_ok.mp h
      split at h
      · cases h
      · rename_i hnone
        have hnone : d.node? location = none := Option.not_isSome_iff_eq_none.mp hnone
        obtain rfl := Except.ok.inj h
        have hne : trimSegments path ≠ [] := by
          intro hnil
          cases habsolute : Path.isAbsolute path with
          | false => exact trimSegments_ne_nil hsound habsolute hnil
          | true =>
              rw [hnil, walk_nil, start, habsolute] at hwalk
              obtain rfl := Except.ok.inj hwalk
              cases hnone
        have hfree : ¬ d.HoldsDirectory location := by
          rw [HoldsDirectory, hnone]
          exact Bool.false_ne_true
        obtain ⟨parent, name, rfl, hparent⟩ := exists_parent_of_walk hwalk hne hfree
        refine ⟨parent, name, ?_, hparent, hnone, rfl, rfl, hwalk⟩
        rw [place, ← follow_trimSegments, follow_of_walk hwalk]

theorem confined_makeDirectory {d made : Disk} {path : String}
    (h : d.makeDirectory path = .ok made) : Confined (fun _ => False) d made := by
  obtain ⟨parent, name, -, hparent, hnone, rfl, -⟩ := makeDirectory_eq_ok h
  have hfree : ¬ d.HoldsDirectory (parent ++ [name]) := by
    rw [HoldsDirectory, hnone]
    exact Bool.false_ne_true
  refine confined_set hparent hfree (fun rest hrest => ?_) (.inr ?_)
  · obtain ⟨first, more, rfl⟩ := List.exists_cons_of_ne_nil hrest
    rfl
  · have hleaf : d.leaf? (parent ++ [name]) = none := congrArg (Option.filter _) hnone
    exact hleaf.symm

theorem confined_ensureDirectory {d made : Disk} {path : String}
    (h : d.ensureDirectory path = .ok made) : Confined (fun _ => False) d made := by
  unfold ensureDirectory at h
  split at h
  · rename_i hmade
    obtain rfl := Except.ok.inj h
    exact confined_makeDirectory hmade
  · split at h
    · obtain rfl := Except.ok.inj h
      exact .refl _ _
    · cases h

theorem confined_ensureNested (d : Disk) (paths : List String) :
    Confined (fun _ => False) d (d.ensureNested paths).2 := by
  fun_induction ensureNested d paths with
  | case1 => exact .refl _ d
  | case2 path outer made hmade => exact confined_makeDirectory hmade
  | case3 path outer hmissing fault made hmade ih =>
      rw [hmade] at ih
      exact ih
  | case4 path outer hmissing made hmade last hlast ih =>
      rw [hmade] at ih
      exact ih.trans (confined_ensureDirectory hlast)
  | case5 path outer hmissing made hmade fault hfault ih =>
      rw [hmade] at ih
      exact ih
  | case6 path outer fault hne hfault hdirectory => exact .refl _ d
  | case7 path outer fault hne hfault hdirectory => exact .refl _ d

/-! ### Writing files -/

theorem set_set (d : Disk) (location : Location) (first second : Node) :
    (d.set location first).set location second = d.set location second :=
  congrArg (Disk.mk · d.current d.limits) (Node.put_put d.root first second location)

/-- The ways in which a file is written. -/
inductive Wrote (d : Disk) (path : String) (contents : Bytes) : Except Fault Unit × Disk → Prop where
  | refused {fault : Fault} (htarget : d.target path = .error fault) :
      Wrote d path contents (.error fault, d)
  | whole {location : Location} (htarget : d.target path = .ok location)
      (hroom : d.HasRoom location contents.length) :
      Wrote d path contents (.ok (), d.set location (.file contents))
  | cut {location : Location} {room : Nat} (htarget : d.target path = .ok location)
      (hroom : d.room location = some room) (hless : room < contents.length) :
      Wrote d path contents (.error .noSpace, d.set location (.file (contents.take room)))

theorem writeFile_wrote (d : Disk) (path : String) (contents : Bytes) :
    d.Wrote path contents (d.writeFile path contents) := by
  unfold writeFile
  cases htarget : d.target path with
  | error fault =>
      rw [create, htarget]
      exact .refused htarget
  | ok location =>
      rw [create_eq_ok_iff.mpr ⟨htarget, rfl⟩]
      obtain ⟨o, ho⟩ : ∃ o, (d.set location (.file [])).output location = o := ⟨_, rfl⟩
      have htakes := o.writeAll_takes contents
      have hleft : (Writer.writeAll o contents).2.contents =
          contents.take (o.accepts contents.length) :=
        htakes.extended.contents_of_contents_eq_nil (ho ▸ rfl)
      simp only [store, set_set, ho]
      rw [hleft, htakes.outcome]
      by_cases hroom : d.HasRoom location contents.length
      · have hall : o.accepts contents.length = contents.length :=
          ho ▸ accepts_output_eq_iff.mpr hroom
        rw [hall, if_pos rfl, List.take_length]
        exact .whole htarget hroom
      · obtain ⟨room, hroom, hless⟩ : ∃ room, d.room location = some room ∧
            room < contents.length := by
          simpa only [HasRoom, not_forall, exists_prop, not_le] using hroom
        have hcut : o.accepts contents.length = room := by
          have hbound : o.room = some room := ho ▸ hroom
          rw [Output.accepts, hbound]
          exact Nat.min_eq_left hless.le
        rw [hcut, if_neg hless.ne, ← ho]
        exact .cut htarget hroom hless

/-- A file of so many bytes can be put where the path leads. -/
def Writable (d : Disk) (path : String) (count : Nat) : Prop :=
  ∃ location, d.target path = .ok location ∧ d.HasRoom location count

section
variable {d after : Disk} {path : String} {contents : Bytes}

theorem writeFile_isOk_iff :
    (d.writeFile path contents).1 = .ok () ↔ d.Writable path contents.length := by
  have hwrote := d.writeFile_wrote path contents
  generalize d.writeFile path contents = result at hwrote
  cases hwrote with
  | refused htarget =>
      refine iff_of_false (fun h => nomatch h) ?_
      rintro ⟨location, hlocation, -⟩
      cases htarget.symm.trans hlocation
  | whole htarget hroom => exact iff_of_true rfl ⟨_, htarget, hroom⟩
  | cut htarget hroom hless =>
      refine iff_of_false (fun h => nomatch h) ?_
      rintro ⟨location, hlocation, hall⟩
      obtain rfl := Except.ok.inj (htarget.symm.trans hlocation)
      exact Nat.not_le.mpr hless (hall _ hroom)

theorem disk_of_write (h : d.writeFile path contents = (.ok (), after)) :
    ∃ location, d.target path = .ok location ∧ after = d.set location (.file contents) := by
  have hwrote := d.writeFile_wrote path contents
  rw [h] at hwrote
  cases hwrote with
  | whole htarget => exact ⟨_, htarget, rfl⟩

theorem writeFile_of_target {location : Location} (htarget : d.target path = .ok location)
    (hroom : d.HasRoom location contents.length) :
    d.writeFile path contents = (.ok (), d.set location (.file contents)) := by
  have hwrite : d.writeFile path contents = (.ok (), (d.writeFile path contents).2) :=
    Prod.ext (writeFile_isOk_iff.mpr ⟨location, htarget, hroom⟩) rfl
  obtain ⟨found, hfound, hafter⟩ := disk_of_write hwrite
  obtain rfl := Except.ok.inj (htarget.symm.trans hfound)
  rw [hwrite, hafter]

end

theorem Targeted.place_eq {d : Disk} {path : String} {location : Location}
    (h : d.Targeted path location) : d.place path = location :=
  follow_of_walk h.walked

/-- A file put at the place it is written at, with whatever it held before. -/
theorem Targeted.confined_set {d : Disk} {path : String} {location : Location}
    (h : d.Targeted path location) (contents : Bytes) :
    Confined (· = location) d (d.set location (.file contents)) := by
  obtain ⟨parent, name, rfl, hparent⟩ :=
    exists_parent_of_walk h.walked (Path.segments_ne_nil path) h.free
  refine Disk.confined_set hparent h.free (fun rest hrest => ?_) (.inl rfl)
  obtain ⟨first, more, rfl⟩ := List.exists_cons_of_ne_nil hrest
  rfl

theorem confined_writeFile (d : Disk) (path : String) (contents : Bytes) :
    Confined (· = d.place path) d (d.writeFile path contents).2 := by
  have hwrote := d.writeFile_wrote path contents
  generalize d.writeFile path contents = result at hwrote
  cases hwrote with
  | refused => exact .refl _ d
  | whole htarget =>
      have htargeted := target_eq_ok htarget
      exact htargeted.place_eq ▸ htargeted.confined_set contents
  | cut htarget =>
      have htargeted := target_eq_ok htarget
      exact htargeted.place_eq ▸ htargeted.confined_set _

end Disk

end SealedModules
