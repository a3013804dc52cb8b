/-
# What the interpreter is used for

A use of the interpreter is a feed it is given to load, or a module it is
given to run; how that comes out is not part of it.  Compiling from bytes is
one use, and compiling from a file or an asset is one if the origin can be
opened.  A finder uses the interpreter to compile, and a host may have used it
before it replies; a search adds up what the finders do that are asked.

Nothing else touches the interpreter: what an operation leaves is what its
uses make of it (`snd_ask`, `interpreter_searchFrom`).  So its counters count
the uses (`loads_useAll`, `calls_useAll`).
-/
import SealedModules.Proofs.SingleLoad

namespace SealedModules

/-- Something the interpreter is asked to do. -/
inductive Use where
  | loadBuffer (feed : BufferFeed) (chunk : Option String)
  | loadStream (feed : StreamFeed) (chunk : Option String)
  | call (unit : CompiledModule)

/-- Whether a use is a load. -/
def Use.isLoad : Use → Bool
  | .call _ => false
  | _ => true

/-- Whether a use is a call. -/
def Use.isCall : Use → Bool
  | .call _ => true
  | _ => false

namespace Interpreter

/-- The interpreter after a use. -/
def use (i : Interpreter) : Use → Interpreter
  | .loadBuffer feed chunk => (i.load feed chunk).2.1
  | .loadStream feed chunk => (i.load feed chunk).2.1
  | .call unit => (i.call unit).2

/-- The interpreter after some uses in order. -/
def useAll (i : Interpreter) (uses : List Use) : Interpreter := uses.foldl use i

theorem useAll_append (i : Interpreter) (uses more : List Use) :
    i.useAll (uses ++ more) = (i.useAll uses).useAll more :=
  List.foldl_append

theorem loads_useAll (i : Interpreter) (uses : List Use) :
    (i.useAll uses).loads = i.loads + uses.countP Use.isLoad := by
  induction uses generalizing i with
  | nil => rfl
  | cons u uses ih =>
      rw [useAll, List.foldl_cons, ← useAll, ih, List.countP_cons]
      cases u with
      | loadBuffer feed chunk => exact (Nat.add_right_comm _ _ _).trans (Nat.add_assoc _ _ _)
      | loadStream feed chunk => exact (Nat.add_right_comm _ _ _).trans (Nat.add_assoc _ _ _)
      | call unit => rfl

theorem calls_useAll (i : Interpreter) (uses : List Use) :
    (i.useAll uses).calls = i.calls + uses.countP Use.isCall := by
  induction uses generalizing i with
  | nil => rfl
  | cons u uses ih =>
      rw [useAll, List.foldl_cons, ← useAll, ih, List.countP_cons]
      cases u with
      | loadBuffer feed chunk => rfl
      | loadStream feed chunk => rfl
      | call unit => exact (Nat.add_right_comm _ _ _).trans (Nat.add_assoc _ _ _)

end Interpreter

/-! ## Compiling -/

namespace Compilation

variable (given : Interpreter) (sealer : Sealer) (disk : Disk)

/-- What the interpreter is used for when bytes are compiled. -/
def usesOfBytes (bytes : Bytes) (chunk : Option String) : List Use :=
  [.loadBuffer (.ofBytes sealer bytes) chunk]

/-- What the interpreter is used for when a file is compiled. -/
def usesOfFile (path : String) (chunk : Option String) (blockSize : Nat) : List Use :=
  match disk.openFile path with
  | .error _ => []
  | .ok (length, reader) =>
    [.loadStream (.ofReader reader length sealer blockSize) (chunk.getD (pathChunk path))]

/-- What the interpreter is used for when an asset is compiled. -/
def usesOfAsset (source : AssetSource) (path : String) (chunk : Option String) (blockSize : Nat) :
    List Use :=
  match source.fetch disk path with
  | .error _ => []
  | .ok asset =>
    [.loadStream (.ofReader asset.reader asset.length sealer blockSize)
      (chunk.getD (pathChunk path))]

theorem snd_ofBytes (bytes : Bytes) (chunk : Option String) :
    (ofBytes given sealer bytes chunk).2 = given.useAll (usesOfBytes sealer bytes chunk) := by
  rw [ofBytes_eq]
  rfl

theorem snd_ofFeed (feed : StreamFeed) (chunk path : String) :
    (ofFeed given feed chunk path).2 = given.useAll [.loadStream feed chunk] := by
  have hentered := entered_ofFeed given feed chunk path
  generalize ofFeed given feed chunk path = result at hentered ⊢
  cases hentered with
  | compiled compilation => rfl
  | rejected message => rfl
  | unread content path fault => rfl

theorem snd_ofFile (path : String) (chunk : Option String) (blockSize : Nat) :
    (ofFile given sealer disk path chunk blockSize).2 =
      given.useAll (usesOfFile sealer disk path chunk blockSize) := by
  unfold ofFile usesOfFile
  cases disk.openFile path with
  | error fault => rfl
  | ok opened => exact snd_ofFeed given _ _ path

theorem snd_ofAsset (source : AssetSource) (path : String) (chunk : Option String)
    (blockSize : Nat) :
    (ofAsset given sealer disk source path chunk blockSize).2 =
      given.useAll (usesOfAsset sealer disk source path chunk blockSize) := by
  unfold ofAsset usesOfAsset
  cases source.fetch disk path with
  | error error => rfl
  | ok asset => exact snd_ofFeed given _ _ path

end Compilation

/-! ## Finding -/

namespace Finder

section
variable (name : String) (around : Surroundings) (given : Interpreter)

/-- What the interpreter is used for when a host's reply is followed. -/
def usesOfReply : HostReply → List Use
  | .path path =>
    Compilation.usesOfFile around.sealer around.disk path (some name) around.blockSize
  | .bytes bytes => Compilation.usesOfBytes around.sealer bytes (some name)
  | .missing _ => []
  | .failed _ => []

/-- What the interpreter is used for when a finder is asked.  A host may use it
in any way before it replies. -/
inductive Uses : Finder → List Use → Prop where
  | registry : Uses .registry []
  | file (root : Option String) (extension : String) :
      Uses (.file root extension)
        (Compilation.usesOfFile around.sealer around.disk (ModuleName.filePath root name extension)
          (some name) around.blockSize)
  | asset {source : AssetSource} {root : Option String} {extension : String}
      (h : source.contains (ModuleName.assetPath root name extension) = true) :
      Uses (.asset source root extension)
        (Compilation.usesOfAsset around.sealer around.disk source
          (ModuleName.assetPath root name extension) (some name) around.blockSize)
  | noAsset {source : AssetSource} {root : Option String} {extension : String}
      (h : source.contains (ModuleName.assetPath root name extension) = false) :
      Uses (.asset source root extension) []
  | host {reply : String → Interpreter → HostReply} {leaves : String → Interpreter → Interpreter}
      {own : List Use} (hown : leaves name given = given.useAll own) :
      Uses (.host reply leaves) (own ++ usesOfReply name around (reply name given))
  | probe (label : String) (asked : Nat) : Uses (.probe label asked) []

end

/-- A finder, a host in particular, that does nothing to the interpreter but
use it. -/
def Proper (finder : Finder) : Prop :=
  ∀ name given, ∃ own, finder.handed name given = given.useAll own

theorem Proper.noteAsked {finder : Finder} (h : finder.Proper) : finder.noteAsked.Proper := by
  cases finder with
  | probe label asked => exact h
  | registry => exact h
  | file root extension => exact h
  | asset source root extension => exact h
  | host reply leaves => exact h

variable {name : String} {around : Surroundings} {given : Interpreter}

theorem snd_askFile (root : Option String) (extension : String) :
    (askFile root extension name around given).2 =
      given.useAll (Compilation.usesOfFile around.sealer around.disk
        (ModuleName.filePath root name extension) (some name) around.blockSize) := by
  rw [← Compilation.snd_ofFile]
  cases hopen : around.disk.openFile (ModuleName.filePath root name extension) with
  | error fault => simp only [askFile, Compilation.ofFile, hopen]
  | ok opened => simp only [askFile, hopen]

theorem snd_followReply (reply : HostReply) :
    (followReply reply name around given).2 = given.useAll (usesOfReply name around reply) := by
  cases reply with
  | path path => exact Compilation.snd_ofFile given _ _ path _ _
  | bytes bytes => exact Compilation.snd_ofBytes given _ bytes _
  | missing message => rfl
  | failed message => rfl

/-- A finder leaves the interpreter as its uses make it. -/
theorem snd_ask {finder : Finder} {uses : List Use} (h : Uses name around given finder uses) :
    (finder.ask name around given).2 = given.useAll uses := by
  cases h with
  | registry => rfl
  | file root extension => exact snd_askFile root extension
  | asset h =>
      rw [ask, askAsset]
      simp only [h, if_true]
      exact Compilation.snd_ofAsset given _ _ _ _ _ _
  | noAsset h =>
      rw [ask, askAsset]
      simp only [h]
      rfl
  | host hown =>
      rw [Interpreter.useAll_append, ← hown, ask]
      exact snd_followReply _
  | probe label asked => rfl

theorem Proper.exists_uses {finder : Finder} (h : finder.Proper) (name : String)
    (around : Surroundings) (given : Interpreter) : ∃ uses, Uses name around given finder uses := by
  cases finder with
  | registry => exact ⟨_, .registry⟩
  | file root extension => exact ⟨_, .file root extension⟩
  | asset source root extension =>
      cases hcontains : source.contains (ModuleName.assetPath root name extension) with
      | true => exact ⟨_, .asset hcontains⟩
      | false => exact ⟨_, .noAsset hcontains⟩
  | host reply leaves =>
      obtain ⟨own, hown⟩ := h name given
      exact ⟨_, .host hown⟩
  | probe label asked => exact ⟨_, .probe label asked⟩

end Finder

namespace Chain

/-- What the interpreter is used for in a search: by each finder that says that
there is nothing, and by the one that ends the search. -/
inductive Uses (name : String) (around : Surroundings) : Chain → Interpreter → List Use → Prop where
  | nil (given : Interpreter) : Uses name around [] given []
  | passes {finder : Finder} {later : Chain} {given reached : Interpreter} {message : String}
      {uses more : List Use} (h : finder.Uses name around given uses)
      (hask : finder.ask name around given = (.nothing message, reached))
      (hlater : Uses name around later reached more) :
      Uses name around (finder :: later) given (uses ++ more)
  | ends {finder : Finder} {later : Chain} {given : Interpreter} {uses : List Use}
      (h : finder.Uses name around given uses)
      (hask : ∀ message reached, finder.ask name around given ≠ (.nothing message, reached)) :
      Uses name around (finder :: later) given uses

variable {name : String} {around : Surroundings}

theorem interpreter_searchFrom {chain : Chain} {given : Interpreter} {uses : List Use}
    (h : chain.Uses name around given uses) (attempts : List String) :
    (chain.searchFrom name around attempts given).interpreter = given.useAll uses := by
  induction h generalizing attempts with
  | nil given => rfl
  | passes h hask _ ih =>
      have hreached := Finder.snd_ask h
      rw [hask] at hreached
      rw [searchFrom, hask, Interpreter.useAll_append, ← hreached]
      exact ih _
  | @ends finder later given uses h hask =>
      rw [← Finder.snd_ask h, searchFrom]
      rcases hanswer : finder.ask name around given with ⟨answer, reached⟩
      cases answer with
      | found unit origin => rfl
      | failed error => rfl
      | nothing message => exact absurd hanswer (hask message reached)

theorem exists_uses {chain : Chain} (h : ∀ finder ∈ chain, finder.Proper) (name : String)
    (around : Surroundings) (given : Interpreter) :
    ∃ uses, chain.Uses name around given uses := by
  induction chain generalizing given with
  | nil => exact ⟨[], .nil given⟩
  | cons finder later ih =>
      obtain ⟨uses, huses⟩ := (h finder List.mem_cons_self).exists_uses name around given
      by_cases hask : ∃ message reached, finder.ask name around given = (.nothing message, reached)
      · obtain ⟨message, reached, hask⟩ := hask
        obtain ⟨more, hmore⟩ := ih (fun other hmem => h other (List.mem_cons_of_mem _ hmem)) reached
        exact ⟨uses ++ more, .passes huses hask hmore⟩
      · exact ⟨uses, .ends huses fun message reached hnothing => hask ⟨message, reached, hnothing⟩⟩

/-- The finders after a search are those before it, asked or not. -/
theorem proper_searchFrom {chain : Chain} (h : ∀ finder ∈ chain, finder.Proper) (name : String)
    (around : Surroundings) (attempts : List String) (given : Interpreter) :
    ∀ finder ∈ (chain.searchFrom name around attempts given).chain, finder.Proper := by
  induction chain generalizing attempts given with
  | nil => exact fun finder hmem => nomatch hmem
  | cons finder later ih =>
      have hasked : finder.noteAsked.Proper := (h finder List.mem_cons_self).noteAsked
      have hlater : ∀ other ∈ later, other.Proper := fun other hmem =>
        h other (List.mem_cons_of_mem _ hmem)
      rw [searchFrom]
      split
      · exact List.forall_mem_cons.mpr ⟨hasked, hlater⟩
      · exact List.forall_mem_cons.mpr ⟨hasked, hlater⟩
      · exact List.forall_mem_cons.mpr ⟨hasked, ih hlater _ _⟩

end Chain

end SealedModules
