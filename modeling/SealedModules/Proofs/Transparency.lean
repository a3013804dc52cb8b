/-
# Sealed modules load like what they seal

A world loads bytes from memory, from a file, or from its assets; what comes
of it is the same in all three cases (`Loaded.eq`), and the interpreter only
ever sees the payload.  With protection on, the payload of a sealed module is
what was sealed, and no more than one envelope is taken off: a sealed module
inside is handed to the interpreter as it is.

What still bears an envelope is refused.  The first byte of the envelope is
not the one that compiled modules start with, so it is read as a script, and
no script starts with that character, whatever bytes come after the envelope
(`read_of_opens`).
-/
import SealedModules.ModuleSystem
import SealedModules.Proofs.Files
import SealedModules.Proofs.Loading
import SealedModules.Proofs.PackedIndex
import SealedModules.Proofs.Scripts

namespace SealedModules

/-! ## Loading under a name -/

/-- Opening an asset gives just these bytes, in whatever pieces. -/
def AssetSource.Serves (source : AssetSource) (disk : Disk) (path : String) (bytes : Bytes) :
    Prop :=
  ∃ plan, source.fetch disk path = .ok ⟨bytes.length, ⟨bytes, plan⟩⟩ ∧ Reader.SteadyPlan plan

theorem AssetIndex.serves {index : AssetIndex} {disk : Disk} {path : String} {entry : AssetEntry}
    {bytes : Bytes} (hentry : index.get? (AssetPath.normalize path) = some entry)
    (hbytes : entryBytes disk entry = .ok bytes) : index.toSource.Serves disk path bytes := by
  refine ⟨[], ?_, List.forall_mem_nil _⟩
  show index.fetch disk path = _
  rw [AssetIndex.fetch, hentry]
  cases entry with
  | embedded held =>
      obtain rfl := Except.ok.inj hbytes
      rfl
  | onDisk file =>
      have hopen := Disk.openFile_of_fileBytes hbytes
      simp only [hopen]

/-- Bytes put into an index are served under every spelling of their path. -/
theorem AssetIndex.serves_insert {path name : String} (h : AssetPath.normalize path = name)
    (index : AssetIndex) (disk : Disk) (bytes : Bytes) :
    AssetSource.Serves (AssetIndex.toSource (index.insert name (.embedded bytes))) disk path
      bytes := by
  have hentry : (index.insert name (.embedded bytes)).get? (AssetPath.normalize path) =
      some (.embedded bytes) := by
    rw [h, Dictionary.get?_insert, if_pos rfl]
  exact AssetIndex.serves hentry rfl

namespace World

/-- What comes of loading some bytes under a name, from any origin that holds
them. -/
inductive Loaded (w : World) (name : String) (bytes : Bytes) :
    Except ModuleError CompiledModule × World → Prop where
  | memory : Loaded w name bytes (w.compileBytes name bytes)
  | file {path : String} (h : w.disk.fileBytes path = .ok bytes) :
      Loaded w name bytes (w.compileFile path (some name))
  | asset {source : AssetSource} {path : String} (hassets : w.system.assets = some source)
      (h : source.Serves w.disk path bytes) :
      Loaded w name bytes (w.compileAsset path (some name))

/-- What the interpreter of a world makes of bytes in a chunk with a name. -/
def interpret (w : World) (name : String) (bytes : Bytes) :
    Except ModuleError CompiledModule × World :=
  let (loaded, interpreter, _) := w.system.interpreter.load (Queue.mk [bytes]) (some name)
  (loaded.mapError (.rejected name), w.withInterpreter interpreter)

theorem interpret_eq (w : World) (name : String) (bytes : Bytes) :
    w.interpret name bytes =
      ((Interpreter.read bytes name).mapError (.rejected name),
        w.withInterpreter (w.system.interpreter.noteLoad name)) := by
  unfold interpret
  simp only [Interpreter.load_eq, Queue.drain_singleton, Option.getD_some]

/-- Wherever bytes come from, the interpreter is fed their payload. -/
theorem Loaded.eq {w : World} {name : String} {bytes : Bytes}
    {result : Except ModuleError CompiledModule × World} (h : w.Loaded name bytes result) :
    result = w.interpret name (payload w.system.sealer bytes bytes.length) := by
  have hunit : (Compilation.outcome w.system.sealer bytes bytes.length (some name)).map (·.unit) =
      (Interpreter.read (payload w.system.sealer bytes bytes.length) name).mapError
        (.rejected name) := by
    unfold Compilation.outcome
    rw [Option.getD_some]
    cases Interpreter.read (payload w.system.sealer bytes bytes.length) name with
    | ok unit => rfl
    | error message => rfl
  rw [interpret_eq, ← hunit]
  cases h with
  | memory =>
      unfold compileBytes
      rw [Compilation.ofBytes_eq]
      rfl
  | file h =>
      unfold compileFile
      rw [Compilation.ofFile_of_openFile _ _ (Disk.openFile_of_fileBytes h)]
      rfl
  | asset hassets h =>
      obtain ⟨plan, hfetch, hsteady⟩ := h
      have hcalm : StreamFeed.Undisturbed ⟨bytes, plan⟩ bytes.length w.system.sealer
          w.system.blockSize := StreamFeed.undisturbed_of_steadyPlan hsteady _ _ _
      unfold compileAsset
      simp only [hassets, Compilation.ofAsset, hfetch,
        Compilation.ofFeed_of_undisturbed _ _ hcalm]
      rfl

end World

/-! ## One envelope is taken off -/

theorem payload_of_unwrap {sealer : Sealer} {bytes inner : Bytes}
    (h : sealer.unwrap bytes = .ok inner) : payload sealer bytes bytes.length = inner := by
  obtain ⟨hprotecting, e, hparse, hmatch, hinner⟩ := Sealer.unwrap_eq_ok_iff.mp h
  have hsealed : StreamFeed.contentOf sealer bytes bytes.length = .sealedModule :=
    StreamFeed.contentOf_eq_sealedModule_iff.mpr ⟨hprotecting, e, hparse, hmatch⟩
  rw [payload, if_pos hsealed, hinner]

/-- The flags decide whether a payload is wrapped, and not how. -/
theorem Sealer.wrap_congr {first second : Sealer} (hcipher : first.cipher = second.cipher)
    (hfirst : first.isProtecting = true) (hsecond : second.isProtecting = true)
    (payload : Bytes) : first.wrap payload = second.wrap payload := by
  simp only [wrap, encode, hcipher, hfirst, hsecond]

/-! ## Envelopes are not read -/

theorem Envelope.opens_of_wrap {sealer : Sealer} {inner bytes : Bytes}
    (h : sealer.wrap inner = .ok bytes) : Opens bytes := by
  obtain ⟨-, -, rfl⟩ := Sealer.wrap_eq_ok_iff.mp h
  exact opens_of_parse? (parse?_toBytes_append _ _)

theorem Interpreter.read_of_opens {bytes : Bytes} (h : Envelope.Opens bytes) (chunk : String) :
    ∃ message, read bytes chunk = .error message := by
  obtain ⟨rest, rfl⟩ : ∃ rest, bytes = 0x4D :: rest := by
    have hmagic := List.take_append_drop 8 bytes
    rw [h.2] at hmagic
    exact ⟨_, hmagic.symm⟩
  have htext : Utf8.decodeChars (0x4D :: rest) = 'M' :: Utf8.decodeChars rest := rfl
  obtain ⟨message, hmessage⟩ :=
    Script.compile_eq_error_of_head htext (by decide) (by decide) chunk
  have htag : ¬ (0x4D :: rest : Bytes).head? = CompiledModule.tag.head? := fun heq =>
    absurd (Option.some.inj heq) (by decide)
  exact ⟨message, by rw [read, if_neg htag, hmessage]⟩

namespace World

theorem interpret_of_opens (w : World) (name : String) {bytes : Bytes}
    (h : Envelope.Opens bytes) :
    ∃ message, (w.interpret name bytes).1 = .error (.rejected name message) := by
  obtain ⟨message, hmessage⟩ := Interpreter.read_of_opens h name
  refine ⟨message, ?_⟩
  rw [interpret_eq, hmessage]
  rfl

/-! ## The law of sealing -/

/-- From memory, from a file and from the assets, a sealed module is loaded
under a name as its payload is interpreted under that name, if protection is
on and the key is the one it was sealed with; one more envelope in the payload
is then refused.  With protection off a sealed module is refused under every
key. -/
theorem sealing_is_transparent {flags : Flags} (hflags : flags.protection = true) (key : Bytes)
    (signature : UInt8) {inner : Bytes} (hlength : inner.length < UInt32.size) :
    ∃ bytes, Sealer.wrap ⟨flags, Substitution.ofKey key, signature⟩ inner = .ok bytes ∧
      ∀ (w : World) (name : String) (result : Except ModuleError CompiledModule × World),
        w.Loaded name bytes result →
          (w.system.sealer.isProtecting = true →
            w.system.sealer.cipher = Substitution.ofKey key →
            result = w.interpret name inner ∧
              ∀ (sealer : Sealer) (innermost : Bytes), sealer.wrap innermost = .ok inner →
                ∃ message, result.1 = .error (.rejected name message)) ∧
          (w.system.sealer.isProtecting = false →
            result = w.interpret name bytes ∧
              ∃ message, result.1 = .error (.rejected name message)) := by
  -- of the cipher made from the key only this is used
  have hinvertible := Substitution.invertible_ofKey key
  generalize Substitution.ofKey key = cipher at hinvertible ⊢
  have hsealing : Sealer.isProtecting ⟨flags, cipher, signature⟩ = true := hflags
  obtain ⟨bytes, hwrap⟩ : ∃ bytes, Sealer.wrap ⟨flags, cipher, signature⟩ inner = .ok bytes :=
    ⟨_, Sealer.wrap_eq_ok_iff.mpr ⟨hsealing, hlength, rfl⟩⟩
  refine ⟨bytes, hwrap, ?_⟩
  intro w name result hloaded
  have hresult := hloaded.eq
  constructor
  · intro hprotecting hcipher
    have hsame : w.system.sealer.wrap inner = Sealer.wrap ⟨flags, cipher, signature⟩ inner :=
      Sealer.wrap_congr hcipher hprotecting hsealing inner
    have hunwrap : w.system.sealer.unwrap bytes = .ok inner :=
      (Sealer.unwrap_eq_ok_iff_wrap (hcipher ▸ hinvertible)).mpr (hsame.trans hwrap)
    rw [payload_of_unwrap hunwrap] at hresult
    refine ⟨hresult, ?_⟩
    intro sealer innermost hagain
    rw [hresult]
    exact w.interpret_of_opens name (Envelope.opens_of_wrap hagain)
  · intro hopen
    rw [payload_of_not_protecting hopen] at hresult
    refine ⟨hresult, ?_⟩
    rw [hresult]
    exact w.interpret_of_opens name (Envelope.opens_of_wrap hwrap)

/-- A script sealed into an asset: it returns seven where protection is on, is
refused where it is off, and is refused when it was sealed twice. -/
theorem sealed_asset_returns_seven :
    let sealer : Sealer := ⟨{}, Substitution.ofKey Sealer.defaultKey, Sealer.defaultSignature⟩
    let plain : Sealer := ⟨⟨false, true⟩, Substitution.ofKey [], Sealer.defaultSignature⟩
    let script := Utf8.encode "return 7"
    ∃ bytes, sealer.wrap script = .ok bytes ∧
      let index : AssetIndex := Dictionary.empty.insert "m" (AssetEntry.embedded bytes)
      let system : ModuleSystem := ⟨{}, sealer, Dictionary.empty, [], 3, some index.toSource⟩
      (World.compileAsset ⟨system, Disk.scratch⟩ "./m" (some "n")).1 =
          .ok ⟨some 7, none, "n", script⟩ ∧
        ∃ message, (World.compileAsset ⟨{ system with sealer := plain }, Disk.scratch⟩ "./m"
          (some "n")).1 = .error (.rejected "n" message) := by
  intro sealer plain script
  have hon : ({} : Flags).protection = true := rfl
  have hlength : script.length < UInt32.size := by decide
  obtain ⟨bytes, hwrap, hlaw⟩ :=
    sealing_is_transparent hon Sealer.defaultKey Sealer.defaultSignature hlength
  refine ⟨bytes, hwrap, ?_⟩
  intro index system
  have hserves : index.toSource.Serves Disk.scratch "./m" bytes :=
    AssetIndex.serves_insert (by decide) _ _ bytes
  have hsealed := hlaw ⟨system, Disk.scratch⟩ "n" _ (.asset rfl hserves)
  have hplain := hlaw ⟨{ system with sealer := plain }, Disk.scratch⟩ "n" _ (.asset rfl hserves)
  have hread : Interpreter.read script "n" = .ok ⟨some 7, none, "n", script⟩ := by
    decide
  refine ⟨?_, (hplain.2 rfl).2⟩
  rw [(hsealed.1 rfl rfl).1, interpret_eq, hread]
  rfl

end World

end SealedModules
