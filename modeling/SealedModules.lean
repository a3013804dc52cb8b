import SealedModules.Main
import SealedModules.Request
import SealedModules.Proofs.Feeding
import SealedModules.Proofs.Utf8
import SealedModules.Proofs.Writing
import SealedModules.Proofs.Artifact
import SealedModules.Proofs.BinaryForm
import SealedModules.Proofs.Files
import SealedModules.Proofs.Loading
import SealedModules.Proofs.Reloading
import SealedModules.Proofs.Dictionary
import SealedModules.Proofs.Registry
import SealedModules.Proofs.BrokenDump
import SealedModules.Proofs.Corruption
import SealedModules.Proofs.PackReading
import SealedModules.Proofs.AssetPath
import SealedModules.Proofs.PackedIndex
import SealedModules.Proofs.Disturbance
import SealedModules.Proofs.Transparency
import SealedModules.Proofs.Searching
import SealedModules.Proofs.Path
import SealedModules.Proofs.SingleLoad
import SealedModules.Proofs.Places
import SealedModules.Proofs.Unpacking
import SealedModules.Proofs.Trees
import SealedModules.Proofs.IndexedTree
import SealedModules.Proofs.Joining
import SealedModules.Proofs.Rooted
import SealedModules.Proofs.Shipping
import SealedModules.Proofs.Nesting
import SealedModules.Proofs.Extracting
import SealedModules.Proofs.RoundTrip
import SealedModules.Proofs.Stopping
import SealedModules.Proofs.SealedFiles
import SealedModules.Proofs.Inspecting
import SealedModules.Proofs.Histories
import SealedModules.Proofs.Saving
import SealedModules.Proofs.Accepting
import SealedModules.Proofs.FeedReading
import SealedModules.Proofs.Shuffling
import SealedModules.Proofs.BinaryLayout
import SealedModules.Proofs.ScriptGrammar
