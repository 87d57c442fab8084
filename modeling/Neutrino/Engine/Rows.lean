import Neutrino.Chain.LightClient
import Neutrino.Library.ColumnStore
import Neutrino.Proving.Candidate

-- The engine's durable rows (consensus-engine, store), typed by their keys. Bytes
-- that are only stored and handed on are one opaque type.
namespace Neutrino.ConsensusEngine
open Consensus Chain Proving ColumnStore

inductive BlockState where
  | blockProduced
  | pendingProof
  | proven
  | finalized
deriving DecidableEq

inductive RetentionPolicy where
  | archive
  | pruned
  | reporter
deriving DecidableEq

structure RetentionInfo where
  policy : RetentionPolicy
  prunedBeforeChunk : Nat
  firstRetainedHeight : Nat
deriving DecidableEq

def RetentionInfo.default : RetentionInfo := ⟨.pruned,0,1⟩

structure HistoryDependencies (Hash : Type) where
  start : Nat
  end_ : Nat
  progress : Option Hash
deriving DecidableEq

structure ConsensusState (Hash Key : Type) where
  boundary : ConsensusBoundary Hash
  nextContext : ExecutionContext Hash Key
  nextSeed : Hash
  frontier : HistoryFrontier Hash
deriving DecidableEq

structure ChunkProof (Hash Sig Blob : Type) where
  finalityCert : FinalityCert Hash Sig
  chunkId : Nat
  chunkHash : Hash
  publicInputs : Chunk Hash
  proofBytes : Blob
deriving DecidableEq

inductive BlockColumn where
  | blocks
  | blockProofs
  | blockStates
  | witnesses
deriving DecidableEq

inductive CountColumn where
  | chunks
  | chunkProofs
  | finalityCerts
  | chunkStatements
  | historicalChunks
  | validatorSetSnapshots
  | consensusBoundaries
deriving DecidableEq

inductive RowKey (Hash Key : Type) where
  | header (hash : Hash)
  | headerByHeight (height : Nat)
  | headerBySlot (slot : Nat)
  | block (column : BlockColumn) (hash : Hash)
  | counted (column : CountColumn) (count : Nat)
  | checkpointAt (count : Nat)
  | checkpointBy (hash : Hash)
  | historyProof (id : Hash)
  | historyRangeCache (id : Hash)
  | historyRangeIndex (start end_ : Nat)
  | historyPin (id : Hash)
  | historyFrontier (count : Nat)
  | finalizedOffence (id : Hash)
  | finalizedSlash (pubkey : Key)
  | trieNode (hash : Hash)
  | stateValue (hash : Hash)
  | tip
  | finalizedHead
  | finalizedSeed
  | consensusState
  | latestFinalizedChunkId
  | latestValidatorSetIndex
  | recursiveCoveredChunks
  | historyDomain
  | historyRetention
  | snapshotLease (root : Hash)
  | extra (id : Hash)
deriving DecidableEq

variable {Hash Key Sig Blob Node Value : Type}

abbrev BlockRow (Blob : Type) : BlockColumn → Type
  | .blockStates => BlockState
  | _ => Blob

abbrev CountRow (Hash Key Sig Blob : Type) : CountColumn → Type
  | .chunks => Chunk Hash
  | .chunkProofs => ChunkProof Hash Sig Blob
  | .finalityCerts => FinalityCert Hash Sig
  | .chunkStatements => ConsensusStatement Hash
  | .historicalChunks => HistoricalChunk Hash Key Sig
  | .validatorSetSnapshots => List (Validator Hash Key)
  | .consensusBoundaries => ConsensusBoundary Hash

abbrev Row (Hash Key Sig Blob Node Value : Type) : RowKey Hash Key → Type
  | .header _ => Header Hash Sig
  | .headerByHeight _ | .headerBySlot _ => Hash
  | .block column _ => BlockRow Blob column
  | .counted column _ => CountRow Hash Key Sig Blob column
  | .checkpointAt _ | .checkpointBy _ => Checkpoint Hash
  | .historyProof _ => HistoryProof Hash Blob
  | .historyRangeCache _ => Nat × Nat × Nat
  | .historyRangeIndex _ _ => Hash
  | .historyPin _ => HistoryDependencies Hash
  | .historyFrontier _ => HistoryFrontier Hash × Hash
  | .finalizedOffence _ | .finalizedSlash _ => Nat
  | .trieNode _ => Node
  | .stateValue _ => Value
  | .tip | .finalizedHead | .finalizedSeed => Hash
  | .consensusState => ConsensusState Hash Key
  | .latestFinalizedChunkId | .latestValidatorSetIndex | .recursiveCoveredChunks => Nat
  | .historyDomain => ProofDomain Hash
  | .historyRetention => RetentionInfo
  | .snapshotLease _ => Nat × Nat
  | .extra _ => Blob

variable [DecidableEq Hash] [DecidableEq Key]

-- Rows and a list of keys that misses none of them, so a column can be scanned.
structure Database (Hash Key Sig Blob Node Value : Type) where
  rows : Store (Row Hash Key Sig Blob Node Value)
  listed : List (RowKey Hash Key)
  complete : ∀ key, rows key ≠ none → key ∈ listed

abbrev RowBatch (Hash Key Sig Blob Node Value : Type) := Batch (Row Hash Key Sig Blob Node Value)

namespace Database

def empty : Database Hash Key Sig Blob Node Value := ⟨ColumnStore.empty,[],fun _ present => (present rfl).elim⟩

-- The whole batch or nothing: the database applies it in one atomic write.
def write (db : Database Hash Key Sig Blob Node Value) (batch : RowBatch Hash Key Sig Blob Node Value) :
    Database Hash Key Sig Blob Node Value where
  rows := ColumnStore.write db.rows batch
  listed := batch.map Op.key ++ db.listed
  complete := by
    intro key present
    rw [List.mem_append]
    by_cases touched : ∃ op ∈ batch, key = op.key
    · obtain ⟨op,member,same⟩ := touched
      exact .inl (List.mem_map.mpr ⟨op,member,same.symm⟩)
    · rw [write_untouched db.rows batch fun op member same => touched ⟨op,member,same⟩] at present
      exact .inr (db.complete key present)

def scan (db : Database Hash Key Sig Blob Node Value) (column : RowKey Hash Key → Option ι) [DecidableEq ι] : List ι :=
  ((db.listed.filter fun key => (db.rows key).isSome).filterMap column).dedup

theorem mem_scan {db : Database Hash Key Sig Blob Node Value} {column : RowKey Hash Key → Option ι} [DecidableEq ι] :
    index ∈ db.scan column ↔ ∃ key, column key = some index ∧ db.rows key ≠ none := by
  simp only [scan,List.mem_dedup,List.mem_filterMap,List.mem_filter]
  constructor
  · rintro ⟨key,⟨_,present⟩,named⟩
    exact ⟨key,named,Option.isSome_iff_ne_none.mp present⟩
  · rintro ⟨key,named,present⟩
    exact ⟨key,⟨db.complete key present,Option.isSome_iff_ne_none.mpr present⟩,named⟩
end Database
end Neutrino.ConsensusEngine
