import Neutrino.Engine.Rows
import Neutrino.Library.Effects

-- The engine's memory, the walk between heads, the replay of a branch and atomic
-- publication (engine.rs, import.rs and store/canonical.rs).
namespace Neutrino.ConsensusEngine
open Checks Consensus Chain Proving ColumnStore

inductive StoreError where
  | database
  | corrupt (reason : String)
deriving DecidableEq

inductive ImportError (Hash : Type) where
  | missingParentHeader (parentHash : Hash)
  | reorgPastFinalized (lcaHeight finalizedHeight : Nat)
  | execution
  | store (error : StoreError)
  -- An ancestor walk that never reaches an end.
  | diverged
deriving DecidableEq

inductive ProofError where
  | invalidWitness
  | publicInputMismatch
  | unsupported
  | rejected
deriving DecidableEq

inductive EngineError (Hash : Type) where
  | store (error : StoreError)
  | replay (error : ImportError Hash)
  | backend (error : ProofError)
  | nonContiguousChunkId (latest : Option Nat) (requested : Nat)
  | heightRangeOverflow
deriving DecidableEq

structure ForkChoice (Hash : Type) where
  blocks : List (Hash × Hash)
  finalized : Hash
deriving DecidableEq

structure Engine (Hash Key Sig Blob Node Value Tr : Type) where
  db : Database Hash Key Sig Blob Node Value
  chainSpec : ChainSpec Hash Key
  programs : Option (ProgramSet Hash)
  consensusPrograms : ConsensusPrograms
  state : Tr
  headHeight : Nat
  headHash : Hash
  headStateRoot : Hash
  finalizedSeed : Hash
  latestFinalizedChunkId : Option Nat
  recursiveCoveredChunks : Nat
  activeValidatorSet : List (Validator Hash Key)
  previousValidatorSetRoot : Hash
  bftSessions : List Nat
  forkChoice : ForkChoice Hash
  -- Local voter, slashing monitor and rejected proofs.
  observations : Blob

structure TrieOps (Hash Node Value Tr : Type) where
  zero : Hash
  root : Tr → Hash
  pendingNodes : Tr → List (Hash × Node)
  pendingValues : Tr → List (Hash × Value)
  drained : Tr → Tr
  fromPersisted : Hash → List (Hash × Node) → List (Hash × Value) → Tr
  nodeBytes : Tr → Hash → Option Node
  valueBytes : Tr → Hash → Option Value
  retainRoots : Tr → List Hash → Option Tr

structure EngineHost (Hash Key Sig State Blob Node Value Tr : Type) extends ConsensusHost Hash Key Sig State where
  tries : TrieOps Hash Node Value Tr
  checkpointHash : Checkpoint Hash → Hash
  rangeId : HistoryStatement Hash → Hash
  -- The checked execution of a stored block.
  execute : Engine Hash Key Sig Blob Node Value Tr → Header Hash Sig → Blob → Tr → Option Tr
  observe : ConsensusState Hash Key → Blob → Blob
  -- History openings, evidence and reporter rows that follow a finalized record.
  historyRows : Database Hash Key Sig Blob Node Value → HistoricalChunk Hash Key Sig → Except StoreError (List (Hash × Option Blob))
  -- Openings and evidence no retaining node can still use.
  staleRows : Database Hash Key Sig Blob Node Value → RetentionInfo → Except StoreError (List Hash)
  release : RetentionInfo → Blob → Blob
  -- Signature, eligibility, clock, gas and body-root checks of an imported block.
  authentic : Engine Hash Key Sig Blob Node Value Tr → Header Hash Sig → Blob → Bool
  sameContent : Blob → Blob → Bool

variable {Hash Key Sig State Blob Node Value Tr : Type} [DecidableEq Hash] [DecidableEq Key] [DecidableEq Sig]
variable (host : EngineHost Hash Key Sig State Blob Node Value Tr)

def blockHash (header : Header Hash Sig) : Hash := host.headerHash header.toHeaderHashPayload

section
variable (db : Database Hash Key Sig Blob Node Value)

def retentionInfo : Except StoreError RetentionInfo := do
  let info := (db.rows .historyRetention).getD .default
  ensure (info.firstRetainedHeight ≠ 0 ∧ (info.policy = .archive → info.prunedBeforeChunk = 0)) (.corrupt "invalid retention metadata")
  pure info

def chainHeader (hash : Hash) : Except StoreError (Header Hash Sig) := do
  let header ← required (db.rows (.header hash)) (.corrupt "chain header is missing")
  ensure (blockHash host header = hash ∧ header.height ≠ 0) (.corrupt "chain header hash or height is invalid")
  pure header

def stagedHeaders : RowBatch Hash Key Sig Blob Node Value → Except StoreError (List (Hash × Header Hash Sig))
  | [] => .ok []
  | .put (.header key) header::rest => do
    ensure (blockHash host header = key ∧ header.height ≠ 0) (.corrupt "staged header is inconsistent")
    let others ← stagedHeaders rest
    pure ((key,header)::others)
  | _::rest => stagedHeaders rest

def stagedHeader (staged : List (Hash × Header Hash Sig)) (hash : Hash) : Except StoreError (Header Hash Sig) :=
  match staged.reverse.lookup hash with
  | some header => .ok header
  | none => chainHeader host db hash

def reindex (staged : List (Hash × Header Hash Sig)) (anchorHeight : Nat) : Nat → Hash → Except StoreError (List (Nat × Hash) × Nat × Hash)
  | 0,cursor => .ok ([],0,cursor)
  | height+1,cursor =>
    if db.rows (.headerByHeight (height + 1)) = some cursor then .ok ([],height + 1,cursor)
    else do
      ensure (anchorHeight < height + 1) (.corrupt "reorg crosses retained anchor")
      let header ← stagedHeader host db staged cursor
      ensure (header.height = height + 1) (.corrupt "chain ancestry heights are not contiguous")
      let (updates,expected,last) ← reindex staged anchorHeight height header.parentHash
      pure ((height + 1,cursor)::updates,expected,last)

def oldHeight (genesis : Hash) : Except StoreError Nat :=
  match db.rows .tip with
  | none => .ok 0
  | some old =>
    if old = genesis then .ok 0
    else do
      let header ← chainHeader host db old
      ensure (db.rows (.headerByHeight header.height) = some old) (.corrupt "tip disagrees with canonical height index")
      pure header.height

def newHeight (staged : List (Hash × Header Hash Sig)) (hash genesis : Hash) : Except StoreError Nat :=
  if hash = genesis then .ok 0 else (stagedHeader host db staged hash).map (·.height)

-- Index entries of the changed ancestry, the removal of the old tail and the tip.
def headRows (updates : List (Nat × Hash)) (genesis : Hash) (height previous : Nat) (hash : Hash) : RowBatch Hash Key Sig Blob Node Value :=
  updates.map (fun entry => .put (.headerByHeight entry.1) entry.2) ++ [.put (.headerByHeight 0) genesis] ++
    (List.range' (height + 1) (previous - height)).map (fun stale => .delete (.headerByHeight stale)) ++ [.put .tip hash]

def commitTipBatch (hash genesis : Hash) (batch : RowBatch Hash Key Sig Blob Node Value) :
    Except StoreError (RowBatch Hash Key Sig Blob Node Value) := do
  let info ← retentionInfo db
  let anchorHeight := info.firstRetainedHeight - 1
  let previous ← oldHeight host db genesis
  let staged ← stagedHeaders host batch
  let height ← newHeight host db staged hash genesis
  ensure (anchorHeight ≤ height) (.corrupt "head predates retained anchor")
  let (updates,expected,cursor) ← reindex host db staged anchorHeight height hash
  ensure (expected = 0 → cursor = genesis) (.corrupt "chain ancestry does not reach trusted genesis")
  pure (batch ++ headRows updates genesis height previous hash)
end
section
def ancestorsOf (db : Database Hash Key Sig Blob Node Value) (genesis : Hash) : Nat → Hash → Except (ImportError Hash) (List Hash)
  | 0,_ => .error .diverged
  | fuel+1,cursor =>
    if cursor = genesis then .ok [cursor]
    else do
      let header ← required (db.rows (.header cursor)) (.missingParentHeader cursor)
      let older ← ancestorsOf db genesis fuel header.parentHash
      pure (cursor::older)

-- Back from the new head to the first shared ancestor; the branch comes out
-- ancestor-first.
def branchTo (db : Database Hash Key Sig Blob Node Value) (genesis : Hash) (shared : List Hash) : Nat → Hash → List Hash →
    Except (ImportError Hash) (Hash × List Hash)
  | 0,_,_ => .error .diverged
  | fuel+1,cursor,branch =>
    if cursor ∈ shared then .ok (cursor,branch)
    else if cursor = genesis then .error (.missingParentHeader cursor)
    else do
      let header ← required (db.rows (.header cursor)) (.missingParentHeader cursor)
      branchTo db genesis shared fuel header.parentHash (cursor::branch)

variable (engine : Engine Hash Key Sig Blob Node Value Tr)

def walkBudget (db : Database Hash Key Sig Blob Node Value) : Nat := db.listed.length + 2

def findLcaAndPathTo (newHead : Hash) : Except (ImportError Hash) (Hash × List Hash) := do
  let genesis := engine.chainSpec.genesisBlockHash
  let shared ← ancestorsOf engine.db genesis (walkBudget engine.db) engine.headHash
  branchTo engine.db genesis shared (walkBudget engine.db) newHead []

def lookupBlockState (hash : Hash) : Except (ImportError Hash) (Hash × Nat) :=
  if hash = engine.chainSpec.genesisBlockHash then .ok (engine.chainSpec.genesisStateRoot,0)
  else do
    let header ← required (engine.db.rows (.header hash)) (.missingParentHeader hash)
    pure (header.stateRoot,header.height)

def chunkHeights (chunkId : Nat) : Option (Nat × Nat) := do
  let below ← checkedMul chunkId engine.chainSpec.consensus.chunkSize
  let start ← checkedAdd below 1
  let next ← checkedAdd chunkId 1
  let last ← checkedMul next engine.chainSpec.consensus.chunkSize
  pure (start,last)

def trieNodes (db : Database Hash Key Sig Blob Node Value) : List (Hash × Node) :=
  (db.scan fun key => match key with | .trieNode hash => some hash | _ => none).filterMap fun hash =>
    (db.rows (.trieNode hash)).map fun bytes => (hash,bytes)

def stateValues (db : Database Hash Key Sig Blob Node Value) : List (Hash × Value) :=
  (db.scan fun key => match key with | .stateValue hash => some hash | _ => none).filterMap fun hash =>
    (db.rows (.stateValue hash)).map fun bytes => (hash,bytes)

def persistedTrie (root : Hash) : Tr := host.tries.fromPersisted root (trieNodes engine.db) (stateValues engine.db)

structure ReplayedHead (Hash Tr : Type) where
  height : Nat
  hash : Hash
  stateRoot : Hash
  state : Tr

def replayBlock (replayed : ReplayedHead Hash Tr) (hash : Hash) : Except (ImportError Hash) (ReplayedHead Hash Tr) := do
  let header ← required (engine.db.rows (.header hash)) (.missingParentHeader hash)
  let body ← required (engine.db.rows (.block .blocks hash)) (.missingParentHeader hash)
  let next ← required (host.execute engine header body replayed.state) .execution
  pure ⟨header.height,hash,header.stateRoot,next⟩

def replayToHead (newHead : Hash) : Except (ImportError Hash) (ReplayedHead Hash Tr) := do
  let (lcaHash,branch) ← findLcaAndPathTo engine newHead
  let (lcaStateRoot,lcaHeight) ← lookupBlockState engine lcaHash
  match engine.latestFinalizedChunkId with
  | none => pure ()
  | some chunkId =>
    let finalizedHeight := ((chunkHeights engine chunkId).map (·.2)).getD maxU64
    ensure (finalizedHeight ≤ lcaHeight) (.reorgPastFinalized lcaHeight finalizedHeight)
  branch.foldlM (replayBlock host engine) ⟨lcaHeight,lcaHash,lcaStateRoot,persistedTrie host engine lcaStateRoot⟩
end

abbrev EngineM (Hash Key Sig Blob Node Value Tr : Type) := EStateM (EngineError Hash) (Engine Hash Key Sig Blob Node Value Tr)

def writeObservedBatch (accepts : Bool) (batch : RowBatch Hash Key Sig Blob Node Value) :
    EngineM Hash Key Sig Blob Node Value Tr Unit := fun engine =>
  if accepts then .ok () {engine with db := engine.db.write batch} else .error (.store .database) engine

def trieDelta (state : Tr) : RowBatch Hash Key Sig Blob Node Value :=
  (host.tries.pendingNodes state).map (fun entry => .put (.trieNode entry.1) entry.2) ++
    (host.tries.pendingValues state).map (fun entry => .put (.stateValue entry.1) entry.2)

def commitMaterializedHeadWithBatch (accepts : Bool) (height : Nat) (hash stateRoot : Hash) (nextState : Option Tr)
    (batch : RowBatch Hash Key Sig Blob Node Value) : EngineM Hash Key Sig Blob Node Value Tr Unit := do
  Effects.attempt (ensure (∀ state ∈ nextState, host.tries.root state = stateRoot)
    (.store (.corrupt "staged state root disagrees with head")))
  let engine ← get
  let state := nextState.getD engine.state
  let full ← Effects.attempt ((commitTipBatch host engine.db hash engine.chainSpec.genesisBlockHash
    (batch ++ trieDelta host state)).mapError .store)
  writeObservedBatch accepts full
  modify fun engine => {engine with
    state := host.tries.drained state
    headHeight := height
    headHash := hash
    headStateRoot := stateRoot }
end Neutrino.ConsensusEngine
