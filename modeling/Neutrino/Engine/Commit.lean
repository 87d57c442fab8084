import Neutrino.Engine.Head
import Neutrino.Proving.Contiguity

-- Committing a complete chunk (full_chunk.rs and store/chain_store.rs): the boundary,
-- the checks, the batch and what is installed after it is durable.
namespace Neutrino.ConsensusEngine
open Checks Consensus Chain Proving ColumnStore Effects
variable {Hash Key Sig State Blob Node Value Tr : Type} [DecidableEq Hash] [DecidableEq Key] [DecidableEq Sig]
variable (host : EngineHost Hash Key Sig State Blob Node Value Tr)

structure ProofBackend (Hash Blob : Type) where
  blockProgram : Option VkDigest
  verifyConsensusChunk : Blob → ConsensusStatement Hash → Bool

structure FinalizeOutcome (Hash Sig Blob : Type) where
  chunkHash : Hash
  chunk : Chunk Hash
  chunkProof : ChunkProof Hash Sig Blob
  publicInputs : Chunk Hash
  finalityCert : FinalityCert Hash Sig
deriving DecidableEq

section
variable (engine : Engine Hash Key Sig Blob Node Value Tr)

def genesisPrograms : ProgramSet Hash := engine.programs.getD ⟨engine.chainSpec.runtimeCodeHash,⟨0,0,0⟩⟩

def validateChunkIdSequence (chunkId : Nat) : Except (EngineError Hash) Unit := do
  let expected ← match engine.latestFinalizedChunkId with
    | some latest => required (checkedAdd latest 1) .heightRangeOverflow
    | none => pure 0
  ensure (chunkId = expected) (.nonContiguousChunkId engine.latestFinalizedChunkId chunkId)

def consensusBoundary (chunkId : Nat) : Except (EngineError Hash) (ExecutionContext Hash Key × Hash × HistoryFrontier Hash) := do
  validateChunkIdSequence engine chunkId
  if chunkId = 0 then
    pure (genesisContext host.toConsensusHost engine.chainSpec (genesisPrograms engine),engine.chainSpec.genesisSeed,.initial)
  else do
    let previous ← required (engine.db.rows .consensusState) (.backend .invalidWitness)
    ensure (previous.nextContext.chunkId = chunkId) (.backend .publicInputMismatch)
    let boundary ← (contextBoundary host.toConsensusHost previous.nextContext previous.nextSeed).mapError fun _ => .backend .invalidWitness
    ensure (boundary = previous.boundary ∧ previous.frontier.root host.tree = some previous.boundary.historyRoot)
      (.backend .publicInputMismatch)
    pure (previous.nextContext,previous.nextSeed,previous.frontier)
end
section
variable (db : Database Hash Key Sig Blob Node Value)

def frontierTreeRoot (tree : HistoryTree Hash) (frontier : HistoryFrontier Hash) : Option Hash :=
  if frontier.wellShaped then
    HistoryFrontier.climb tree frontier.count (List.range historyDepth) frontier.peaks (tree.empty 0)
  else none

def historySnapshot (count : Nat) : Except StoreError (HistoryFrontier Hash) :=
  if count = 0 then .ok .initial
  else do
    let (frontier,root) ← required (db.rows (.historyFrontier count)) (.corrupt "history frontier is unavailable")
    ensure (frontier.count = count ∧ frontier.root host.tree = some (host.tree.countedRoot count root))
      (.corrupt "history frontier root mismatch")
    pure frontier

def historyFrontierCounts : List Nat := db.scan fun key => match key with | .historyFrontier count => some count | _ => none

def pruneHistoryFrontiersBatch (current coveredPrefix : Nat) : RowBatch Hash Key Sig Blob Node Value :=
  ((historyFrontierCounts db).filter fun count =>
    !decide ((current - historyRetentionChunks ≤ count ∧ count ≤ current) ∨ count = coveredPrefix)).map
    fun count => .delete (.historyFrontier count)

def extraRows (rows : List (Hash × Option Blob)) : RowBatch Hash Key Sig Blob Node Value := rows.map fun entry => match entry.2 with
    | some bytes => .put (.extra entry.1) bytes
    | none => .delete (.extra entry.1)

def appendHistoryBatch (record : HistoricalChunk Hash Key Sig) :
    Except StoreError (RowBatch Hash Key Sig Blob Node Value × HistoryFrontier Hash) := do
  let index := record.chunk.chunkId
  let old ← historySnapshot host db index
  let (_,frontier) ← required (old.append host.tree (host.contextCommitment (record.evidenceContext host.toEvidenceHost)))
    (.corrupt "invalid history append")
  let info ← retentionInfo db
  let opened ← host.historyRows db record
  let root ← required (frontierTreeRoot host.tree frontier) (.corrupt "invalid history frontier")
  pure (extraRows opened ++ [.put (.historyFrontier frontier.count) (frontier,root), .put (.counted .historicalChunks index) record] ++
    (if info.policy = .archive then [] else
      pruneHistoryFrontiersBatch db frontier.count ((db.rows .recursiveCoveredChunks).getD 0)),frontier)

def checkpointRows (checkpoint : Checkpoint Hash) : RowBatch Hash Key Sig Blob Node Value :=
  [.put (.checkpointAt checkpoint.boundary.nextChunkId) checkpoint, .put (.checkpointBy (host.checkpointHash checkpoint)) checkpoint]

def blockRows (block : ProvenBlock Hash Key Sig) : RowBatch Hash Key Sig Blob Node Value :=
  block.output.accountability.admitted.flatMap (fun admission =>
    .put (.finalizedOffence admission.offenceId) block.header.height::
      (if admission.kind = .slash then [.put (.finalizedSlash admission.offender.pubkey) block.header.height] else [])) ++
    [.put (.block .blockStates (blockHash host block.header)) BlockState.finalized]

def historicalRecord (witness : ConsensusWitness Hash Key Sig State) (chunk : Chunk Hash) : HistoricalChunk Hash Key Sig where
  runtimeCodeHash := witness.context.programs.runtimeCodeHash
  blockGuestVkDigest := witness.context.programs.execution.block
  chunk := chunk
  validators := witness.context.activeValidators
  seed := witness.seed
  finality := witness.finalityCert

def pointerRows (statement : ConsensusStatement Hash) (state : ConsensusState Hash Key) : RowBatch Hash Key Sig Blob Node Value :=
  [.put .latestFinalizedChunkId statement.chunk.chunkId, .put .finalizedHead statement.chunk.endBlockHash,
    .put .finalizedSeed state.nextSeed,
    .put (.counted .validatorSetSnapshots state.nextContext.chunkId) state.nextContext.activeValidators,
    .put .latestValidatorSetIndex state.nextContext.chunkId]

def boundaryCheckpoints (statement : ConsensusStatement Hash) : RowBatch Hash Key Sig Blob Node Value :=
  match db.rows .historyDomain with
  | some domain => checkpointRows host ⟨domain.chain,statement.start⟩ ++ checkpointRows host ⟨domain.chain,statement.end_⟩
  | none => []

def statementRows (statement : ConsensusStatement Hash) : RowBatch Hash Key Sig Blob Node Value :=
  [.put (.counted .chunkStatements statement.chunk.chunkId) statement,
    .put (.counted .consensusBoundaries statement.start.nextChunkId) statement.start,
    .put (.counted .consensusBoundaries statement.end_.nextChunkId) statement.end_]

-- Everything a finalized chunk makes durable, in the order it is staged.
def consensusFinalizationBatch (witness : ConsensusWitness Hash Key Sig State) (proof : ChunkProof Hash Sig Blob)
    (statement : ConsensusStatement Hash) (state : ConsensusState Hash Key) :
    Except StoreError (RowBatch Hash Key Sig Blob Node Value) := do
  let chunk := statement.chunk
  let (history,frontier) ← appendHistoryBatch host db (historicalRecord witness chunk)
  ensure (frontier = state.frontier ∧ frontier.root host.tree = some state.boundary.historyRoot)
    (.corrupt "proven history append differs from archive")
  pure ([.put (.counted .chunks chunk.chunkId) chunk, .put (.counted .chunkProofs chunk.chunkId) proof,
    .put (.counted .finalityCerts chunk.chunkId) witness.finalityCert] ++
    .put .consensusState state::(pointerRows statement state ++ boundaryCheckpoints host db statement ++
      statementRows statement ++ history ++ witness.blocks.flatMap (blockRows host)))
end
section
def blockExtends (fork : ForkChoice Hash) : Nat → Hash → Hash → Bool
  | 0,_,_ => false
  | fuel+1,descendant,ancestor =>
    if descendant = ancestor then true
    else match fork.blocks.lookup descendant with
      | none => false
      | some parent => if parent = descendant then false else blockExtends fork fuel parent ancestor

def addFinalizedChunk (fork : ForkChoice Hash) (chunk : Chunk Hash) (cert : FinalityCert Hash Sig) : ForkChoice Hash :=
  if cert.chunkId = chunk.chunkId ∧ cert.chunkHash = host.chunkHash chunk ∧
      blockExtends fork (fork.blocks.length + 1) chunk.endBlockHash fork.finalized = true then
    {fork with finalized := chunk.endBlockHash}
  else fork

def installConsensusState (state : ConsensusState Hash Key) (engine : Engine Hash Key Sig Blob Node Value Tr) :
    Engine Hash Key Sig Blob Node Value Tr := {engine with
  latestFinalizedChunkId := checkedSub state.boundary.nextChunkId 1
  finalizedSeed := state.nextSeed
  activeValidatorSet := state.nextContext.activeValidators
  previousValidatorSetRoot := host.commitment state.nextContext.activeValidators
  observations := host.observe state engine.observations }
end

-- A validation handed in by the caller is that of this very witness.
structure CommitRequest (Hash Key Sig State Blob : Type)
    (validate : ConsensusWitness Hash Key Sig State → Except ConsensusError (ValidatedConsensus Hash Key)) where
  witness : ConsensusWitness Hash Key Sig State
  proof : Blob
  backend : ProofBackend Hash Blob
  imported : Bool
  executor : Bool
  validated : Option (ValidatedConsensus Hash Key)
  own : ∀ result ∈ validated, validate witness = .ok result

variable (validate : ConsensusWitness Hash Key Sig State → Except ConsensusError (ValidatedConsensus Hash Key))

def storedHeader (db : Database Hash Key Sig Blob Node Value) (imported : Bool) (header : Header Hash Sig) : Option (Header Hash Sig) :=
  if imported then db.rows (.header (blockHash host header))
  else (db.rows (.headerByHeight header.height)).bind fun hash => db.rows (.header hash)

structure PreparedCommit (Hash Key Sig Blob Node Value : Type) where
  statement : ConsensusStatement Hash
  wire : ChunkProof Hash Sig Blob
  state : ConsensusState Hash Key
  batch : RowBatch Hash Key Sig Blob Node Value

def prepareCommit [DecidableEq (ChainSpec Hash Key)] (engine : Engine Hash Key Sig Blob Node Value Tr)
    (request : CommitRequest Hash Key Sig State Blob validate) :
    Except (EngineError Hash) (PreparedCommit Hash Key Sig Blob Node Value) := do
  let witness := request.witness
  let (context,seed,_) ← consensusBoundary host engine witness.context.chunkId
  ensure (witness.context = context ∧ witness.seed = seed ∧ witness.chainSpec = engine.chainSpec ∧
    request.backend.blockProgram = some witness.blockGuestVkDigest) (.backend .publicInputMismatch)
  ensure (∀ block ∈ witness.blocks, storedHeader host engine.db request.imported block.header = some block.header)
    (.backend .publicInputMismatch)
  let validated ← match request.validated with
    | some validated => pure validated
    | none => (validate witness).mapError fun _ => .backend .invalidWitness
  let statement := validated.statement
  ensure (request.backend.verifyConsensusChunk request.proof statement = true) (.backend .rejected)
  let chunk := statement.chunk
  let wire : ChunkProof Hash Sig Blob := ⟨witness.finalityCert,chunk.chunkId,host.chunkHash chunk,chunk,request.proof⟩
  let (historyRoot,frontier) ← required (witness.history.frontier.append host.tree
    (host.contextCommitment ((historicalRecord witness chunk).evidenceContext host.toEvidenceHost))) (.backend .invalidWitness)
  ensure (historyRoot = statement.end_.historyRoot) (.backend .publicInputMismatch)
  let boundary ← (contextBoundary host.toConsensusHost validated.nextContext statement.end_.seed).mapError fun _ => .backend .invalidWitness
  ensure (boundary = statement.end_) (.backend .publicInputMismatch)
  let state : ConsensusState Hash Key := ⟨statement.end_,validated.nextContext,statement.end_.seed,frontier⟩
  let batch ← (consensusFinalizationBatch host engine.db witness wire statement state).mapError .store
  pure ⟨statement,wire,state,batch⟩

-- One durable write, with the replayed branch unless the chain is selected already.
def publishFinality (accepts executor : Bool) (engine : Engine Hash Key Sig Blob Node Value Tr)
    (prepared : PreparedCommit Hash Key Sig Blob Node Value) : EngineM Hash Key Sig Blob Node Value Tr Unit :=
  let chunk := prepared.statement.chunk
  if engine.db.rows (.headerByHeight chunk.endHeight) = some chunk.endBlockHash then
    writeObservedBatch accepts prepared.batch
  else do
    attempt (ensure (executor = true) (.backend .unsupported))
    let replayed ← attempt ((replayToHead host engine chunk.endBlockHash).mapError .replay)
    commitMaterializedHeadWithBatch host accepts replayed.height replayed.hash replayed.stateRoot (some replayed.state) prepared.batch

def commitConsensusChunkInner [DecidableEq (ChainSpec Hash Key)] (accepts : Bool)
    (request : CommitRequest Hash Key Sig State Blob validate) :
    EngineM Hash Key Sig Blob Node Value Tr (FinalizeOutcome Hash Sig Blob) := do
  let engine ← get
  let prepared ← attempt (prepareCommit host validate engine request)
  let chunk := prepared.statement.chunk
  publishFinality host accepts request.executor engine prepared
  modify (installConsensusState host prepared.state)
  modify fun engine => {engine with bftSessions := engine.bftSessions.filter (· ≠ chunk.chunkId)}
  modify fun engine => {engine with forkChoice := addFinalizedChunk host engine.forkChoice chunk request.witness.finalityCert}
  pure ⟨host.chunkHash chunk,chunk,prepared.wire,chunk,request.witness.finalityCert⟩
end Neutrino.ConsensusEngine
