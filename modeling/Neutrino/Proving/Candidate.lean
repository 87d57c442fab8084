import Neutrino.Chain.ValidatorSet
import Neutrino.Proving.History

-- Validation of a chunk candidate and its finality (execution.rs, body.rs, consensus.rs).
namespace Neutrino.Proving
open Checks Consensus Chain Queries Query.Strict
open Neutrino.Runtime (EvidenceContext EvidenceAnchor Sanction ParticipationReport ScheduledUpgrade)

structure ExecutionContext (Hash Key : Type) where
  chainId : Nat
  chainSpecHash : Hash
  chunkId : Nat
  chunkSize : Nat
  parentBlockHash : Hash
  preStateRoot : Hash
  parentSlot : Nat
  vmCodeHash : Hash
  programs : ProgramSet Hash
  participation : Hash
  activeValidators : List (Validator Hash Key)
  historyRoot : Hash
deriving DecidableEq

structure AccountabilityOutput (Hash Key : Type) where
  anchor : EvidenceAnchor Hash
  admitted : List (Sanction Hash Key)
deriving DecidableEq

structure StfPublicOutput (Hash Key : Type) where
  accountability : AccountabilityOutput Hash Key
  chainId : Nat
  blockHeight : Nat
  blockGasLimit : Nat
  proposerAddress : Hash
  participation : Hash
  transactionsRoot : Hash
  transactionCount : Nat
  preStateRoot : Hash
  postStateRoot : Hash
  validatorSetRoot : Hash
  gasUsed : Nat
  receiptsRoot : Hash
deriving DecidableEq

structure ProvenBlock (Hash Key Sig : Type) where
  header : Header Hash Sig
  publicInputs : BlockProofPublicInputs Hash
  output : StfPublicOutput Hash Key
deriving DecidableEq

structure ConsensusBody (Hash Sig : Type) where
  finalityVotes : List (FinalityVote Hash Sig)
  programLeaves : List Hash
deriving DecidableEq

-- The runtime records read at a chunk's end; the upgrade record is not always there.
structure ConsensusRecords (Hash Key Sig : Type) where
  candidates : ConsensusCandidates Hash Key Sig
  upgrade : Except RotationError (Option (ScheduledUpgrade Hash))

structure ConsensusWitness (Hash Key Sig State : Type) where
  factGuestVkDigest : VkDigest
  evidenceGuestVkDigest : VkDigest
  consensusPrograms : ConsensusPrograms
  chainSpec : ChainSpec Hash Key
  context : ExecutionContext Hash Key
  seed : Hash
  blocks : List (ProvenBlock Hash Key Sig)
  bodies : List (ConsensusBody Hash Sig)
  postState : State
  history : HistoryWitness Hash Key Sig
  finalityCert : FinalityCert Hash Sig
  blockGuestVkDigest : VkDigest
  facts : List (FactStatement Hash)

inductive ExecutionError where
  | range
  | blockBinding
  | continuity
  | proposer
deriving DecidableEq

inductive ConsensusError where
  | context
  | execution
  | header
  | proposer
  | rotation
  | finality
  | history (error : HistoryError)
deriving DecidableEq

-- Hashes of encoded values, and the reader of an authenticated trie witness.
structure ConsensusHost (Hash Key Sig State : Type) extends EvidenceHost Hash Key Sig where
  tree : HistoryTree Hash
  merkleRoot : List Hash → Hash
  daRootFromLaneRoots : List (Nat × Hash) → Hash
  inputsCommitment : BlockProofPublicInputs Hash → Hash
  vrfLeaf : Sig → Hash
  daLeaf : Hash → Hash
  voteCommitment : FinalityVote Hash Sig → Hash
  contextCommitment : EvidenceContext Hash → Hash
  certCommitment : FinalityCert Hash Sig → Hash
  recordSize : HistoricalChunk Hash Key Sig → Nat
  noParticipation : Hash
  participationCommitment : ParticipationReport Hash → Hash
  foldSeed : Hash → List Sig → Hash
  popValid : Key → Hash → Sig → Bool
  readConsensusRecords : Hash → State → Except RotationError (ConsensusRecords Hash Key Sig)

variable {Hash Key Sig State : Type} [DecidableEq Hash] [DecidableEq Key] [DecidableEq Sig]
variable (host : ConsensusHost Hash Key Sig State)

section
def outputBinds (output : StfPublicOutput Hash Key) (inputs : BlockProofPublicInputs Hash) : Bool :=
  decide (output.chainId = inputs.chainId ∧ output.blockHeight = inputs.height ∧
    output.preStateRoot = inputs.stateRootBefore ∧ output.postStateRoot = inputs.stateRootAfter ∧
    output.transactionsRoot = inputs.transactionsRoot ∧ output.receiptsRoot = inputs.receiptRoot ∧
    output.gasUsed = inputs.gasUsed ∧ output.blockGasLimit = inputs.gasLimit ∧
    output.proposerAddress = inputs.proposerAddress ∧ output.validatorSetRoot = inputs.runtimeExtra)

variable (context : ExecutionContext Hash Key)

def expectedInputs (header : Header Hash Sig) (hash : Hash) (height : Nat)
    (parent state : Hash) (proposer : Validator Hash Key) : BlockProofPublicInputs Hash where
  chainId := context.chainId
  height := height
  parentBlockHash := parent
  blockHash := hash
  stateRootBefore := state
  stateRootAfter := header.stateRoot
  transactionsRoot := header.transactionsRoot
  receiptRoot := header.receiptsRoot
  daRoot := header.daRoot
  vmCodeHash := context.vmCodeHash
  blockProgram := context.programs.execution.block
  gasUsed := header.gasUsed
  gasLimit := header.gasLimit
  proposerAddress := proposer.withdrawalCredentials
  runtimeExtra := header.runtimeExtra

def validateBlock (height : Nat) (parent state : Hash) (slot : Nat) (block : ProvenBlock Hash Key Sig) : Except ExecutionError Hash := do
  let header := block.header
  let hash := host.headerHash header.toHeaderHashPayload
  ensure (header.parentHash = parent ∧ header.height = height ∧ slot < header.slot ∧ block.output.preStateRoot = state) .continuity
  let proposer ← required (context.activeValidators[header.proposerIndex]?.filter isActive) .proposer
  ensure (block.publicInputs = expectedInputs context header hash height parent state proposer ∧
    outputBinds block.output block.publicInputs = true ∧ block.output.gasUsed ≤ block.output.blockGasLimit) .blockBinding
  pure hash

def validateBlocks : Nat → Hash → Hash → Nat → List (ProvenBlock Hash Key Sig) → Except ExecutionError (List Hash)
  | _,_,_,_,[] => .ok []
  | height,parent,state,slot,block::rest => do
    let hash ← validateBlock host context height parent state slot block
    let hashes ← validateBlocks (height + 1) hash block.header.stateRoot block.header.slot rest
    pure (hash::hashes)

def validateExecutionWithHashes (blocks : List (ProvenBlock Hash Key Sig)) : Except ExecutionError (Chunk Hash × List Hash) := do
  ensure (blocks.length ≠ 0 ∧ blocks.length = context.chunkSize) .range
  let below ← required (checkedMul context.chunkId context.chunkSize) .range
  let startHeight ← required (checkedAdd below 1) .range
  let endHeight ← required (checkedAdd startHeight (blocks.length - 1)) .range
  let hashes ← validateBlocks host context startHeight context.parentBlockHash context.preStateRoot context.parentSlot blocks
  let first ← required hashes.head? .range
  let last ← required hashes.getLast? .range
  let final ← required blocks.getLast? .range
  pure ({
    chunkId := context.chunkId
    startHeight := startHeight
    endHeight := endHeight
    startStateRoot := context.preStateRoot
    endStateRoot := final.header.stateRoot
    startBlockHash := first
    endBlockHash := last
    blockHashRoot := host.merkleRoot hashes
    blockProofRoot := host.merkleRoot (blocks.map fun block => host.inputsCommitment block.publicInputs)
    vrfProofRoot := host.merkleRoot (blocks.map fun block => host.vrfLeaf block.header.vrfProof)
    activeValidatorSetRoot := host.commitment context.activeValidators
    nextValidatorSetRoot := final.output.validatorSetRoot
    daRoot := host.merkleRoot (blocks.map fun block => host.daLeaf block.header.daRoot) },hashes)
end
section
def genesisContext (spec : ChainSpec Hash Key) (programs : ProgramSet Hash) : ExecutionContext Hash Key where
  chainId := spec.chainId
  chainSpecHash := host.specHash spec
  chunkId := 0
  chunkSize := spec.consensus.chunkSize
  parentBlockHash := spec.genesisBlockHash
  preStateRoot := spec.genesisStateRoot
  parentSlot := 0
  vmCodeHash := programs.runtimeCodeHash
  programs := programs
  participation := host.noParticipation
  activeValidators := spec.initialValidators
  historyRoot := host.tree.emptyRoot

def boundaryWithValidators (context : ExecutionContext Hash Key) (seed validatorsRoot : Hash) :
    Except ConsensusError (ConsensusBoundary Hash) := do
  let height ← required (checkedMul context.chunkId context.chunkSize) .context
  pure {
    nextChunkId := context.chunkId
    height := height
    blockHash := context.parentBlockHash
    stateRoot := context.preStateRoot
    slot := context.parentSlot
    validatorsRoot := validatorsRoot
    seed := seed
    historyRoot := context.historyRoot
    programs := context.programs
    participation := context.participation }

def contextBoundary (context : ExecutionContext Hash Key) (seed : Hash) : Except ConsensusError (ConsensusBoundary Hash) :=
  boundaryWithValidators context seed (host.commitment context.activeValidators)

-- Chunk ids named by the embedded votes, ascending and without repetition.
def requestedChunks (bodies : List (ConsensusBody Hash Sig)) : List Nat :=
  (bodies.flatMap fun body => body.finalityVotes.map (·.data.chunkId)).dedup.insertionSort (· ≤ ·)

def validateContext (input : ConsensusWitness Hash Key Sig State) : Except ConsensusError Hash := do
  let context := input.context
  let spec := input.chainSpec
  (spec.validate host.commitment).mapError fun _ => .context
  let specHash := host.specHash spec
  ensure (context.chainSpecHash = specHash ∧ context.chainId = spec.chainId ∧
    context.chunkSize = spec.consensus.chunkSize ∧ context.programs.isComplete = true ∧
    input.consensusPrograms.isComplete = true ∧ context.vmCodeHash = context.programs.runtimeCodeHash ∧
    input.factGuestVkDigest = context.programs.execution.fact ∧
    input.evidenceGuestVkDigest = context.programs.execution.evidence ∧
    input.blockGuestVkDigest = context.programs.execution.block ∧ input.blocks.length = input.bodies.length) .context
  ensure (context.chunkId = 0 → context = genesisContext host spec context.programs ∧
    context.programs.runtimeCodeHash = spec.runtimeCodeHash ∧ input.seed = spec.genesisSeed) .context
  ensure (requestedChunks input.bodies = input.history.records.map (·.record.chunk.chunkId)) .context
  pure specHash
end
section
def maxProgramPiecesPerBlock : Nat := 2
def maxTimestampSkewSecs : Nat := 60

def ConsensusBody.validate (body : ConsensusBody Hash Sig) (header : Header Hash Sig) (transactionCount : Nat) :
    Except ConsensusError Unit := do
  let votes := host.merkleRoot (body.finalityVotes.map host.voteCommitment)
  ensure (body.programLeaves.length ≤ maxProgramPiecesPerBlock) .header
  ensure (body.finalityVotes.length < 2^32) .header
  let da := host.daRootFromLaneRoots [(transactionCount,header.transactionsRoot),(body.finalityVotes.length,votes),
    (body.programLeaves.length,host.merkleRoot body.programLeaves)]
  ensure (header.votesRoot = votes ∧ header.daRoot = da) .header

def checkHeaderSchedule (spec : ChainSpec Hash Key) (header : Header Hash Sig) : Except ConsensusError Unit := do
  let seconds ← required (checkedMul header.slot spec.consensus.slotDurationSecs) .header
  let timestamp ← required (checkedAdd seconds spec.genesisTime) .header
  ensure (header.timestamp ≤ timestamp + maxTimestampSkewSecs ∧ timestamp ≤ header.timestamp + maxTimestampSkewSecs ∧
    header.gasLimit = spec.genesisGasLimit) .header

def expectedAnchor (input : ConsensusWitness Hash Key Sig State) (specHash : Hash) : EvidenceAnchor Hash where
  factGuestVkDigest := input.factGuestVkDigest
  chainSpecHash := specHash
  chunkId := input.context.chunkId
  historyRoot := input.context.historyRoot
  blockGuestVkDigest := input.blockGuestVkDigest
  evidenceGuestVkDigest := input.evidenceGuestVkDigest
  unbondingDelayBlocks := input.chainSpec.runtime.unbondingDelayBlocks
  chunkSize := input.context.chunkSize

def verifyHeaders (spec : ChainSpec Hash Key) (domain : ConsensusDomain Hash) (proposers : Proposers Hash Key) :
    List ((ProvenBlock Hash Key Sig × ConsensusBody Hash Sig) × Hash) → Verify Hash Key Sig ConsensusError Unit
  | [] => pure ()
  | ((block,body),hash)::rest => do
    ofExcept (body.validate host block.header block.output.transactionCount)
    ofExcept (checkHeaderSchedule spec block.header)
    (verifyProposerWith host.isEligible block.header hash domain proposers).mapError fun _ => .proposer
    verifyHeaders spec domain proposers rest

def verifyEmbeddedVotes (domain : ConsensusDomain Hash) (params : ConsensusParams) (history : HistoryWitness Hash Key Sig) :
    List (FinalityVote Hash Sig) → Verify Hash Key Sig ConsensusError Unit
  | [] => pure ()
  | vote::rest => do
    (verifyEmbeddedVoteWith domain params history vote).mapError .history
    verifyEmbeddedVotes domain params history rest

def verifyBodies (input : ConsensusWitness Hash Key Sig State) (domain : ConsensusDomain Hash) :
    List (ProvenBlock Hash Key Sig × ConsensusBody Hash Sig) → Verify Hash Key Sig ConsensusError Unit
  | [] => pure ()
  | (block,body)::rest => do
    check (block.output.accountability.anchor = expectedAnchor input domain.chainSpecHash ∧
      block.output.participation = input.context.participation) .context
    verifyEmbeddedVotes domain input.chainSpec.consensus.toConsensusParams input.history body.finalityVotes
    verifyBodies input domain rest

def slashedOffenders (blocks : List (ProvenBlock Hash Key Sig)) : List (Validator Hash Key) :=
  (blocks.flatMap fun block => block.output.accountability.admitted.filter (·.kind = .slash)).map (·.offender)
end

structure CandidateParts (Hash Key Sig : Type) where
  chunk : Chunk Hash
  nextValidators : List (Validator Hash Key)
  domain : ConsensusDomain Hash
  records : ConsensusRecords Hash Key Sig

-- What precedes the rotation, over the pairs the source zips together.
def validateCandidateUsing (input : ConsensusWitness Hash Key Sig State) :
    Verify Hash Key Sig ConsensusError (CandidateParts Hash Key Sig) := do
  let spec := input.chainSpec
  let context := input.context
  let specHash ← ofExcept (validateContext host input)
  let domain : ConsensusDomain Hash := ⟨spec.chainId,specHash⟩
  let (chunk,hashes) ← ofExcept ((validateExecutionWithHashes host context input.blocks).mapError fun _ => .execution)
  ofExcept ((input.history.authenticate host.toEvidenceHost host.tree host.contextCommitment host.recordSize context.chunkId
    context.historyRoot).mapError .history)
  verifyHeaders host spec domain (.new context.activeValidators input.seed spec.consensus.expectedProposersPerSlot)
    ((input.blocks.zip input.bodies).zip hashes)
  verifyBodies input domain (input.blocks.zip input.bodies)
  let previous := markOffenders context.activeValidators (slashedOffenders ((input.blocks.zip input.bodies).map (·.1)))
  let records ← ofExcept ((host.readConsensusRecords chunk.endStateRoot input.postState).mapError fun _ => .rotation)
  let next ← ofExcept ((deriveNextValidators host.popValid previous records.candidates spec.consensus
    spec.runtime.unbondingDelayBlocks context.chunkId).mapError fun _ => .rotation)
  pure ⟨{chunk with nextValidatorSetRoot := host.commitment next},next,domain,records⟩

def participationFrom (bits : BitVec) : List (Validator Hash Key × Nat) → Option (List Hash × List Hash)
  | [] => some ([],[])
  | (validator,index)::rest =>
    if 2^32 ≤ index then none
    else do
      let signed ← bits.get index
      let (present,absent) ← participationFrom bits rest
      if signed then some (validator.withdrawalCredentials::present,absent)
      else if 0 < validator.effectiveStake ∧ validator.slashed = false then
        some (present,validator.withdrawalCredentials::absent)
      else some (present,absent)

def fromCertificate (chunkId : Nat) (validators : List (Validator Hash Key)) (precommit : BitVec) : Option (ParticipationReport Hash) :=
  if precommit.bitLen = validators.length then
    (participationFrom precommit validators.zipIdx).map fun (present,absent) => ⟨chunkId,present,absent⟩
  else none

def ConsensusRecords.nextPrograms (records : ConsensusRecords Hash Key Sig) (current : ProgramSet Hash) (nextChunkId : Nat) :
    Except RotationError (ProgramSet Hash) := do
  match ← records.upgrade with
  | none => pure current
  | some upgrade =>
    ensure (upgrade.programs.isComplete = true) .codec
    pure (if upgrade.activateAtChunk = nextChunkId then upgrade.programs else current)

structure ValidatedConsensus (Hash Key : Type) where
  statement : ConsensusStatement Hash
  nextContext : ExecutionContext Hash Key
deriving DecidableEq

def evidenceContextOf (input : ConsensusWitness Hash Key Sig State) (chunk : Chunk Hash) : EvidenceContext Hash where
  chunkId := chunk.chunkId
  chunkHash := host.chunkHash chunk
  endHeight := chunk.endHeight
  validatorsRoot := chunk.activeValidatorSetRoot
  seed := input.seed
  sourceBlockGuestVkDigest := input.context.programs.execution.block
  sourceRuntimeCodeHash := input.context.programs.runtimeCodeHash

def concludeChunk (input : ConsensusWitness Hash Key Sig State) (parts : CandidateParts Hash Key Sig) :
    Except ConsensusError (ValidatedConsensus Hash Key) := do
  let context := input.context
  let chunk := parts.chunk
  let report ← required (fromCertificate chunk.chunkId context.activeValidators input.finalityCert.precommit.aggregationBits) .finality
  let (historyRoot,_) ← required (input.history.frontier.append host.tree
    (host.contextCommitment (evidenceContextOf host input chunk))) .context
  let nextChunkId ← required (checkedAdd context.chunkId 1) .context
  let nextPrograms ← (parts.records.nextPrograms context.programs nextChunkId).mapError fun _ => .rotation
  let last ← required input.blocks.getLast? .context
  let nextContext : ExecutionContext Hash Key := {context with
    chunkId := nextChunkId
    parentBlockHash := chunk.endBlockHash
    preStateRoot := chunk.endStateRoot
    parentSlot := last.header.slot
    activeValidators := parts.nextValidators
    historyRoot := historyRoot
    vmCodeHash := nextPrograms.runtimeCodeHash
    programs := nextPrograms
    participation := host.participationCommitment report }
  let start ← boundaryWithValidators context input.seed chunk.activeValidatorSetRoot
  let end_ ← boundaryWithValidators nextContext (host.foldSeed input.seed (input.blocks.map (·.header.vrfProof))) chunk.nextValidatorSetRoot
  pure ⟨{
    chain := ⟨input.chainSpec.chainId,parts.domain.chainSpecHash,input.chainSpec.consensus.chunkSize,input.consensusPrograms⟩
    start := start
    end_ := end_
    chunk := chunk
    finalityCertHash := host.certCommitment input.finalityCert },nextContext⟩

variable [LT Hash] [DecidableLT Hash]

def validateConsensusUsing (input : ConsensusWitness Hash Key Sig State) :
    Verify Hash Key Sig ConsensusError (ValidatedConsensus Hash Key) := do
  let parts ← validateCandidateUsing host input
  (verifyFinalityWithRoot host.toCrypto parts.domain input.chainSpec.consensus.toConsensusParams input.context.activeValidators
    parts.chunk.activeValidatorSetRoot parts.chunk input.finalityCert).mapError fun _ => .finality
  ofExcept (concludeChunk host input parts)

variable {Point : Type} [DecidableEq Point] (suite : Suite Hash Key Sig Point) (id : FactRequest Hash Key Sig → Hash)

def maxConsensusFactStatements : Nat := 64

variable (input : ConsensusWitness Hash Key Sig State)

def hybridVerifier : Except ConsensusError (HybridVerifier Hash Key Sig Point) := do
  ensure (input.facts.length ≤ maxConsensusFactStatements) (.history .evidence)
  (HybridVerifier.new input.facts).mapError .history

def validateConsensusWithContext : Except ConsensusError (ValidatedConsensus Hash Key) := do
  let verifier : HybridVerifier Hash Key Sig Point ← hybridVerifier input
  let (derived,last) := (validateConsensusUsing host input).program.run (HybridVerifier.respond id suite) verifier
  let validated ← derived
  ensure (last.finish suite = true) .finality
  pure validated

def validateConsensus : Except ConsensusError (ConsensusStatement Hash) := do
  let validated ← validateConsensusWithContext host suite id input
  pure validated.statement

def validateConsensusDirectly : Except ConsensusError (ValidatedConsensus Hash Key) := (validateConsensusUsing host input).eval suite.direct
end Neutrino.Proving
