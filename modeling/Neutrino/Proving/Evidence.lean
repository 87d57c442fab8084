import Neutrino.Runtime.Accountability
import Neutrino.Proving.Signed

-- Every class of slashing evidence, its statement and the batch validated from facts
-- (prover-chunk, slashing.rs, history.rs and evidence.rs; evidence_prover.rs).
namespace Neutrino.Proving
open Checks Consensus Chain Queries Query
open Neutrino.Runtime (EvidenceContext EvidenceStatement SanctionKind)

inductive VrfRejectionReason where
  | badSignature
  | wrongDomain
  | wrongFinalizedSeed
  | wrongSlot
  | thresholdNotMet
deriving DecidableEq

inductive ProofRejectionReason where
  | malformedProof
  | publicInputsMismatch
  | verifierRejected
deriving DecidableEq

structure DaFraudProof (Hash Sig : Type) where
  publicationSignature : Sig
  expectedDaRoot : Hash
  computedDaRoot : Hash
  bundleHash : Hash
  offendingBundle : List UInt8
deriving DecidableEq

inductive SlashingEvidence (Hash Sig : Type) where
  | doubleBftProposal (proposerIndex : Nat) (proposalA proposalB : BftProposal Hash Sig)
  | conflictingNilVote (validatorIndex : Nat) (valueVote : IndexedVote Hash Sig) (nilVote : IndexedNilVote Sig)
  | doubleProposal (proposerIndex : Nat) (headerA headerB : Header Hash Sig)
  | invalidVrfClaim (proposerIndex : Nat) (header : Header Hash Sig) (reason : VrfRejectionReason)
  | doublePrevote (validatorIndex : Nat) (voteA voteB : IndexedVote Hash Sig)
  | doublePrecommit (validatorIndex : Nat) (voteA voteB : IndexedVote Hash Sig)
  | lockViolation (validatorIndex : Nat) (voteA voteB : IndexedVote Hash Sig) (lockEvidence : LockEvidence Hash Sig)
  | invalidProofSigning (validatorIndex : Nat) (vote : IndexedVote Hash Sig) (attestation : VoteAttestation Hash Sig)
      (rejectedProof : BlockProof Hash) (reason : ProofRejectionReason)
  | longRangeForkParticipation (validatorIndex : Nat) (vote canonicalVote : IndexedVote Hash Sig)
  | daCommitmentFraud (proposerIndex : Nat) (header : Header Hash Sig) (fraudProof : DaFraudProof Hash Sig)
deriving DecidableEq

structure HistoricalChunk (Hash Key Sig : Type) where
  chunk : Chunk Hash
  validators : List (Validator Hash Key)
  seed : Hash
  blockGuestVkDigest : VkDigest
  runtimeCodeHash : Hash
  finality : FinalityCert Hash Sig
deriving DecidableEq

inductive EvidenceClaim (Hash Sig : Type) where
  | slash (evidence : SlashingEvidence Hash Sig)
  | inactivity (validatorIndex : Nat) (certificate : FinalityCert Hash Sig)
deriving DecidableEq

structure EvidenceWitness (Hash Key Sig : Type) where
  chainSpec : ChainSpec Hash Key
  source : HistoricalChunk Hash Key Sig
  claim : EvidenceClaim Hash Sig
  blockGuestVkDigest : VkDigest
  reporter : Option Hash
deriving DecidableEq

-- Hashes of encoded values, the VRF threshold and a decoded bundle's DA root.
structure EvidenceHost (Hash Key Sig : Type) extends Crypto Hash Key Sig where
  specHash : ChainSpec Hash Key → Hash
  penaltyCommitment : Nat → Key → Hash → Nat → Nat → Hash
  proofCommitment : BlockProof Hash → Hash
  claimCommitment : EvidenceClaim Hash Sig → Hash
  statementsRoot : List (EvidenceStatement Hash Key) → Hash
  bundleHash : List UInt8 → Hash
  bundleDaRoot : List UInt8 → Option Hash
  isEligible : Sig → Nat → Nat → Nat → Bool

def penaltyDoubleProposal : Nat := 0
def penaltyInvalidVrf : Nat := 1
def penaltyPrevoteEquivocation : Nat := 2
def penaltyPrecommitEquivocation : Nat := 3
def penaltyLockViolation : Nat := 4
def penaltyInvalidProofSigning : Nat := 5
def penaltyDaCommitmentFraud : Nat := 6
def penaltyInactivity : Nat := 7
def penaltyDoubleBftProposal : Nat := 8

def voteKind : FinalityVotePhase → Nat
  | .prevote => penaltyPrevoteEquivocation
  | .precommit => penaltyPrecommitEquivocation

variable {Hash Key Sig : Type}

abbrev Judge (Hash Key Sig ε α : Type) := Query (EvidenceVerdict : FactRequest Hash Key Sig → Type) ε α
def judged {ε α : Type} (program : Query (Verdict : SignatureRequest Hash Key Sig → Type) ε α) : Judge Hash Key Sig ε α :=
  program.translate .signed fun _ valid => valid

-- Every failed signature or binding check of an offence is the same refusal.
def proven {ε α : Type} (strict : Verify Hash Key Sig ε α) : Judge Hash Key Sig HistoryError α :=
  (judged strict.program).mapError fun _ => .evidence

def rejectsBlock (proof : BlockProof Hash) (key : VkDigest) : Judge Hash Key Sig HistoryError Bool := do
  let rejected ← query (FactRequest.block key proof)
  ofExcept rejected

variable (host : EvidenceHost Hash Key Sig)

def HistoricalChunk.evidenceContext (source : HistoricalChunk Hash Key Sig) : EvidenceContext Hash where
  chunkId := source.chunk.chunkId
  chunkHash := host.chunkHash source.chunk
  endHeight := source.chunk.endHeight
  validatorsRoot := host.commitment source.validators
  seed := source.seed
  sourceBlockGuestVkDigest := source.blockGuestVkDigest
  sourceRuntimeCodeHash := source.runtimeCodeHash

def penaltyId (kind : Nat) (validator : Validator Hash Key) (scope attempt : Nat) : Hash :=
  host.penaltyCommitment kind validator.pubkey validator.withdrawalCredentials scope attempt

def recordAt (source : HistoricalChunk Hash Key Sig) (chunkId : Nat) : Judge Hash Key Sig HistoryError Unit :=
  check (source.chunk.chunkId = chunkId) .anchor

def chunkForHeight (params : ConsensusParams) (height : Nat) : Judge Hash Key Sig HistoryError Nat := do
  check (0 < height ∧ 0 < params.chunkSize) .evidence
  pure ((height-1) / params.chunkSize)

def activeValidator (validators : List (Validator Hash Key)) (index : Nat) : Judge Hash Key Sig HistoryError (Validator Hash Key) :=
  take (validators[index]?.filter isActive) .evidence

variable [DecidableEq Hash] [DecidableEq Sig]

def verifyProofAcceptance (attestation : VoteAttestation Hash Sig) (proof : BlockProof Hash) (chunkSize : Nat) :
    Except EvidenceError Unit := do
  let start ← required (checkedMul attestation.vote.chunkId chunkSize) .binding
  let position ← required (checkedSub proof.height start) .binding
  let offset ← required (checkedSub position 1) .binding
  ensure (attestation.vote.phase = .precommit ∧ chunkSize ≠ 0 ∧ attestation.proofHashes.length = chunkSize ∧
    attestation.proofHashes[offset]? = some (host.proofCommitment proof)) .binding

def verifyDaFraudUsing (domain : ConsensusDomain Hash) (validators : List (Validator Hash Key)) (header : Header Hash Sig)
    (fraud : DaFraudProof Hash Sig) : Verify Hash Key Sig EvidenceError Unit := do
  let headerHash := host.headerHash header.toHeaderHashPayload
  (verifyHeaderSignatureWith header headerHash domain validators).mapError fun _ => .signature
  let validator ← Strict.take validators[header.proposerIndex]? .binding
  Strict.check (host.bundleHash fraud.offendingBundle = fraud.bundleHash ∧ fraud.expectedDaRoot = header.daRoot) .binding
  demand (.signature validator.pubkey (.daPublication domain headerHash fraud.bundleHash) fraud.publicationSignature false) .signature
  let actual ← Strict.take (host.bundleDaRoot fraud.offendingBundle) .binding
  Strict.check (actual = fraud.computedDaRoot ∧ actual ≠ header.daRoot) .binding

def refutesClaim : Except ProposerError Unit → VrfRejectionReason → Bool
  | .error .vrf,.badSignature => true
  | .error .ineligible,.thresholdNotMet => true
  | _,_ => false

def authorizeDoubleVote (domain : ConsensusDomain Hash) (source : HistoricalChunk Hash Key Sig) (phase : FinalityVotePhase)
    (index : Nat) (voteA voteB : IndexedVote Hash Sig) : Judge Hash Key Sig HistoryError (Validator Hash Key × Hash) := do
  check (voteA.data.phase = phase ∧ voteB.data.phase = phase ∧ voteA.data.chunkId = voteB.data.chunkId ∧
    voteA.data.round = voteB.data.round ∧ voteA.data.chunkHash ≠ voteB.data.chunkHash) .evidence
  recordAt source voteA.data.chunkId
  let validator ← activeValidator source.validators index
  proven (verifyIndexedVoteUsing domain source.validators index voteA)
  proven (verifyIndexedVoteUsing domain source.validators index voteB)
  pure (validator,penaltyId host (voteKind phase) validator voteA.data.chunkId voteA.data.round)

def authorizeEvidenceWith (params : ConsensusConstants) (domain : ConsensusDomain Hash)
    (source : HistoricalChunk Hash Key Sig) (validatorsRoot : Hash) (blockKey : VkDigest) :
    SlashingEvidence Hash Sig → Judge Hash Key Sig HistoryError (Validator Hash Key × Hash)
  | .doubleBftProposal index proposalA proposalB => do
    recordAt source proposalA.chunk.chunkId
    let validator ← activeValidator source.validators index
    proven (verifyDoubleBftProposalWithRoot host.toCrypto domain source.validators validatorsRoot index proposalA proposalB)
    pure (validator,penaltyId host penaltyDoubleBftProposal validator source.chunk.chunkId proposalA.round)
  | .conflictingNilVote index valueVote nilVote => do
    recordAt source valueVote.data.chunkId
    let validator ← activeValidator source.validators index
    proven (verifyConflictingNilVoteUsing domain source.validators index valueVote nilVote)
    pure (validator,penaltyId host (voteKind valueVote.data.phase) validator valueVote.data.chunkId valueVote.data.round)
  | .doubleProposal index headerA headerB => do
    let chunkId ← chunkForHeight params.toConsensusParams headerA.height
    let hashA := host.headerHash headerA.toHeaderHashPayload
    let hashB := host.headerHash headerB.toHeaderHashPayload
    let other ← chunkForHeight params.toConsensusParams headerB.height
    check (other = chunkId ∧ headerA.proposerIndex = index ∧ headerB.proposerIndex = index ∧
      headerA.slot = headerB.slot ∧ hashA ≠ hashB) .evidence
    recordAt source chunkId
    let validator ← activeValidator source.validators index
    proven (verifyHeaderSignatureWith headerA hashA domain source.validators)
    proven (verifyHeaderSignatureWith headerB hashB domain source.validators)
    pure (validator,penaltyId host penaltyDoubleProposal validator headerA.slot 0)
  | .invalidVrfClaim index header reason => do
    let chunkId ← chunkForHeight params.toConsensusParams header.height
    recordAt source chunkId
    let validator ← activeValidator source.validators index
    check (header.proposerIndex = index) .evidence
    let hash := host.headerHash header.toHeaderHashPayload
    proven (verifyHeaderSignatureWith header hash domain source.validators)
    -- The offence is the refusal itself, and only for the reason claimed.
    let actual ← judged (verifyProposerWith host.isEligible header hash domain
      (.new source.validators source.seed params.expectedProposersPerSlot)).program.outcome
    check (refutesClaim actual reason = true) .evidence
    pure (validator,penaltyId host penaltyInvalidVrf validator header.slot 0)
  | .doublePrevote index voteA voteB => authorizeDoubleVote host domain source .prevote index voteA voteB
  | .doublePrecommit index voteA voteB => authorizeDoubleVote host domain source .precommit index voteA voteB
  | .lockViolation index voteA voteB lockEvidence => do
    recordAt source voteA.data.chunkId
    let validator ← activeValidator source.validators index
    (judged (verifyLockViolationUsing domain source.validators index voteA voteB lockEvidence
      params.toConsensusParams.prevoteFraction)).mapError fun _ => .evidence
    pure (validator,penaltyId host penaltyLockViolation validator voteB.data.chunkId voteB.data.round)
  | .invalidProofSigning index vote attestation rejectedProof _ => do
    recordAt source vote.data.chunkId
    let validator ← activeValidator source.validators index
    proven (verifyIndexedVoteUsing domain source.validators index vote)
    proven (verifyAttestationUsing domain source.validators index vote.data attestation)
    ofExcept ((verifyProofAcceptance host attestation rejectedProof params.chunkSize).mapError fun _ => .evidence)
    let rejected ← rejectsBlock rejectedProof blockKey
    check (rejected = true) .evidence
    pure (validator,penaltyId host penaltyInvalidProofSigning validator rejectedProof.height 0)
  | .longRangeForkParticipation index vote canonicalVote => do
    recordAt source vote.data.chunkId
    check (canonicalVote.data.chunkHash = host.chunkHash source.chunk ∧ canonicalVote.data.chunkId = vote.data.chunkId ∧
      canonicalVote.data.round = vote.data.round ∧ canonicalVote.data.phase = vote.data.phase ∧
      vote.data.chunkHash ≠ canonicalVote.data.chunkHash) .evidence
    let validator ← activeValidator source.validators index
    proven (verifyIndexedVoteUsing domain source.validators index vote)
    proven (verifyIndexedVoteUsing domain source.validators index canonicalVote)
    pure (validator,penaltyId host (voteKind vote.data.phase) validator vote.data.chunkId vote.data.round)
  | .daCommitmentFraud index header fraudProof => do
    let chunkId ← chunkForHeight params.toConsensusParams header.height
    recordAt source chunkId
    let validator ← activeValidator source.validators index
    check (header.proposerIndex = index) .evidence
    proven (verifyDaFraudUsing host domain source.validators header fraudProof)
    pure (validator,penaltyId host penaltyDaCommitmentFraud validator header.slot 0)

variable [LT Hash] [DecidableLT Hash]

section
variable (params : ConsensusConstants) (domain : ConsensusDomain Hash) (source : HistoricalChunk Hash Key Sig)
variable (validatorsRoot : Hash)

def authorizeInactivity (index : Nat) (certificate : FinalityCert Hash Sig) :
    Judge Hash Key Sig HistoryError (Validator Hash Key × Hash) := do
  proven (verifyFinalityWithRoot host.toCrypto domain params.toConsensusParams source.validators validatorsRoot source.chunk certificate)
  let validator ← activeValidator source.validators index
  check (certificate.precommit.aggregationBits.get index = some false) .evidence
  pure (validator,penaltyId host penaltyInactivity validator source.chunk.chunkId 0)

def authorizeClaim : EvidenceClaim Hash Sig → Judge Hash Key Sig HistoryError ((Validator Hash Key × Hash) × SanctionKind)
  | .slash evidence => do
    let found ← authorizeEvidenceWith host params domain source validatorsRoot source.blockGuestVkDigest evidence
    pure (found,.slash)
  | .inactivity index certificate => do
    let found ← authorizeInactivity host params domain source validatorsRoot index certificate
    pure (found,.inactivity)
end

def validateEvidenceUsing (input : EvidenceWitness Hash Key Sig) : Judge Hash Key Sig HistoryError (EvidenceStatement Hash Key) := do
  let spec := input.chainSpec
  let source := input.source
  ofExcept ((spec.validate host.commitment).mapError fun _ => .anchor)
  let context := source.evidenceContext host
  check (source.chunk.activeValidatorSetRoot = context.validatorsRoot ∧
    (checkedAdd source.chunk.chunkId 1).bind (checkedMul · spec.consensus.chunkSize) = some source.chunk.endHeight) .anchor
  let ((offender,offenceId),kind) ← authorizeClaim host spec.consensus ⟨spec.chainId,host.specHash spec⟩ source
    context.validatorsRoot input.claim
  pure {
    chainId := spec.chainId
    chainSpecHash := host.specHash spec
    blockGuestVkDigest := input.blockGuestVkDigest
    context := context
    offender := offender
    kind := kind
    offenceId := offenceId
    factsCommitment := host.claimCommitment input.claim
    reporter := input.reporter }

structure EvidenceBatch (Hash : Type) where
  factGuestVkDigest : VkDigest
  count : Nat
  root : Hash
deriving DecidableEq

def maxEvidenceBatch : Nat := 16
def maxEvidenceFactStatements : Nat := 256

def EvidenceBatch.new (statements : List (EvidenceStatement Hash Key)) (factGuestVkDigest : VkDigest) : Option (EvidenceBatch Hash) :=
  if statements = [] ∨ maxEvidenceBatch < statements.length ∨ ¬(statements.map (·.offenceId)).Nodup then none
  else some ⟨factGuestVkDigest,statements.length,host.statementsRoot statements⟩

structure EvidenceBatchWitness (Hash Key Sig : Type) where
  witnesses : List (EvidenceWitness Hash Key Sig)
  facts : List (FactStatement Hash)
  factGuestVkDigest : VkDigest

variable [DecidableEq Key] {Point : Type} (suite : Suite Hash Key Sig Point) (id : FactRequest Hash Key Sig → Hash)

def validateEvidence (input : EvidenceWitness Hash Key Sig) : Except HistoryError (EvidenceStatement Hash Key) :=
  (validateEvidenceUsing host input).eval suite.answers

def validateEvidenceBatch (input : EvidenceBatchWitness Hash Key Sig) :
    Except HistoryError (EvidenceBatch Hash × List (EvidenceStatement Hash Key)) := do
  ensure (input.witnesses ≠ [] ∧ input.witnesses.length ≤ maxEvidenceBatch ∧ input.facts.length ≤ maxEvidenceFactStatements) .evidence
  let reader ← FactReader.new input.facts
  let (derived,last) := (collect (validateEvidenceUsing host) input.witnesses).run (FactReader.respond id) reader
  let statements ← derived
  ensure (last.missing = false) .evidence
  let batch ← required (EvidenceBatch.new host statements input.factGuestVkDigest) .evidence
  pure (batch,statements)

-- The host's run: statements, their batch and the verdicts still to be proven.
def recordEvidenceBatch (known : List (Hash × Bool)) (witnesses : List (EvidenceWitness Hash Key Sig))
    (factGuestVkDigest : VkDigest) : Except HistoryError
      ((EvidenceBatch Hash × List (EvidenceStatement Hash Key)) × List (FactRequest Hash Key Sig × Bool)) := do
  ensure (witnesses ≠ [] ∧ witnesses.length ≤ maxEvidenceBatch) .evidence
  let (derived,recorder) := (collect (validateEvidenceUsing host) witnesses).run (FactRecorder.respond id suite) (.withVerified known)
  let statements ← derived
  let batch ← required (EvidenceBatch.new host statements factGuestVkDigest) .evidence
  let recorded ← recorder.finish
  pure ((batch,statements),recorded)
end Neutrino.Proving
