import Mathlib

-- Consensus payloads. Digests, public keys and signatures are type parameters:
-- nothing below looks inside one.
namespace Neutrino.Consensus

inductive FinalityVotePhase where
  | prevote
  | precommit
deriving DecidableEq

structure Validator (Hash Key : Type) where
  pubkey : Key
  withdrawalCredentials : Hash
  effectiveStake : Nat
  slashed : Bool
  activationEpoch : Nat
  exitEpoch : Nat
  lastActiveChunk : Nat
deriving DecidableEq

-- What the voting rules read; other timing constants only the pacemaker reads.
structure ConsensusParams where
  chunkSize : Nat
  bftPrevoteQuorumNumerator : Nat
  bftPrevoteQuorumDenominator : Nat
  bftPrecommitQuorumNumerator : Nat
  bftPrecommitQuorumDenominator : Nat
deriving DecidableEq

structure ConsensusDomain (Hash : Type) where
  chainId : Nat
  chainSpecHash : Hash
deriving DecidableEq

-- The source's packed bytes have zero padding, so a bitmap is its bit sequence.
structure BitVec where
  bits : List Bool
deriving DecidableEq

def BitVec.bitLen (bitmap : BitVec) : Nat := bitmap.bits.length
def BitVec.get (bitmap : BitVec) (index : Nat) : Option Bool := bitmap.bits[index]?

structure FinalityVoteData (Hash : Type) where
  chunkId : Nat
  round : Nat
  chunkHash : Hash
  phase : FinalityVotePhase
deriving DecidableEq

structure AggregatedVote (Sig : Type) where
  aggregationBits : BitVec
  signature : Sig
deriving DecidableEq

structure QuorumCertificate (Hash Sig : Type) where
  data : FinalityVoteData Hash
  aggregate : AggregatedVote Sig
deriving DecidableEq

instance instLawfulQuorum [DecidableEq Hash] [DecidableEq Sig] : LawfulBEq (QuorumCertificate Hash Sig) := inferInstance

structure VoteAttestation (Hash Sig : Type) where
  voteSignature : Sig
  validatorIndex : Nat
  vote : FinalityVoteData Hash
  proofHashes : List Hash
  unlockQuorum : Option (QuorumCertificate Hash Sig)
  signature : Sig
deriving DecidableEq

structure FinalityVote (Hash Sig : Type) where
  aggregationBits : BitVec
  data : FinalityVoteData Hash
  signature : Sig
  attestations : List (VoteAttestation Hash Sig)
deriving DecidableEq

structure NilVoteData where
  chunkId : Nat
  round : Nat
  phase : FinalityVotePhase
deriving DecidableEq

structure NilVoteAttestation (Sig : Type) where
  validatorIndex : Nat
  vote : NilVoteData
  voteSignature : Sig
  signature : Sig
deriving DecidableEq

structure NilVote (Sig : Type) where
  data : NilVoteData
  aggregationBits : BitVec
  signature : Sig
  attestations : List (NilVoteAttestation Sig)
deriving DecidableEq

structure IndexedVote (Hash Sig : Type) where
  data : FinalityVoteData Hash
  signature : Sig
deriving DecidableEq

structure IndexedNilVote (Sig : Type) where
  data : NilVoteData
  signature : Sig
deriving DecidableEq

structure Chunk (Hash : Type) where
  chunkId : Nat
  startHeight : Nat
  endHeight : Nat
  startStateRoot : Hash
  endStateRoot : Hash
  startBlockHash : Hash
  endBlockHash : Hash
  blockHashRoot : Hash
  blockProofRoot : Hash
  vrfProofRoot : Hash
  activeValidatorSetRoot : Hash
  nextValidatorSetRoot : Hash
  daRoot : Hash
deriving DecidableEq

structure RoundChange (Hash Sig : Type) where
  chunkId : Nat
  round : Nat
  validatorIndex : Nat
  highestQuorum : Option (QuorumCertificate Hash Sig)
  signature : Sig
deriving DecidableEq

structure RoundChangeCertificate (Hash Sig : Type) where
  chunkId : Nat
  round : Nat
  reports : List (RoundChange Hash Sig)
deriving DecidableEq

structure BftProposal (Hash Sig : Type) where
  chunk : Chunk Hash
  round : Nat
  proposerIndex : Nat
  validQuorum : Option (QuorumCertificate Hash Sig)
  roundChangeCertificate : Option (RoundChangeCertificate Hash Sig)
  signature : Sig
deriving DecidableEq

structure FinalityCert (Hash Sig : Type) where
  proposal : BftProposal Hash Sig
  prevoteAttestations : List (VoteAttestation Hash Sig)
  precommitAttestations : List (VoteAttestation Hash Sig)
  chunkId : Nat
  round : Nat
  chunkHash : Hash
  prevote : AggregatedVote Sig
  precommit : AggregatedVote Sig
  activeValidatorSetRoot : Hash
deriving DecidableEq

def FinalityCert.voteData (certificate : FinalityCert Hash Sig) (phase : FinalityVotePhase) : FinalityVoteData Hash :=
  ⟨certificate.chunkId,certificate.round,certificate.chunkHash,phase⟩

structure LockEvidence (Hash Sig : Type) where
  lockedPrevoteQuorum : QuorumCertificate Hash Sig
  attestation : VoteAttestation Hash Sig
deriving DecidableEq

-- The header fields its hash covers: everything but the proposer signature.
structure HeaderHashPayload (Hash Sig : Type) where
  height : Nat
  slot : Nat
  parentHash : Hash
  proposerIndex : Nat
  vrfProof : Sig
  stateRoot : Hash
  transactionsRoot : Hash
  votesRoot : Hash
  daRoot : Hash
  runtimeExtra : Hash
  receiptsRoot : Hash
  gasUsed : Nat
  gasLimit : Nat
  timestamp : Nat
deriving DecidableEq

structure Header (Hash Sig : Type) extends HeaderHashPayload Hash Sig where
  signature : Sig
deriving DecidableEq

-- What a key signs: the tag, chain_id, chain_spec_hash and the borsh payload joined,
-- with a tag of its own for each constructor and for each phase of a value vote.
inductive SigningMessage (Hash Sig : Type) where
  | vote (domain : ConsensusDomain Hash) (data : FinalityVoteData Hash)
  | voteAttestation (domain : ConsensusDomain Hash) (validatorIndex : Nat) (vote : FinalityVoteData Hash)
      (voteSignature : Sig) (proofHashes : List Hash) (unlockQuorum : Option (QuorumCertificate Hash Sig))
  | nilVote (domain : ConsensusDomain Hash) (data : NilVoteData)
  | nilAttestation (domain : ConsensusDomain Hash) (validatorIndex : Nat) (vote : NilVoteData) (voteSignature : Sig)
  | bftProposal (domain : ConsensusDomain Hash) (chunk : Chunk Hash) (round proposerIndex : Nat)
      (validQuorum : Option (QuorumCertificate Hash Sig))
      (roundChangeCertificate : Option (RoundChangeCertificate Hash Sig))
  | roundChange (domain : ConsensusDomain Hash) (chunkId round validatorIndex : Nat)
      (highestQuorum : Option (QuorumCertificate Hash Sig))
  | proposer (domain : ConsensusDomain Hash) (headerHash : Hash)
deriving DecidableEq

def FinalityVoteData.signingMessage (data : FinalityVoteData Hash) (domain : ConsensusDomain Hash) :
    SigningMessage Hash Sig := .vote domain data

def VoteAttestation.signingMessage (claim : VoteAttestation Hash Sig) (domain : ConsensusDomain Hash) : SigningMessage Hash Sig :=
  .voteAttestation domain claim.validatorIndex claim.vote claim.voteSignature claim.proofHashes claim.unlockQuorum

def NilVoteData.signingMessage (data : NilVoteData) (domain : ConsensusDomain Hash) : SigningMessage Hash Sig := .nilVote domain data

def NilVoteAttestation.signingMessage (claim : NilVoteAttestation Sig) (domain : ConsensusDomain Hash) : SigningMessage Hash Sig :=
  .nilAttestation domain claim.validatorIndex claim.vote claim.voteSignature

def BftProposal.signingMessage (proposal : BftProposal Hash Sig) (domain : ConsensusDomain Hash) : SigningMessage Hash Sig :=
  .bftProposal domain proposal.chunk proposal.round proposal.proposerIndex proposal.validQuorum proposal.roundChangeCertificate

def RoundChange.signingMessage (report : RoundChange Hash Sig) (domain : ConsensusDomain Hash) : SigningMessage Hash Sig :=
  .roundChange domain report.chunkId report.round report.validatorIndex report.highestQuorum

-- Outside the repository: the BLS suite and BLAKE3 over encoded values.
structure Crypto (Hash Key Sig : Type) where
  verify : Key → SigningMessage Hash Sig → Sig → Bool
  aggregate : List Key → SigningMessage Hash Sig → Sig → Bool
  sign : Key → SigningMessage Hash Sig → Sig
  chunkHash : Chunk Hash → Hash
  headerHash : HeaderHashPayload Hash Sig → Hash
  commitment : List (Validator Hash Key) → Hash
  -- First eight bytes of the leader digest of (chain id, chunk id, set root).
  leaderOffset : Nat → Nat → Hash → Nat

-- Unforgeability against a log: where the signature verifies under a correct key,
-- that key signed the message.
structure Authentic (crypto : Crypto Hash Key Sig) (correct : Key → Prop)
    (log : List (Key × SigningMessage Hash Sig)) (signature : Sig) : Prop where
  single : ∀ key message, correct key → crypto.verify key message signature = true → (key,message) ∈ log
  joint : ∀ keys message key, crypto.aggregate keys message signature = true → key ∈ keys → correct key → (key,message) ∈ log
end Neutrino.Consensus
