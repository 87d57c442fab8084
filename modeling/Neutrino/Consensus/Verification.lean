import Neutrino.Library.Checks
import Neutrino.Consensus.Types

-- Signature, quorum and certificate verification of prover-chunk.
namespace Neutrino.Consensus
open Checks

inductive FinalityError where
  | target
  | membership
  | quorum
  | signature
deriving DecidableEq

inductive EvidenceError where
  | binding
  | signature
  | quorum
  | honestUnlock
deriving DecidableEq

def quorumFractionValid (numerator denominator : Nat) : Bool :=
  numerator != 0 && denominator != 0 && decide (numerator ≤ denominator) && decide (denominator * 2 ≤ numerator * 3)

def quorumReached (stake totalStake numerator denominator : Nat) : Bool :=
  decide (totalStake * numerator ≤ stake * denominator)

def ConsensusParams.prevoteFraction (params : ConsensusParams) : Nat × Nat :=
  (params.bftPrevoteQuorumNumerator,params.bftPrevoteQuorumDenominator)

def ConsensusParams.precommitFraction (params : ConsensusParams) : Nat × Nat :=
  (params.bftPrecommitQuorumNumerator,params.bftPrecommitQuorumDenominator)

def isActive (validator : Validator Hash Key) : Bool := !validator.slashed && decide (0 < validator.effectiveStake)
def unslashedStake (validators : List (Validator Hash Key)) : Nat := ((validators.filter (!·.slashed)).map (·.effectiveStake)).sum

def activeStakeTotal (validators : List (Validator Hash Key)) : Option Nat :=
  if 0 < unslashedStake validators ∧ unslashedStake validators < 2^64 then some (unslashedStake validators) else none

def signersFrom (bits : BitVec) : List (Validator Hash Key × Nat) → Option (List Key × Nat)
  | [] => some ([],0)
  | (validator,index)::rest =>
    if 2^32 ≤ index then none
    else if bits.get index = some true then
      if isActive validator then
        (signersFrom bits rest).map fun (keys,stake) => (validator.pubkey::keys,validator.effectiveStake+stake)
      else none
    else signersFrom bits rest

def signers (validators : List (Validator Hash Key)) (bits : BitVec) : Option (List Key × Nat) := signersFrom bits validators.zipIdx

variable {Hash Key Sig : Type} (crypto : Crypto Hash Key Sig)

def verifyQuorumUsing (domain : ConsensusDomain Hash) (validators : List (Validator Hash Key))
    (quorum : QuorumCertificate Hash Sig) (fraction : Nat × Nat) : Except EvidenceError Unit := do
  ensure (quorum.data.phase = .prevote ∧ quorumFractionValid fraction.1 fraction.2 = true ∧
    quorum.aggregate.aggregationBits.bitLen = validators.length) .quorum
  let (keys,signed) ← required (signers validators quorum.aggregate.aggregationBits) .quorum
  ensure (signed < 2^64) .quorum
  let total ← required (activeStakeTotal validators) .quorum
  ensure (quorumReached signed total fraction.1 fraction.2 = true) .quorum
  ensure (crypto.aggregate keys (quorum.data.signingMessage domain) quorum.aggregate.signature = true) .signature

-- Value QCs already accepted during one verification, under one fraction.
structure VerifiedQuorums (Hash Sig : Type) where
  fraction : Nat × Nat
  verified : List (QuorumCertificate Hash Sig)

variable [DecidableEq Hash] [DecidableEq Sig]

section
variable (domain : ConsensusDomain Hash) (validators : List (Validator Hash Key))

def verifyAttestationWith (index : Nat)
    (vote : FinalityVoteData Hash) (voteMessage : SigningMessage Hash Sig) (attestation : VoteAttestation Hash Sig) :
    Except EvidenceError Unit := do
  ensure (attestation.validatorIndex = index ∧ attestation.vote = vote) .binding
  let key ← required validators[index]? .binding
  ensure (crypto.verify key.pubkey voteMessage attestation.voteSignature = true) .signature
  ensure (crypto.verify key.pubkey (attestation.signingMessage domain) attestation.signature = true) .signature

def verifyQuorumWith (quorum : QuorumCertificate Hash Sig) (fraction : Nat × Nat) (quorums : VerifiedQuorums Hash Sig) :
    Except EvidenceError (VerifiedQuorums Hash Sig) :=
  if quorums.fraction = fraction ∧ quorum ∈ quorums.verified then .ok quorums
  else do
    verifyQuorumUsing crypto domain validators quorum fraction
    -- Only successes are kept, and only under the cache's own fraction.
    pure (if quorums.fraction = fraction then {quorums with verified := quorums.verified++[quorum]} else quorums)
end

-- A prevote's justification predates its round, a precommit's may be of it.
def unlockRoundAllowed (vote : FinalityVoteData Hash) (round : Nat) : Bool :=
  match vote.phase with
  | .prevote => decide (round < vote.round)
  | .precommit => decide (round ≤ vote.round)

section
variable (domain : ConsensusDomain Hash) (validators : List (Validator Hash Key)) (vote : FinalityVoteData Hash)
variable (unlock : QuorumCertificate Hash Sig) (fraction : Nat × Nat)

def verifyUnlockWith (quorums : VerifiedQuorums Hash Sig) : Except EvidenceError (VerifiedQuorums Hash Sig) := do
  ensure (unlock.data.chunkId = vote.chunkId ∧ unlock.data.chunkHash = vote.chunkHash ∧
    unlockRoundAllowed vote unlock.data.round = true) .binding
  verifyQuorumWith crypto domain validators unlock fraction quorums

def verifyUnlockUsing : Except EvidenceError Unit := do
  let _ ← verifyUnlockWith crypto domain validators vote unlock fraction ⟨fraction,[]⟩
  pure ()
end

-- Marked active seats whose stake reaches the fraction and whose keys signed.
def QuorumSigned (domain : ConsensusDomain Hash) (validators : List (Validator Hash Key)) (fraction : Nat × Nat)
    (data : FinalityVoteData Hash) (aggregate : AggregatedVote Sig) : Prop :=
  ∃ keys stake total, signers validators aggregate.aggregationBits = some (keys,stake) ∧
    activeStakeTotal validators = some total ∧ quorumFractionValid fraction.1 fraction.2 = true ∧
    quorumReached stake total fraction.1 fraction.2 = true ∧
    crypto.aggregate keys (.vote domain data) aggregate.signature = true

omit [DecidableEq Hash] [DecidableEq Sig] in
theorem verify_quorum_signed (accepted : verifyQuorumUsing crypto domain validators quorum fraction = .ok ()) :
    quorum.data.phase = .prevote ∧ QuorumSigned crypto domain validators fraction quorum.data quorum.aggregate := by
  simp only [verifyQuorumUsing,bind_ok,ensure_ok,required_ok] at accepted
  obtain ⟨_,⟨phase,valid,_⟩,⟨keys,stake⟩,marked,_,_,total,summed,_,reached,signed⟩ := accepted
  exact ⟨phase,keys,stake,total,marked,summed,valid,reached,signed⟩

theorem verify_unlock_ok : verifyUnlockUsing crypto domain validators vote unlock fraction = .ok () ↔
      (unlock.data.chunkId = vote.chunkId ∧ unlock.data.chunkHash = vote.chunkHash ∧ unlockRoundAllowed vote unlock.data.round = true) ∧
      verifyQuorumUsing crypto domain validators unlock fraction = .ok () := by
  simp [verifyUnlockUsing,verifyUnlockWith,verifyQuorumWith]
end Neutrino.Consensus
