import Neutrino.Proving.Requests

-- Verification of signed messages as programs that ask a verifier (prover-chunk,
-- slashing.rs, bft.rs, finality.rs and proposer.rs).
namespace Neutrino.Proving
open Checks Consensus Chain Queries Query.Strict
open Query (query Strict demanding_ofExcept)
variable {Hash Key Sig : Type}

abbrev Positive {Hash Key Sig : Type} : (request : SignatureRequest Hash Key Sig) → Verdict request → Prop := fun _ valid => valid = true

abbrev Verify (Hash Key Sig ε α : Type) := Strict (@Positive Hash Key Sig) ε α

-- The one way the checks use an answer: a negative one is the given refusal.
def demand {ε : Type} (request : SignatureRequest Hash Key Sig) (refusal : ε) : Verify Hash Key Sig ε Unit where
  program := do
    let valid ← query request
    Query.check (valid = true) refusal
  demanding := by
    intro answer
    refine ⟨fun _ => demanding_ofExcept,fun negative oracle => ⟨refusal,?_⟩⟩
    exact Query.eval_check.trans (ensure_neg negative)

abbrev signedBy (key : Key) (message : SigningMessage Hash Sig) (signature : Sig) : SignatureRequest Hash Key Sig :=
  .signature key (.consensus message) signature false

abbrev aggregateOf (keys : List Key) (message : SigningMessage Hash Sig) (signature : Sig) : SignatureRequest Hash Key Sig :=
  .aggregate keys (.consensus message) signature

-- The verifier asked answers as the pure checks do.
structure Answers (crypto : Crypto Hash Key Sig) (oracle : (request : SignatureRequest Hash Key Sig) → Verdict request) : Prop where
  signature : ∀ key message signature, oracle (signedBy key message signature) = crypto.verify key message signature
  aggregate : ∀ keys message signature, oracle (aggregateOf keys message signature) = crypto.aggregate keys message signature

def directly (crypto : Crypto Hash Key Sig) : (request : SignatureRequest Hash Key Sig) → Verdict request
  | .signature key (.consensus message) signature false => crypto.verify key message signature
  | .aggregate keys (.consensus message) signature => crypto.aggregate keys message signature
  | _ => false

theorem directly_answers (crypto : Crypto Hash Key Sig) : Answers crypto (directly crypto) := ⟨fun _ _ _ => rfl,fun _ _ _ => rfl⟩

variable {oracle : (request : SignatureRequest Hash Key Sig) → Verdict request}

theorem eval_demand {refusal : ε} : (demand request refusal).eval oracle = ensure (oracle request = true) refusal := Query.eval_check

variable (crypto : Crypto Hash Key Sig)

def verifyIndexedVoteUsing (domain : ConsensusDomain Hash) (validators : List (Validator Hash Key)) (index : Nat)
    (vote : IndexedVote Hash Sig) : Verify Hash Key Sig EvidenceError Unit := do
  let key ← take validators[index]? .binding
  demand (signedBy key.pubkey (vote.data.signingMessage domain) vote.signature) .signature

def verifyQuorumUsing (domain : ConsensusDomain Hash) (validators : List (Validator Hash Key))
    (quorum : QuorumCertificate Hash Sig) (fraction : Nat × Nat) : Verify Hash Key Sig EvidenceError Unit := do
  check (quorum.data.phase = .prevote ∧ quorumFractionValid fraction.1 fraction.2 = true ∧
    quorum.aggregate.aggregationBits.bitLen = validators.length) .quorum
  let (keys,signed) ← take (signers validators quorum.aggregate.aggregationBits) .quorum
  check (signed < 2^64) .quorum
  let total ← take (activeStakeTotal validators) .quorum
  check (quorumReached signed total fraction.1 fraction.2 = true) .quorum
  demand (aggregateOf keys (quorum.data.signingMessage domain) quorum.aggregate.signature) .signature

variable [DecidableEq Hash] [DecidableEq Sig]

section
variable (domain : ConsensusDomain Hash) (validators : List (Validator Hash Key))

def verifyAttestationWith (index : Nat)
    (vote : FinalityVoteData Hash) (voteMessage : SigningMessage Hash Sig) (attestation : VoteAttestation Hash Sig) :
    Verify Hash Key Sig EvidenceError Unit := do
  check (attestation.validatorIndex = index ∧ attestation.vote = vote) .binding
  let key ← take validators[index]? .binding
  demand (signedBy key.pubkey voteMessage attestation.voteSignature) .signature
  demand (signedBy key.pubkey (attestation.signingMessage domain) attestation.signature) .signature

def verifyAttestationUsing (index : Nat)
    (vote : FinalityVoteData Hash) (attestation : VoteAttestation Hash Sig) : Verify Hash Key Sig EvidenceError Unit :=
  verifyAttestationWith domain validators index vote (vote.signingMessage domain) attestation

def verifyQuorumWith (quorum : QuorumCertificate Hash Sig) (fraction : Nat × Nat) (quorums : VerifiedQuorums Hash Sig) :
    Verify Hash Key Sig EvidenceError (VerifiedQuorums Hash Sig) :=
  if quorums.fraction = fraction ∧ quorum ∈ quorums.verified then pure quorums
  else do
    verifyQuorumUsing domain validators quorum fraction
    pure (if quorums.fraction = fraction then {quorums with verified := quorums.verified++[quorum]} else quorums)

section
variable (vote : FinalityVoteData Hash) (unlock : QuorumCertificate Hash Sig) (fraction : Nat × Nat)

def verifyUnlockWith (quorums : VerifiedQuorums Hash Sig) : Verify Hash Key Sig EvidenceError (VerifiedQuorums Hash Sig) := do
  check (unlock.data.chunkId = vote.chunkId ∧ unlock.data.chunkHash = vote.chunkHash ∧
    unlockRoundAllowed vote unlock.data.round = true) .binding
  verifyQuorumWith domain validators unlock fraction quorums

def verifyUnlockUsing : Verify Hash Key Sig EvidenceError Unit := do
  let _ ← verifyUnlockWith domain validators vote unlock fraction ⟨fraction,[]⟩
  pure ()
end

def verifyConflictingNilVoteUsing (index : Nat)
    (value : IndexedVote Hash Sig) (nilVote : IndexedNilVote Sig) : Verify Hash Key Sig EvidenceError Unit := do
  check (value.data.chunkId = nilVote.data.chunkId ∧ value.data.round = nilVote.data.round ∧ value.data.phase = nilVote.data.phase) .binding
  let validator ← take (validators[index]?.filter isActive) .binding
  verifyIndexedVoteUsing domain validators index value
  demand (signedBy validator.pubkey (nilVote.data.signingMessage domain) nilVote.signature) .signature

def verifyDoubleBftProposalWithRoot (root : Hash)
    (index : Nat) (first second : BftProposal Hash Sig) : Verify Hash Key Sig EvidenceError Unit := do
  check (first.chunk.chunkId = second.chunk.chunkId ∧ first.round = second.round ∧ first.proposerIndex = index ∧
    second.proposerIndex = index ∧ crypto.chunkHash first.chunk ≠ crypto.chunkHash second.chunk ∧
    bftLeaderWithRoot crypto domain.chainId first.chunk.chunkId first.round validators root = some index ∧
    first.chunk.activeValidatorSetRoot = root ∧ second.chunk.activeValidatorSetRoot = root) .binding
  let validator ← take validators[index]? .binding
  demand (signedBy validator.pubkey (first.signingMessage domain) first.signature) .signature
  demand (signedBy validator.pubkey (second.signingMessage domain) second.signature) .signature

-- A missing or invalid unlock is what convicts, so its refusal is looked at.
def verifyLockViolationUsing (index : Nat) (first later : IndexedVote Hash Sig) (evidence : LockEvidence Hash Sig) (quorum : Nat × Nat) :
    Query (Verdict : SignatureRequest Hash Key Sig → Type) EvidenceError Unit := do
  Query.check (first.data.phase = .precommit ∧ first.data.chunkId = later.data.chunkId ∧
    first.data.round < later.data.round ∧ first.data.chunkHash ≠ later.data.chunkHash) .binding
  (verifyIndexedVoteUsing domain validators index first).program
  (verifyIndexedVoteUsing domain validators index later).program
  (verifyAttestationUsing domain validators index later.data evidence.attestation).program
  let locked := evidence.lockedPrevoteQuorum
  Query.check (locked.data.chunkId = first.data.chunkId ∧ locked.data.round = first.data.round ∧
    locked.data.chunkHash = first.data.chunkHash) .binding
  (verifyQuorumUsing domain validators locked quorum).program
  match evidence.attestation.unlockQuorum with
  | none => pure ()
  | some unlock =>
    if first.data.round < unlock.data.round then do
      let judged ← (verifyUnlockUsing domain validators later.data unlock quorum).program.outcome
      Query.check (judged.isOk = false) .honestUnlock
    else pure ()

def verifyRoundChangeWith (report : RoundChange Hash Sig) (fraction : Nat × Nat) (quorums : VerifiedQuorums Hash Sig) :
    Verify Hash Key Sig FinalityError (VerifiedQuorums Hash Sig) := do
  let validator ← take (validators[report.validatorIndex]?.filter isActive) .membership
  check (report.round ≠ 0) .target
  demand (signedBy validator.pubkey (report.signingMessage domain) report.signature) .signature
  match report.highestQuorum with
  | none => pure quorums
  | some quorum => do
    check (quorum.data.chunkId = report.chunkId ∧ quorum.data.round < report.round) .target
    (verifyQuorumWith domain validators quorum fraction quorums).mapError fun _ => .quorum

def verifyReports (certificate : RoundChangeCertificate Hash Sig) (fraction : Nat × Nat) :
    List Nat → Nat → VerifiedQuorums Hash Sig → List (RoundChange Hash Sig) →
      Verify Hash Key Sig FinalityError (Nat × VerifiedQuorums Hash Sig)
  | _,stake,quorums,[] => pure (stake,quorums)
  | seen,stake,quorums,report::rest => do
    check (report.chunkId = certificate.chunkId ∧ report.round = certificate.round ∧ report.validatorIndex ∉ seen) .target
    let quorums ← verifyRoundChangeWith domain validators report fraction quorums
    let validator ← take validators[report.validatorIndex]? .membership
    check (stake + validator.effectiveStake < 2^64) .membership
    verifyReports certificate fraction (report.validatorIndex::seen) (stake + validator.effectiveStake) quorums rest

def verifyRoundChangeCertificateWith
    (certificate : RoundChangeCertificate Hash Sig) (fraction : Nat × Nat) (quorums : VerifiedQuorums Hash Sig) :
    Verify Hash Key Sig FinalityError (VerifiedQuorums Hash Sig) := do
  check (certificate.reports ≠ [] ∧ certificate.reports.length ≤ validators.length ∧
    quorumFractionValid fraction.1 fraction.2 = true) .membership
  let total ← take (activeStakeTotal validators) .membership
  let (stake,quorums) ← verifyReports domain validators certificate fraction [] 0 quorums certificate.reports
  check (quorumReached stake total fraction.1 fraction.2 = true) .quorum
  pure quorums

section
variable [LT Hash] [DecidableLT Hash]

def verifyJustification (proposal : BftProposal Hash Sig) (fraction : Nat × Nat) (quorums : VerifiedQuorums Hash Sig) :
    Verify Hash Key Sig FinalityError (VerifiedQuorums Hash Sig) :=
  match proposal.round,proposal.roundChangeCertificate with
  | 0,none => pure quorums
  | 0,some _ => ofExcept (.error .target)
  | _+1,none => ofExcept (.error .target)
  | _+1,some certificate => do
    check (certificate.chunkId = proposal.chunk.chunkId ∧ certificate.round = proposal.round) .target
    let quorums ← verifyRoundChangeCertificateWith domain validators certificate fraction quorums
    check (certificate.highestQuorum.all (carriesHighest proposal) = true) .target
    pure quorums

def verifyProposalWith (root : Hash) (proposal : BftProposal Hash Sig) (fraction : Nat × Nat) (quorums : VerifiedQuorums Hash Sig) :
    Verify Hash Key Sig FinalityError (VerifiedQuorums Hash Sig) := do
  check (bftLeaderWithRoot crypto domain.chainId proposal.chunk.chunkId proposal.round validators root =
      some proposal.proposerIndex ∧ proposal.chunk.activeValidatorSetRoot = root) .target
  let validator ← take validators[proposal.proposerIndex]? .membership
  demand (signedBy validator.pubkey (proposal.signingMessage domain) proposal.signature) .signature
  let quorums ← verifyJustification domain validators proposal fraction quorums
  match proposal.validQuorum with
  | none => pure quorums
  | some quorum => do
    check (quorum.data.chunkId = proposal.chunk.chunkId ∧
      quorum.data.chunkHash = crypto.chunkHash proposal.chunk ∧ quorum.data.round < proposal.round) .target
    (verifyQuorumWith domain validators quorum fraction quorums).mapError fun _ => .quorum
end

def verifyClaimSignaturesWith (data : FinalityVoteData Hash) (message : SigningMessage Hash Sig) :
    List (VoteAttestation Hash Sig) → Verify Hash Key Sig FinalityError Unit
  | [] => pure ()
  | claim::rest => do
    (verifyAttestationWith domain validators claim.validatorIndex data message claim).mapError fun _ => .signature
    verifyClaimSignaturesWith data message rest

def verifyUnlockClaimsWith (data : FinalityVoteData Hash) (params : ConsensusParams) :
    VerifiedQuorums Hash Sig → List (VoteAttestation Hash Sig) → Verify Hash Key Sig FinalityError (VerifiedQuorums Hash Sig)
  | quorums,[] => pure quorums
  | quorums,claim::rest => do
    let quorums ← match claim.unlockQuorum with
      | none => pure quorums
      | some unlock =>
        (verifyUnlockWith domain validators data unlock params.prevoteFraction quorums).mapError (fun _ => .target)
    verifyUnlockClaimsWith data params quorums rest

def verifyVoteSignaturesUsing (vote : FinalityVote Hash Sig) (params : ConsensusParams) : Verify Hash Key Sig FinalityError Unit := do
  check (attestationCoverageValid vote.data vote.aggregationBits vote.attestations params.chunkSize = true ∧
    vote.aggregationBits.bitLen = validators.length) .membership
  let (keys,_) ← take (signers validators vote.aggregationBits) .membership
  check (keys.isEmpty = false) .signature
  demand (aggregateOf keys (vote.data.signingMessage domain) vote.signature) .signature
  verifyClaimSignaturesWith domain validators vote.data (vote.data.signingMessage domain) vote.attestations

def verifyVoteUsing (vote : FinalityVote Hash Sig) (params : ConsensusParams) : Verify Hash Key Sig FinalityError Unit := do
  verifyVoteSignaturesUsing domain validators vote params
  let _ ← verifyUnlockClaimsWith domain validators vote.data params ⟨params.prevoteFraction,[]⟩ vote.attestations
  pure ()

def verifyPhaseWith (vote : AggregatedVote Sig)
    (message : SigningMessage Hash Sig) (total : Nat) (fraction : Nat × Nat) : Verify Hash Key Sig FinalityError Unit := do
  check (quorumFractionValid fraction.1 fraction.2 = true ∧ vote.aggregationBits.bitLen = validators.length) .membership
  let (keys,stake) ← take (signers validators vote.aggregationBits) .membership
  check (stake < 2^64) .membership
  check (quorumReached stake total fraction.1 fraction.2 = true) .quorum
  demand (aggregateOf keys message vote.signature) .signature
end
section
variable (domain : ConsensusDomain Hash) (params : ConsensusParams) (validators : List (Validator Hash Key))

def verifyFinalityPhase (certificate : FinalityCert Hash Sig) (total : Nat)
    (phase : FinalityVotePhase) (fraction : Nat × Nat) (vote : AggregatedVote Sig)
    (claims : List (VoteAttestation Hash Sig)) (quorums : VerifiedQuorums Hash Sig) :
    Verify Hash Key Sig FinalityError (VerifiedQuorums Hash Sig) := do
  check (attestationCoverageValid (certificate.voteData phase) vote.aggregationBits claims params.chunkSize = true) .membership
  verifyClaimSignaturesWith domain validators (certificate.voteData phase) ((certificate.voteData phase).signingMessage domain) claims
  let quorums ← verifyUnlockClaimsWith domain validators (certificate.voteData phase) params quorums claims
  verifyPhaseWith validators vote ((certificate.voteData phase).signingMessage domain) total fraction
  pure quorums

def verifyFinalityWithRoot [LT Hash] [DecidableLT Hash] (root : Hash) (chunk : Chunk Hash) (certificate : FinalityCert Hash Sig) :
    Verify Hash Key Sig FinalityError Unit := do
  check (certificate.chunkId = chunk.chunkId ∧ certificate.chunkHash = crypto.chunkHash chunk ∧
    certificate.activeValidatorSetRoot = root ∧ chunk.activeValidatorSetRoot = root ∧
    certificate.proposal.chunk = chunk ∧ certificate.proposal.round = certificate.round) .target
  let quorums ← verifyProposalWith crypto domain validators root certificate.proposal params.prevoteFraction ⟨params.prevoteFraction,[]⟩
  let total ← take (activeStakeTotal validators) .membership
  let quorums ← verifyFinalityPhase domain params validators certificate total .prevote params.prevoteFraction
    certificate.prevote certificate.prevoteAttestations quorums
  let _ ← verifyFinalityPhase domain params validators certificate total .precommit params.precommitFraction
    certificate.precommit certificate.precommitAttestations quorums
  pure ()
end
section
inductive ProposerError where
  | validator
  | signature
  | vrf
  | ineligible
deriving DecidableEq

-- Eligibility inputs shared by every header checked against one set.
structure Proposers (Hash Key : Type) where
  validators : List (Validator Hash Key)
  total : Option Nat
  seed : Hash
  expected : Nat

def Proposers.new (validators : List (Validator Hash Key)) (seed : Hash) (expected : Nat) : Proposers Hash Key :=
  ⟨validators,activeStakeTotal validators,seed,expected⟩

def verifyHeaderSignatureWith (header : Header Hash Sig) (headerHash : Hash) (domain : ConsensusDomain Hash)
    (validators : List (Validator Hash Key)) : Verify Hash Key Sig ProposerError Unit := do
  let validator ← take (validators[header.proposerIndex]?.filter isActive) .validator
  demand (signedBy validator.pubkey (.proposer domain headerHash) header.signature) .signature

-- The VRF output is a digest of the proof, compared with the threshold.
def verifyProposerWith (isEligible : Sig → Nat → Nat → Nat → Bool) (header : Header Hash Sig) (headerHash : Hash)
    (domain : ConsensusDomain Hash) (proposers : Proposers Hash Key) : Verify Hash Key Sig ProposerError Unit := do
  verifyHeaderSignatureWith header headerHash domain proposers.validators
  let validator ← take (proposers.validators[header.proposerIndex]?.filter isActive) .validator
  let total ← take proposers.total .validator
  demand (.signature validator.pubkey (.vrf domain proposers.seed header.slot) header.vrfProof false) .vrf
  check (isEligible header.vrfProof validator.effectiveStake total proposers.expected = true) .ineligible
end

section
variable {crypto} (answers : Answers crypto oracle) {domain : ConsensusDomain Hash} {validators : List (Validator Hash Key)}
  {quorums : VerifiedQuorums Hash Sig}
include answers

theorem quorum_direct : (verifyQuorumUsing domain validators quorum fraction).eval oracle =
    Consensus.verifyQuorumUsing crypto domain validators quorum fraction := by
  simp only [verifyQuorumUsing,Consensus.verifyQuorumUsing,eval_bind,eval_ofExcept,eval_demand,answers.aggregate]

theorem attestation_direct : (verifyAttestationWith domain validators index vote message attestation).eval oracle =
    Consensus.verifyAttestationWith crypto domain validators index vote message attestation := by
  simp only [verifyAttestationWith,Consensus.verifyAttestationWith,eval_bind,eval_ofExcept,eval_demand,answers.signature]

theorem quorum_with_direct : (verifyQuorumWith domain validators quorum fraction quorums).eval oracle =
    Consensus.verifyQuorumWith crypto domain validators quorum fraction quorums := by
  unfold verifyQuorumWith Consensus.verifyQuorumWith
  split
  · rfl
  · rw [eval_bind,quorum_direct answers]
    rfl

theorem unlock_direct : (verifyUnlockWith domain validators vote unlock fraction quorums).eval oracle =
    Consensus.verifyUnlockWith crypto domain validators vote unlock fraction quorums := by
  simp only [verifyUnlockWith,Consensus.verifyUnlockWith,eval_bind,eval_ofExcept,quorum_with_direct answers]

theorem unlock_using_direct : (verifyUnlockUsing domain validators vote unlock fraction).eval oracle =
    Consensus.verifyUnlockUsing crypto domain validators vote unlock fraction := by
  rw [verifyUnlockUsing,Consensus.verifyUnlockUsing,eval_bind,unlock_direct answers]
  rfl

theorem round_change_direct : (verifyRoundChangeWith domain validators report fraction quorums).eval oracle =
    Consensus.verifyRoundChangeWith crypto domain validators report fraction quorums := by
  simp only [verifyRoundChangeWith,Consensus.verifyRoundChangeWith,eval_bind,eval_ofExcept,eval_demand,answers.signature]
  cases report.highestQuorum with
  | none => rfl
  | some quorum => simp only [eval_bind,eval_ofExcept,eval_mapError,quorum_with_direct answers]

theorem reports_direct : (verifyReports domain validators certificate fraction seen stake quorums reports).eval oracle =
    Consensus.verifyReports crypto domain validators certificate fraction seen stake quorums reports := by
  induction reports generalizing seen stake quorums with
  | nil => rfl
  | cons report rest ih =>
    simp only [verifyReports,Consensus.verifyReports,eval_bind,eval_ofExcept,round_change_direct answers,ih]

theorem claim_signatures_direct : (verifyClaimSignaturesWith domain validators data message claims).eval oracle =
    Consensus.verifyClaimSignaturesWith crypto domain validators data message claims := by
  unfold Consensus.verifyClaimSignaturesWith
  induction claims with
  | nil => rfl
  | cons claim rest ih => simp only [verifyClaimSignaturesWith,each,eval_bind,eval_mapError,attestation_direct answers,ih]

theorem unlock_claims_direct : (verifyUnlockClaimsWith domain validators data params quorums claims).eval oracle =
    Consensus.verifyUnlockClaimsWith crypto domain validators data params quorums claims := by
  induction claims generalizing quorums with
  | nil => rfl
  | cons claim rest ih =>
    rw [verifyUnlockClaimsWith,Consensus.verifyUnlockClaimsWith]
    cases claim.unlockQuorum with
    | none => exact ih
    | some unlock => simp only [eval_bind,eval_mapError,unlock_direct answers,ih]

theorem vote_direct {vote : FinalityVote Hash Sig} : (verifyVoteUsing domain validators vote params).eval oracle =
    Consensus.verifyVoteUsing crypto domain validators vote params := by
  simp only [verifyVoteUsing,Consensus.verifyVoteUsing,verifyVoteSignaturesUsing,Consensus.verifyVoteSignaturesUsing,eval_bind,
    eval_ofExcept,eval_demand,answers.aggregate,claim_signatures_direct answers,unlock_claims_direct answers,ensure_and,bind_assoc]
  rfl

theorem finality_phase_direct {certificate : FinalityCert Hash Sig} {total : Nat} :
    (verifyFinalityPhase domain params validators certificate total phase fraction vote claims quorums).eval oracle =
      Consensus.verifyFinalityPhase crypto domain params validators certificate total phase fraction vote claims quorums := by
  simp only [verifyFinalityPhase,Consensus.verifyFinalityPhase,verifyPhaseWith,Consensus.verifyPhaseWith,eval_bind,eval_ofExcept,
    eval_demand,answers.aggregate,claim_signatures_direct answers,unlock_claims_direct answers]
  rfl

variable [LT Hash] [DecidableLT Hash]

theorem justification_direct : (verifyJustification domain validators proposal fraction quorums).eval oracle =
    Consensus.verifyJustification crypto domain validators proposal fraction quorums := by
  unfold verifyJustification Consensus.verifyJustification
  cases proposal.round with
  | zero => cases proposal.roundChangeCertificate <;> rfl
  | succ round =>
    cases proposal.roundChangeCertificate with
    | none => rfl
    | some certificate =>
      simp only [verifyRoundChangeCertificateWith,Consensus.verifyRoundChangeCertificateWith,eval_bind,eval_ofExcept,reports_direct answers]
      rfl

theorem proposal_direct {root : Hash} : (verifyProposalWith crypto domain validators root proposal fraction quorums).eval oracle =
    Consensus.verifyProposalWith crypto domain validators root proposal fraction quorums := by
  simp only [verifyProposalWith,Consensus.verifyProposalWith,verifyValidQuorum,eval_bind,eval_ofExcept,eval_demand,answers.signature,
    justification_direct answers]
  cases proposal.validQuorum with
  | none => rfl
  | some quorum => simp only [eval_bind,eval_ofExcept,eval_mapError,quorum_with_direct answers]

-- Asked directly, the program is the check the other modules reason about.
theorem finality_direct {root : Hash} {chunk : Chunk Hash} {certificate : FinalityCert Hash Sig} :
    (verifyFinalityWithRoot crypto domain params validators root chunk certificate).eval oracle =
      Consensus.verifyFinalityWithRoot crypto domain params validators root chunk certificate := by
  simp only [verifyFinalityWithRoot,Consensus.verifyFinalityWithRoot,eval_bind,eval_ofExcept,proposal_direct answers,finality_phase_direct answers]
  rfl
end
end Neutrino.Proving
