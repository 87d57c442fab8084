import Neutrino.Consensus.Finality

-- The native chunk-BFT session with signature support. A method that fails returns
-- before it assigns a field.
namespace Neutrino.Consensus
open Checks

inductive BftError where
  | zeroTotalStake
  | stakeOverflow
  | validatorSetTooLarge
  | invalidQuorum
  | wrongPhase
  | wrongVoteTarget
  | invalidAggregationBits
  | emptyVote
  | invalidAggregateSignature
  | validatorSetRootMismatch
  | roundNotIncreased (current requested : Nat)
  -- An expectation of the source failed: the call aborts and returns nothing.
  | panicked
deriving DecidableEq

inductive FinalizationStatus where
  | pending
  | finalized
deriving DecidableEq

-- Outside the repository: which encodings decode, and the sum of signatures.
structure SignatureSums (Sig : Type) where
  decodes : Sig → Bool
  sum : List Sig → Sig

section
variable {Hash Key : Type}

def validateQuorum (fraction : Nat × Nat) : Except BftError Unit := ensure (quorumFractionValid fraction.1 fraction.2 = true) .invalidQuorum

def addActiveStake : Nat → List (Validator Hash Key) → Except BftError Nat
  | total,[] => .ok total
  | total,validator::rest =>
    if isActive validator then do
      ensure (total + validator.effectiveStake < 2^64) .stakeOverflow
      addActiveStake (total + validator.effectiveStake) rest
    else addActiveStake total rest

def totalActiveStake (activeSet : List (Validator Hash Key)) : Except BftError Nat := do
  let total ← addActiveStake 0 activeSet
  ensure (total ≠ 0) .zeroTotalStake
  pure total

def addMarkedStake (aggregationBits : BitVec) : Nat → List (Validator Hash Key × Nat) → Except BftError Nat
  | stake,[] => .ok stake
  | stake,(validator,index)::rest =>
    if aggregationBits.get index = some true then do
      ensure (isActive validator = true) .invalidAggregationBits
      ensure (stake + validator.effectiveStake < 2^64) .stakeOverflow
      addMarkedStake aggregationBits (stake + validator.effectiveStake) rest
    else addMarkedStake aggregationBits stake rest

def bitmapStake (activeSet : List (Validator Hash Key)) (aggregationBits : BitVec) : Except BftError Nat := do
  ensure (activeSet.length < 2^32) .panicked
  ensure (aggregationBits.bitLen = activeSet.length) .invalidAggregationBits
  let stake ← addMarkedStake aggregationBits 0 activeSet.zipIdx
  ensure (stake ≠ 0) .emptyVote
  pure stake

def markedKeys (activeSet : List (Validator Hash Key)) (aggregationBits : BitVec) : List Key :=
  (activeSet.zipIdx.filter fun seat => aggregationBits.get seat.2 = some true).map (·.1.pubkey)
end
section
variable {Hash Key Sig : Type} (crypto : Crypto Hash Key Sig)

def activeSigner (validators : List (Validator Hash Key)) (index : Nat) : Except BftError (Validator Hash Key) :=
  required (validators[index]?.filter isActive) .invalidAggregationBits

def verifyIndividualNative (validators : List (Validator Hash Key)) (index : Nat)
    (message : SigningMessage Hash Sig) (signature : Sig) : Except BftError Unit := do
  let validator ← activeSigner validators index
  ensure (crypto.verify validator.pubkey message signature = true) .invalidAggregateSignature

def verifyVoteSignature (domain : ConsensusDomain Hash) (activeSet : List (Validator Hash Key))
    (vote : FinalityVote Hash Sig) : Except BftError Unit :=
  ensure (crypto.aggregate (markedKeys activeSet vote.aggregationBits) (vote.data.signingMessage domain)
    vote.signature = true) .invalidAggregateSignature

section
variable (domain : ConsensusDomain Hash) (validators : List (Validator Hash Key)) (vote : NilVote Sig)

def verifyNilNativeClaims : List Nat → List Key → List (NilVoteAttestation Sig) → Except BftError (List Nat × List Key)
  | seen,keys,[] => .ok (seen,keys)
  | seen,keys,claim::rest => do
    ensure (claim.vote = vote.data ∧ claim.validatorIndex ∉ seen ∧
      vote.aggregationBits.get claim.validatorIndex = some true) .invalidAggregationBits
    let validator ← activeSigner validators claim.validatorIndex
    ensure (crypto.verify validator.pubkey (vote.data.signingMessage domain) claim.voteSignature = true) .invalidAggregateSignature
    ensure (crypto.verify validator.pubkey (claim.signingMessage domain) claim.signature = true) .invalidAggregateSignature
    verifyNilNativeClaims (claim.validatorIndex::seen) (keys++[validator.pubkey]) rest

def verifyNilNative : Except BftError Unit := do
  let _ ← bitmapStake validators vote.aggregationBits
  let (seen,keys) ← verifyNilNativeClaims crypto domain validators vote [] [] vote.attestations
  ensure (seen.length = ((List.range vote.aggregationBits.bitLen).filter (vote.aggregationBits.get · = some true)).length)
    .invalidAggregationBits
  ensure (crypto.aggregate keys (vote.data.signingMessage domain) vote.signature = true) .invalidAggregateSignature
end

def QuorumCertificate.vote (quorum : QuorumCertificate Hash Sig) : FinalityVote Hash Sig :=
  ⟨quorum.aggregate.aggregationBits,quorum.data,quorum.aggregate.signature,[]⟩

def verifyValueQuorumNative (domain : ConsensusDomain Hash) (validators : List (Validator Hash Key))
    (totalStake : Option Nat) (quorum : QuorumCertificate Hash Sig) (fraction : Nat × Nat) : Except BftError Unit := do
  validateQuorum fraction
  ensure (quorum.data.phase = .prevote) .wrongPhase
  let stake ← bitmapStake validators quorum.vote.aggregationBits
  let total ← match totalStake with
    | some total => pure total
    | none => totalActiveStake validators
  ensure (quorumReached stake total fraction.1 fraction.2 = true) .invalidQuorum
  verifyVoteSignature crypto domain validators quorum.vote

variable [DecidableEq Hash] [DecidableEq Sig] (domain : ConsensusDomain Hash) (validators : List (Validator Hash Key))

def verifyRoundChangeNative (totalStake : Option Nat) (report : RoundChange Hash Sig) (fraction : Nat × Nat)
    (verified : List (QuorumCertificate Hash Sig)) : Except BftError (List (QuorumCertificate Hash Sig)) := do
  ensure (report.round ≠ 0) .wrongVoteTarget
  verifyIndividualNative crypto validators report.validatorIndex (report.signingMessage domain) report.signature
  match report.highestQuorum with
  | none => pure verified
  | some quorum => do
    ensure (quorum.data.chunkId = report.chunkId ∧ quorum.data.round < report.round) .wrongVoteTarget
    if quorum ∈ verified then pure verified
    else do
      verifyValueQuorumNative crypto domain validators totalStake quorum fraction
      pure (verified++[quorum])

def verifyReportsNative (totalStake : Nat) (certificate : RoundChangeCertificate Hash Sig) (fraction : Nat × Nat) :
    List Nat → List (QuorumCertificate Hash Sig) → Nat → List (RoundChange Hash Sig) → Except BftError Nat
  | _,_,stake,[] => .ok stake
  | seen,verified,stake,report::rest => do
    ensure (report.chunkId = certificate.chunkId ∧ report.round = certificate.round ∧ report.validatorIndex ∉ seen) .wrongVoteTarget
    let verified ← verifyRoundChangeNative crypto domain validators (some totalStake) report fraction verified
    let validator ← required validators[report.validatorIndex]? .panicked
    ensure (stake + validator.effectiveStake < 2^64) .stakeOverflow
    verifyReportsNative totalStake certificate fraction (report.validatorIndex::seen) verified (stake + validator.effectiveStake) rest

def verifyRoundCertificateNative (totalStake : Nat) (certificate : RoundChangeCertificate Hash Sig) (fraction : Nat × Nat) : Except BftError Unit := do
  validateQuorum fraction
  let stake ← verifyReportsNative crypto domain validators totalStake certificate fraction [] [] 0 certificate.reports
  ensure (quorumReached stake totalStake fraction.1 fraction.2 = true) .invalidQuorum

-- What the pacemaker saved (pacemaker.rs): reports by later round and by signer.
structure Pacemaker (Hash Sig : Type) where
  chunkId : Nat
  round : Nat
  reports : List (Nat × List (Nat × RoundChange Hash Sig))

def Pacemaker.validateReport (pacemaker : Pacemaker Hash Sig) (round : Nat) (fraction : Nat × Nat) (verified : List (QuorumCertificate Hash Sig))
    (saved : Nat × RoundChange Hash Sig) : Except BftError (List (QuorumCertificate Hash Sig)) := do
  ensure (saved.2.chunkId = pacemaker.chunkId ∧ saved.2.round = round ∧ saved.2.validatorIndex = saved.1) .wrongVoteTarget
  verifyRoundChangeNative crypto domain validators none saved.2 fraction verified

-- One list of verified certificates serves the reports of every saved round.
def Pacemaker.validateSavedReports (pacemaker : Pacemaker Hash Sig) (fraction : Nat × Nat) : Except BftError Unit := do
  ensure (pacemaker.reports.length ≤ 2) .wrongVoteTarget
  let _ ← pacemaker.reports.foldlM (fun verified saved => do
    ensure (pacemaker.round < saved.1 ∧ saved.2.length ≤ validators.length) .wrongVoteTarget
    saved.2.foldlM (pacemaker.validateReport crypto domain validators saved.1 fraction) verified) []
  pure ()

-- Every unlock's target and stake are checked; an accepted equal is not paired again.
def verifyUnlockNative (totalStake : Nat)
    (vote : FinalityVoteData Hash) (fraction : Nat × Nat) (checked : List (QuorumCertificate Hash Sig))
    (quorum : QuorumCertificate Hash Sig) : Except BftError (List (QuorumCertificate Hash Sig)) := do
  ensure (quorum.data.phase = .prevote ∧ quorum.data.chunkId = vote.chunkId ∧
    quorum.data.chunkHash = vote.chunkHash ∧ unlockRoundAllowed vote quorum.data.round = true) .wrongVoteTarget
  let stake ← bitmapStake validators quorum.aggregate.aggregationBits
  ensure (quorumReached stake totalStake fraction.1 fraction.2 = true) .invalidQuorum
  if quorum ∈ checked then pure checked
  else do
    verifyVoteSignature crypto domain validators quorum.vote
    pure (checked++[quorum])

def verifyAttestationsFrom (totalStake : Nat) (vote : FinalityVote Hash Sig) (prevoteQuorum : Nat × Nat) :
    List Nat → List (QuorumCertificate Hash Sig) → List (VoteAttestation Hash Sig) → Except BftError Unit
  | _,_,[] => .ok ()
  | seen,checked,claim::rest => do
    ensure (claim.vote = vote.data ∧ vote.aggregationBits.get claim.validatorIndex = some true ∧
      claim.validatorIndex ∉ seen) .invalidAggregateSignature
    let validator ← required validators[claim.validatorIndex]? .invalidAggregationBits
    ensure (crypto.verify validator.pubkey (vote.data.signingMessage domain) claim.voteSignature = true) .invalidAggregateSignature
    ensure (crypto.verify validator.pubkey (claim.signingMessage domain) claim.signature = true) .invalidAggregateSignature
    let checked ← match claim.unlockQuorum with
      | none => pure checked
      | some quorum => verifyUnlockNative crypto domain validators totalStake vote.data prevoteQuorum checked quorum
    verifyAttestationsFrom totalStake vote prevoteQuorum (claim.validatorIndex::seen) checked rest

def verifyAttestations (totalStake : Nat) (vote : FinalityVote Hash Sig) (prevoteQuorum : Nat × Nat) : Except BftError Unit :=
  verifyAttestationsFrom crypto domain validators totalStake vote prevoteQuorum [] [] vote.attestations
end
section
variable {Hash Key Sig : Type} [DecidableEq Sig] (sums : SignatureSums Sig)

def mergeClaimsFrom {α : Type} (signer : α → Nat × Sig) : List (Nat × Sig) → List α → List α → Except BftError (List α)
  | _,claims,[] => .ok claims
  | signatures,claims,claim::rest =>
    match signatures.lookup (signer claim).1 with
    | some prior =>
      if prior = (signer claim).2 then mergeClaimsFrom signer signatures claims rest
      else .error .invalidAggregateSignature
    | none => mergeClaimsFrom signer (signer claim::signatures) (claims++[claim]) rest

def mergeSignedClaims {α : Type} (retained incoming : List α) (signer : α → Nat × Sig) : Except BftError (List α) :=
  mergeClaimsFrom signer (retained.map signer).reverse retained incoming

def unionBitVecs (left right : BitVec) : BitVec :=
  ⟨(List.range left.bitLen).map fun index => (left.get index).getD false || (right.get index).getD false⟩

def aggregateVoteSignatures (signatures : List Sig) : Except BftError Sig := do
  ensure (signatures.all sums.decodes = true ∧ signatures.isEmpty = false) .invalidAggregateSignature
  pure (sums.sum signatures)

-- An aggregate that does not decode is rebuilt from every claim.
def extendVoteAggregate {α : Type} (existing : Sig) (claims : List α) (retained : Nat) (voteSignature : α → Sig) : Except BftError Sig :=
  if sums.decodes existing then do
    ensure (((claims.drop retained).map voteSignature).all sums.decodes = true) .invalidAggregateSignature
    pure (sums.sum (existing::(claims.drop retained).map voteSignature))
  else aggregateVoteSignatures sums (claims.map voteSignature)

structure VoteAccumulator (Hash Sig : Type) where
  phase : FinalityVotePhase
  aggregate : Option (AggregatedVote Sig)
  aggregateStake : Nat
  attestations : List (VoteAttestation Hash Sig)
deriving DecidableEq

def VoteAccumulator.new (phase : FinalityVotePhase) : VoteAccumulator Hash Sig := ⟨phase,none,0,[]⟩

def VoteAccumulator.record (accumulator : VoteAccumulator Hash Sig) (vote : FinalityVote Hash Sig) (stake : Nat)
    (validators : List (Validator Hash Key)) : Except BftError (VoteAccumulator Hash Sig) :=
  match accumulator.aggregate with
  | none => .ok ⟨accumulator.phase,some ⟨vote.aggregationBits,vote.signature⟩,stake,vote.attestations⟩
  | some existing => do
    let claims ← mergeSignedClaims accumulator.attestations vote.attestations fun claim => (claim.validatorIndex,claim.voteSignature)
    if claims.length = accumulator.attestations.length then pure accumulator
    else do
      let signature ← extendVoteAggregate sums existing.signature claims accumulator.attestations.length (·.voteSignature)
      let aggregationBits := unionBitVecs existing.aggregationBits vote.aggregationBits
      let combinedStake ← bitmapStake validators aggregationBits
      pure ⟨accumulator.phase,some ⟨aggregationBits,signature⟩,combinedStake,claims⟩

def recordNil (existing : Option (NilVote Sig)) (vote : NilVote Sig) (validators : List (Validator Hash Key)) :
    Except BftError (NilVote Sig) :=
  match existing with
  | none => .ok vote
  | some known => do
    let claims ← mergeSignedClaims known.attestations vote.attestations fun claim => (claim.validatorIndex,claim.voteSignature)
    if claims.length = known.attestations.length then pure known
    else do
      let signature ← extendVoteAggregate sums known.signature claims known.attestations.length (·.voteSignature)
      let aggregationBits := unionBitVecs known.aggregationBits vote.aggregationBits
      let _ ← bitmapStake validators aggregationBits
      pure ⟨known.data,aggregationBits,signature,claims⟩
end

structure ChunkBft (Hash Key Sig : Type) where
  domain : ConsensusDomain Hash
  chunk : Chunk Hash
  round : Nat
  activeSet : List (Validator Hash Key)
  activeValidatorSetRoot : Hash
  totalStake : Nat
  prevoteQuorum : Nat × Nat
  precommitQuorum : Nat × Nat
  prevotes : VoteAccumulator Hash Sig
  precommits : VoteAccumulator Hash Sig
  proposal : Option (BftProposal Hash Sig)
  nilPrevotes : Option (NilVote Sig)
  nilPrecommits : Option (NilVote Sig)
deriving DecidableEq

namespace ChunkBft
variable {Hash Key Sig : Type} [DecidableEq Hash] [DecidableEq Sig]

def withQuorum (domain : ConsensusDomain Hash) (chunk : Chunk Hash) (round : Nat)
    (activeSet : List (Validator Hash Key)) (activeValidatorSetRoot : Hash) (prevoteQuorum precommitQuorum : Nat × Nat) :
    Except BftError (ChunkBft Hash Key Sig) := do
  validateQuorum prevoteQuorum
  validateQuorum precommitQuorum
  ensure (activeSet.length < 2^32) .validatorSetTooLarge
  let totalStake ← totalActiveStake activeSet
  pure ⟨domain,chunk,round,activeSet,activeValidatorSetRoot,totalStake,prevoteQuorum,precommitQuorum,
    .new .prevote,.new .precommit,none,none,none⟩

section
variable (session : ChunkBft Hash Key Sig)

def advanceToCandidate (chunk : Chunk Hash) (newRound : Nat) : Except BftError (ChunkBft Hash Key Sig) := do
  ensure (session.round < newRound) (.roundNotIncreased session.round newRound)
  ensure (chunk.chunkId = session.chunk.chunkId ∧ chunk.startHeight = session.chunk.startHeight ∧
    chunk.endHeight = session.chunk.endHeight ∧
    chunk.activeValidatorSetRoot = session.activeValidatorSetRoot) .wrongVoteTarget
  pure {session with
    chunk := chunk, round := newRound, prevotes := .new .prevote, precommits := .new .precommit,
    proposal := none, nilPrevotes := none, nilPrecommits := none}

def accumulator : FinalityVotePhase → VoteAccumulator Hash Sig
  | .prevote => session.prevotes
  | .precommit => session.precommits

def withAccumulator (phase : FinalityVotePhase) (recorded : VoteAccumulator Hash Sig) : ChunkBft Hash Key Sig :=
  match phase with
  | .prevote => {session with prevotes := recorded}
  | .precommit => {session with precommits := recorded}

def quorumFraction : FinalityVotePhase → Nat × Nat
  | .prevote => session.prevoteQuorum
  | .precommit => session.precommitQuorum

def phaseQuorumReached (phase : FinalityVotePhase) : Bool :=
  quorumReached (session.accumulator phase).aggregateStake session.totalStake (session.quorumFraction phase).1
    (session.quorumFraction phase).2

def prevoteQuorumReached : Bool := session.phaseQuorumReached .prevote
def precommitQuorumReached : Bool := session.phaseQuorumReached .precommit

def finalizationStatus (chunkProofValid : Bool) (previousValidatorSetRoot : Hash) : Except BftError FinalizationStatus := do
  ensure (session.activeValidatorSetRoot = session.chunk.activeValidatorSetRoot ∧
    session.activeValidatorSetRoot = previousValidatorSetRoot) .validatorSetRootMismatch
  pure (if chunkProofValid ∧ session.proposal.isSome ∧ session.prevoteQuorumReached ∧ session.precommitQuorumReached
    then .finalized else .pending)
end
variable (crypto : Crypto Hash Key Sig) (sums : SignatureSums Sig)

section
variable (session : ChunkBft Hash Key Sig)

def tryFinalize (chunkProofValid : Bool) (previousValidatorSetRoot : Hash) : Except BftError (Option (FinalityCert Hash Sig)) := do
  let status ← session.finalizationStatus chunkProofValid previousValidatorSetRoot
  match status with
  | .pending => pure none
  | .finalized => do
    let proposal ← required session.proposal .panicked
    let prevote ← required session.prevotes.aggregate .panicked
    let precommit ← required session.precommits.aggregate .panicked
    pure (some ⟨proposal,session.prevotes.attestations,session.precommits.attestations,session.chunk.chunkId,
      session.round,crypto.chunkHash session.chunk,prevote,precommit,session.activeValidatorSetRoot⟩)

def currentNilAggregate : FinalityVotePhase → Option (NilVote Sig)
  | .prevote => session.nilPrevotes
  | .precommit => session.nilPrecommits

def addNilVote (vote : NilVote Sig) : Except BftError (ChunkBft Hash Key Sig) := do
  ensure (vote.data.chunkId = session.chunk.chunkId ∧ vote.data.round = session.round) .wrongVoteTarget
  verifyNilNative crypto session.domain session.activeSet vote
  let merged ← recordNil sums (session.currentNilAggregate vote.data.phase) vote session.activeSet
  pure (match vote.data.phase with
    | .prevote => {session with nilPrevotes := some merged}
    | .precommit => {session with nilPrecommits := some merged})

-- Blocks of the session's chunk; both steps are checked u64 arithmetic.
def blockCount : Option Nat :=
  if session.chunk.startHeight ≤ session.chunk.endHeight ∧ session.chunk.endHeight - session.chunk.startHeight + 1 < 2^64 then
    some (session.chunk.endHeight - session.chunk.startHeight + 1)
  else none

def addVote (vote : FinalityVote Hash Sig) (expectedPhase : FinalityVotePhase) : Except BftError (ChunkBft Hash Key Sig) := do
  ensure (vote.data.phase = expectedPhase ∧ vote.data.phase = (session.accumulator expectedPhase).phase) .wrongPhase
  ensure (vote.data.chunkId = session.chunk.chunkId ∧ vote.data.round = session.round ∧
    vote.data.chunkHash = crypto.chunkHash session.chunk) .wrongVoteTarget
  let stake ← bitmapStake session.activeSet vote.aggregationBits
  let blockCount ← required session.blockCount .wrongVoteTarget
  ensure (attestationCoverageValid vote.data vote.aggregationBits vote.attestations blockCount = true) .invalidAggregateSignature
  verifyVoteSignature crypto session.domain session.activeSet vote
  verifyAttestations crypto session.domain session.activeSet session.totalStake vote session.prevoteQuorum
  let recorded ← (session.accumulator expectedPhase).record sums vote stake session.activeSet
  pure (session.withAccumulator expectedPhase recorded)

def addPrevote (vote : FinalityVote Hash Sig) : Except BftError (ChunkBft Hash Key Sig) := session.addVote crypto sums vote .prevote
def addPrecommit (vote : FinalityVote Hash Sig) : Except BftError (ChunkBft Hash Key Sig) := session.addVote crypto sums vote .precommit
end
variable [LT Hash] [DecidableLT Hash]

section
variable (session : ChunkBft Hash Key Sig) (proposal : BftProposal Hash Sig)

-- Every round but the first carries the quorum of reports that entered it.
def verifyEntry : Except BftError Unit :=
  match proposal.round,proposal.roundChangeCertificate with
  | 0,none => .ok ()
  | 0,some _ => .error .wrongVoteTarget
  | _+1,none => .error .wrongVoteTarget
  | _+1,some certificate => do
    ensure (certificate.chunkId = session.chunk.chunkId ∧ certificate.round = session.round) .wrongVoteTarget
    verifyRoundCertificateNative crypto session.domain session.activeSet session.totalStake certificate session.prevoteQuorum
    ensure (certificate.highestQuorum.all (carriesHighest proposal) = true) .wrongVoteTarget

def verifyValidQuorum : Except BftError Unit :=
  match proposal.validQuorum with
  | none => .ok ()
  | some quorum => do
    ensure (quorum.data.chunkId = session.chunk.chunkId ∧ quorum.data.chunkHash = crypto.chunkHash session.chunk ∧
      quorum.data.round < session.round) .wrongVoteTarget
    verifyValueQuorumNative crypto session.domain session.activeSet (some session.totalStake) quorum session.prevoteQuorum

def setProposal : Except BftError (ChunkBft Hash Key Sig) := do
  -- The designated leader is drawn with the commitment of the set held here.
  ensure (proposal.chunk = session.chunk ∧ proposal.round = session.round ∧
    bftLeaderWithRoot crypto session.domain.chainId session.chunk.chunkId session.round session.activeSet
      (crypto.commitment session.activeSet) = some proposal.proposerIndex) .wrongVoteTarget
  verifyIndividualNative crypto session.activeSet proposal.proposerIndex (proposal.signingMessage session.domain) proposal.signature
  session.verifyEntry crypto proposal
  session.verifyValidQuorum crypto proposal
  ensure (session.proposal.all (· = proposal) = true) .wrongVoteTarget
  pure {session with proposal := some proposal}
end

inductive Event (Hash Sig : Type) where
  | proposal (proposal : BftProposal Hash Sig)
  | prevote (vote : FinalityVote Hash Sig)
  | precommit (vote : FinalityVote Hash Sig)
  | nilVote (vote : NilVote Sig)
  | candidate (chunk : Chunk Hash) (newRound : Nat)

def step (session : ChunkBft Hash Key Sig) : Event Hash Sig → Except BftError (ChunkBft Hash Key Sig)
  | .proposal proposal => session.setProposal crypto proposal
  | .prevote vote => session.addPrevote crypto sums vote
  | .precommit vote => session.addPrecommit crypto sums vote
  | .nilVote vote => session.addNilVote crypto sums vote
  | .candidate chunk newRound => session.advanceToCandidate chunk newRound

-- A run of the session: every refused call leaves it unchanged.
def run (session : ChunkBft Hash Key Sig) (events : List (Event Hash Sig)) : ChunkBft Hash Key Sig :=
  events.foldl (fun session event => (session.step crypto sums event).toOption.getD session) session

theorem run_invariant (holds : ChunkBft Hash Key Sig → Prop)
    (preserved : ∀ session event next, holds session → session.step crypto sums event = .ok next → holds next)
    (initial : holds session) (events : List (Event Hash Sig)) : holds (session.run crypto sums events) := by
  induction events generalizing session with
  | nil => exact initial
  | cons event rest ih =>
    change holds ((((session.step crypto sums event).toOption.getD session)).run crypto sums rest)
    cases taken : session.step crypto sums event with
    | error reason => exact ih initial
    | ok next => exact ih (preserved session event next initial taken)

def electorate (session : ChunkBft Hash Key Sig) :
    ConsensusDomain Hash × List (Validator Hash Key) × Hash × Nat × (Nat × Nat) × (Nat × Nat) :=
  (session.domain,session.activeSet,session.activeValidatorSetRoot,session.totalStake,session.prevoteQuorum, session.precommitQuorum)

theorem step_electorate {session next : ChunkBft Hash Key Sig}
    (taken : session.step crypto sums event = .ok next) : next.electorate = session.electorate := by
  cases event with
  | proposal proposal =>
    simp only [step,setProposal,bind_ok,ensure_ok,pure_ok] at taken
    obtain ⟨_,_,_,_,_,_,_,_,_,_,rfl⟩ := taken
    rfl
  | prevote vote =>
    simp only [step,addPrevote,addVote,bind_ok,ensure_ok,pure_ok] at taken
    obtain ⟨_,_,_,_,_,_,_,_,_,_,_,_,_,_,_,_,rfl⟩ := taken
    rfl
  | precommit vote =>
    simp only [step,addPrecommit,addVote,bind_ok,ensure_ok,pure_ok] at taken
    obtain ⟨_,_,_,_,_,_,_,_,_,_,_,_,_,_,_,_,rfl⟩ := taken
    rfl
  | nilVote vote =>
    simp only [step,addNilVote,bind_ok,ensure_ok,pure_ok] at taken
    obtain ⟨_,_,_,_,_,_,rfl⟩ := taken
    cases vote.data.phase <;> rfl
  | candidate chunk newRound =>
    simp only [step,advanceToCandidate,bind_ok,ensure_ok,pure_ok] at taken
    obtain ⟨_,_,_,_,rfl⟩ := taken
    rfl

theorem run_electorate (session : ChunkBft Hash Key Sig) (events : List (Event Hash Sig)) :
    (session.run crypto sums events).electorate = session.electorate :=
  run_invariant crypto sums (fun later => later.electorate = session.electorate)
    (fun _ _ _ same taken => (step_electorate crypto sums taken).trans same) rfl events
end ChunkBft
end Neutrino.Consensus
