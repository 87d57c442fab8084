import Neutrino.Consensus.Verification

-- Proposal, pacemaker and certificate verification, with the quorum cache threaded
-- through every check that may consult it.
namespace Neutrino.Consensus
open Checks
variable {Hash Key Sig : Type} (crypto : Crypto Hash Key Sig)

-- Exact signer coverage and the phase's proof lists; seen indices are a list.
def attestationCoverage [DecidableEq Hash] (vote : FinalityVoteData Hash) (bits : BitVec) (blockCount : Nat) :
    List Nat → List (VoteAttestation Hash Sig) → Option (List Nat)
  | seen,[] => some seen
  | seen,claim::rest =>
    if claim.vote = vote ∧ bits.get claim.validatorIndex = some true ∧ claim.validatorIndex ∉ seen ∧
        (match vote.phase with
          | .prevote => claim.proofHashes.isEmpty
          | .precommit => decide (claim.proofHashes.length = blockCount)) = true then
      attestationCoverage vote bits blockCount (claim.validatorIndex::seen) rest
    else none

def attestationCoverageValid [DecidableEq Hash] (vote : FinalityVoteData Hash) (bits : BitVec)
    (claims : List (VoteAttestation Hash Sig)) (blockCount : Nat) : Bool :=
  if blockCount = 0 ∨ claims.isEmpty then false
  else match attestationCoverage vote bits blockCount [] claims with
    | none => false
    | some seen => ((List.range bits.bitLen).filter (bits.get · = some true)).length == seen.length

-- Round-robin over active seats from an offset bound to the chain, chunk and set.
def bftLeaderWithRoot (chainId chunkId round : Nat) (validators : List (Validator Hash Key)) (root : Hash) : Option Nat :=
  let eligible := (validators.zipIdx.filter (fun seat => isActive seat.1)).map (·.2)
  if eligible.any (2^32 ≤ ·) ∨ eligible.length = 0 then none
  else eligible[(crypto.leaderOffset chainId chunkId root % eligible.length + round) % eligible.length]?

section
variable {crypto} {validators : List (Validator Hash Key)} {chainId chunkId round index : Nat} {root : Hash}

def activeSeats (validators : List (Validator Hash Key)) : List Nat := (validators.zipIdx.filter (fun seat => isActive seat.1)).map (·.2)

theorem mem_activeSeats : index ∈ activeSeats validators ↔ ∃ validator, validators[index]? = some validator ∧ isActive validator = true := by
  simp [activeSeats,List.mem_zipIdx_iff_getElem?]

theorem activeSeats_nodup : (activeSeats validators).Nodup := by
  apply (List.filter_sublist.map _).nodup
  rw [List.zipIdx_map_snd]
  exact List.nodup_range'

theorem activeSeats_length : (activeSeats validators).length = validators.countP isActive := by
  rw [activeSeats,List.length_map,← List.countP_eq_length_filter,← Function.comp_def,← List.countP_map,List.zipIdx_map_fst]

theorem leader_turn : bftLeaderWithRoot crypto chainId chunkId round validators root = some index ↔
    (∀ seat ∈ activeSeats validators, seat < 2^32) ∧
      (activeSeats validators)[(crypto.leaderOffset chainId chunkId root + round) % (activeSeats validators).length]? = some index := by
  change (if (activeSeats validators).any (2^32 ≤ ·) ∨ (activeSeats validators).length = 0 then none
    else (activeSeats validators)[(_ % (activeSeats validators).length + round) % (activeSeats validators).length]?) = some index ↔ _
  rw [Nat.mod_add_mod]
  split
  next refused =>
    rcases refused with wide | empty
    · obtain ⟨seat,listed,wide⟩ := List.any_eq_true.mp wide
      refine ⟨nofun,fun drawn => absurd (drawn.1 seat listed) ?_⟩
      simpa using wide
    · simp [List.eq_nil_of_length_eq_zero empty]
  next kept =>
    refine (and_iff_right fun seat listed => Nat.lt_of_not_le fun wide => kept (.inl ?_)).symm
    exact List.any_eq_true.mpr ⟨seat,listed,by simpa using wide⟩

theorem leader_active (drawn : bftLeaderWithRoot crypto chainId chunkId round validators root = some index) :
    ∃ validator, validators[index]? = some validator ∧ isActive validator = true :=
  mem_activeSeats.mp (List.mem_of_getElem? (leader_turn.mp drawn).2)

-- Consecutive rounds take each turn once, wherever the first of them starts.
theorem turn_once {count turn : Nat} (inside : turn < count) (offset start : Nat) :
    ∃! round, (start ≤ round ∧ round < start + count) ∧ (offset + round) % count = turn := by
  have reached : offset + start ≤ count * (offset + start) := Nat.le_mul_of_pos_left _ (by omega)
  let wait := (count * (offset + start) - (offset + start) + turn) % count
  have short : wait < count := Nat.mod_lt _ (by omega)
  have landed : (offset + (start + wait)) % count = turn := by
    rw [← Nat.add_assoc,Nat.add_mod_mod,← Nat.add_assoc,Nat.add_sub_cancel' reached,Nat.mul_add_mod,Nat.mod_eq_of_lt inside]
  refine ⟨start + wait,⟨⟨by omega,by omega⟩,landed⟩,?_⟩
  rintro other ⟨⟨after,before⟩,same⟩
  have congruent : other ≡ start + wait [MOD count] := Nat.ModEq.add_left_cancel' offset (same.trans landed.symm)
  exact Nat.le_antisymm (congruent.le_of_lt_add (by omega)) (congruent.symm.le_of_lt_add (by omega))

-- Every active seat leads exactly one of as many consecutive rounds as there are
-- active seats; no other seat ever leads.
theorem leaders_rotate (crypto : Crypto Hash Key Sig) (chainId chunkId : Nat) (root : Hash) (validators : List (Validator Hash Key)) :
    (∀ round index, bftLeaderWithRoot crypto chainId chunkId round validators root = some index →
      ∃ validator, validators[index]? = some validator ∧ isActive validator = true) ∧
    ((∀ index validator, validators[index]? = some validator → isActive validator = true → index < 2^32) →
      ∀ start index validator, validators[index]? = some validator → isActive validator = true →
        ∃! round, (start ≤ round ∧ round < start + validators.countP isActive) ∧
          bftLeaderWithRoot crypto chainId chunkId round validators root = some index) := by
  refine ⟨fun _ _ => leader_active,fun narrow start index validator seated active => ?_⟩
  have listed := mem_activeSeats.mpr ⟨validator,seated,active⟩
  obtain ⟨turn,inside,taken⟩ := List.mem_iff_getElem.mp listed
  have whole : ∀ seat ∈ activeSeats validators, seat < 2^32 := fun seat member => by
    obtain ⟨other,there,live⟩ := mem_activeSeats.mp member
    exact narrow seat other there live
  have turns : ∀ round, bftLeaderWithRoot crypto chainId chunkId round validators root = some index ↔
      (crypto.leaderOffset chainId chunkId root + round) % (activeSeats validators).length = turn := fun round => by
    rw [leader_turn,and_iff_right whole,← taken,← List.getElem?_eq_getElem inside,eq_comm,
      List.getElem?_inj inside activeSeats_nodup,eq_comm]
  simp only [turns,← activeSeats_length]
  exact turn_once inside _ start

theorem second_seat_leads_once : ∀ crypto : Crypto Nat Nat Nat, ∃! round, (3 ≤ round ∧ round < 3 + 2) ∧
    bftLeaderWithRoot crypto 7 0 round [⟨1,1,10,false,0,9,0⟩,⟨2,2,10,false,0,9,0⟩] 0 = some 1 := by
  intro crypto
  refine (leaders_rotate crypto 7 0 0 [⟨1,1,10,false,0,9,0⟩,⟨2,2,10,false,0,9,0⟩]).2 (fun index validator seated _ => ?_) 3 1 _ rfl rfl
  obtain ⟨inside,-⟩ := List.getElem?_eq_some_iff.mp seated
  exact Nat.lt_trans inside (by decide)

-- An active seat past the last 32-bit index leaves the whole set without a leader.
theorem wide_seat_leaderless : ∃ validators : List (Validator Nat Nat), validators.countP isActive = 1 ∧
    ∀ (crypto : Crypto Nat Nat Nat) chainId chunkId round root, bftLeaderWithRoot crypto chainId chunkId round validators root = none := by
  have last (count : Nat) : (List.replicate count ⟨0,0,0,false,0,0,0⟩ ++ [⟨0,0,1,false,0,0,0⟩] : List (Validator Nat Nat))[count]? =
      some ⟨0,0,1,false,0,0,0⟩ := by simp
  have one (count : Nat) : (List.replicate count ⟨0,0,0,false,0,0,0⟩ ++ [⟨0,0,1,false,0,0,0⟩] : List (Validator Nat Nat)).countP isActive = 1 := by
    simp [List.countP_replicate,isActive]
  refine ⟨_,one (2^32),fun crypto chainId chunkId round root => Option.eq_none_iff_forall_ne_some.mpr fun drawn led => ?_⟩
  exact absurd ((leader_turn.mp led).1 (2^32) (mem_activeSeats.mpr ⟨_,last (2^32),rfl⟩)) (Nat.lt_irrefl _)
end
def higherQuorum [LT Hash] [DecidableLT Hash] (best quorum : QuorumCertificate Hash Sig) : QuorumCertificate Hash Sig :=
  if quorum.data.round < best.data.round ∨
      (quorum.data.round = best.data.round ∧ quorum.data.chunkHash < best.data.chunkHash) then best else quorum

def RoundChangeCertificate.highestQuorum [LT Hash] [DecidableLT Hash] (certificate : RoundChangeCertificate Hash Sig) :
    Option (QuorumCertificate Hash Sig) :=
  match certificate.reports.filterMap (·.highestQuorum) with
  | [] => none
  | first::rest => some (rest.foldl higherQuorum first)

variable [DecidableEq Hash] [DecidableEq Sig]

section
variable (domain : ConsensusDomain Hash) (validators : List (Validator Hash Key))

def verifyRoundChangeWith (report : RoundChange Hash Sig) (fraction : Nat × Nat) (quorums : VerifiedQuorums Hash Sig) :
    Except FinalityError (VerifiedQuorums Hash Sig) := do
  let validator ← required (validators[report.validatorIndex]?.filter isActive) .membership
  ensure (report.round ≠ 0) .target
  ensure (crypto.verify validator.pubkey (report.signingMessage domain) report.signature = true) .signature
  match report.highestQuorum with
  | none => pure quorums
  | some quorum =>
    ensure (quorum.data.chunkId = report.chunkId ∧ quorum.data.round < report.round) .target
    (verifyQuorumWith crypto domain validators quorum fraction quorums).mapError fun _ => .quorum

-- Unique reports of one chunk and round, their stake summed in u64.
def verifyReports (certificate : RoundChangeCertificate Hash Sig) (fraction : Nat × Nat) :
    List Nat → Nat → VerifiedQuorums Hash Sig → List (RoundChange Hash Sig) → Except FinalityError (Nat × VerifiedQuorums Hash Sig)
  | _,stake,quorums,[] => .ok (stake,quorums)
  | seen,stake,quorums,report::rest => do
    ensure (report.chunkId = certificate.chunkId ∧ report.round = certificate.round ∧ report.validatorIndex ∉ seen) .target
    let quorums ← verifyRoundChangeWith crypto domain validators report fraction quorums
    let validator ← required validators[report.validatorIndex]? .membership
    ensure (stake + validator.effectiveStake < 2^64) .membership
    verifyReports certificate fraction (report.validatorIndex::seen) (stake + validator.effectiveStake) quorums rest

def verifyRoundChangeCertificateWith (certificate : RoundChangeCertificate Hash Sig) (fraction : Nat × Nat) (quorums : VerifiedQuorums Hash Sig) :
    Except FinalityError (VerifiedQuorums Hash Sig) := do
  ensure (certificate.reports ≠ [] ∧ certificate.reports.length ≤ validators.length ∧
    quorumFractionValid fraction.1 fraction.2 = true) .membership
  let total ← required (activeStakeTotal validators) .membership
  let (stake,quorums) ← verifyReports crypto domain validators certificate fraction [] 0 quorums certificate.reports
  ensure (quorumReached stake total fraction.1 fraction.2 = true) .quorum
  pure quorums
end

-- A quorum at least as high as the certificate's, of its target in equal rounds.
def carriesHighest (proposal : BftProposal Hash Sig) (highest : QuorumCertificate Hash Sig) : Bool :=
  match proposal.validQuorum with
  | none => false
  | some valid => decide (highest.data.round ≤ valid.data.round) &&
      (valid.data.round != highest.data.round || decide (valid.data.chunkHash = highest.data.chunkHash))

variable [LT Hash] [DecidableLT Hash]

section
variable (domain : ConsensusDomain Hash) (validators : List (Validator Hash Key))

section
variable (proposal : BftProposal Hash Sig) (fraction : Nat × Nat) (quorums : VerifiedQuorums Hash Sig)

-- The two optional parts of a proposal: how its round was entered and the quorum it carries.
def verifyJustification : Except FinalityError (VerifiedQuorums Hash Sig) :=
  match proposal.round,proposal.roundChangeCertificate with
  | 0,none => .ok quorums
  | 0,some _ => .error .target
  | _+1,none => .error .target
  | _+1,some certificate => do
    ensure (certificate.chunkId = proposal.chunk.chunkId ∧ certificate.round = proposal.round) .target
    let quorums ← verifyRoundChangeCertificateWith crypto domain validators certificate fraction quorums
    ensure (certificate.highestQuorum.all (carriesHighest proposal) = true) .target
    pure quorums

def verifyValidQuorum : Except FinalityError (VerifiedQuorums Hash Sig) :=
  match proposal.validQuorum with
  | none => .ok quorums
  | some quorum => do
    ensure (quorum.data.chunkId = proposal.chunk.chunkId ∧
      quorum.data.chunkHash = crypto.chunkHash proposal.chunk ∧ quorum.data.round < proposal.round) .target
    (verifyQuorumWith crypto domain validators quorum fraction quorums).mapError fun _ => .quorum
end

def verifyProposalWith (root : Hash) (proposal : BftProposal Hash Sig) (fraction : Nat × Nat) (quorums : VerifiedQuorums Hash Sig) :
    Except FinalityError (VerifiedQuorums Hash Sig) := do
  ensure (bftLeaderWithRoot crypto domain.chainId proposal.chunk.chunkId proposal.round validators root =
      some proposal.proposerIndex ∧ proposal.chunk.activeValidatorSetRoot = root) .target
  let validator ← required validators[proposal.proposerIndex]? .membership
  ensure (crypto.verify validator.pubkey (proposal.signingMessage domain) proposal.signature = true) .signature
  let quorums ← verifyJustification crypto domain validators proposal fraction quorums
  verifyValidQuorum crypto domain validators proposal fraction quorums

-- Unique marked signers of the aggregate's payload, each with both signatures.
def verifyNilClaims (vote : NilVote Sig) : List Nat → List (NilVoteAttestation Sig) → Except FinalityError (List Nat)
  | seen,[] => .ok seen
  | seen,claim::rest => do
    ensure (claim.vote = vote.data ∧ claim.validatorIndex ∉ seen ∧ vote.aggregationBits.get claim.validatorIndex = some true) .membership
    let validator ← required validators[claim.validatorIndex]? .membership
    ensure (crypto.verify validator.pubkey (vote.data.signingMessage domain) claim.voteSignature = true ∧
      crypto.verify validator.pubkey (claim.signingMessage domain) claim.signature = true) .signature
    verifyNilClaims vote (claim.validatorIndex::seen) rest

def verifyNilVoteUsing (vote : NilVote Sig) : Except FinalityError Unit := do
  ensure (vote.aggregationBits.bitLen = validators.length) .membership
  let (keys,_) ← required (signers validators vote.aggregationBits) .membership
  let seen ← verifyNilClaims crypto domain validators vote [] vote.attestations
  ensure (keys.isEmpty = false ∧ seen.length = keys.length) .membership
  ensure (crypto.aggregate keys (vote.data.signingMessage domain) vote.signature = true) .signature

def verifyClaimSignaturesWith (data : FinalityVoteData Hash) (message : SigningMessage Hash Sig) (claims : List (VoteAttestation Hash Sig)) :
    Except FinalityError Unit :=
  each (fun claim => (verifyAttestationWith crypto domain validators claim.validatorIndex data message claim).mapError
    fun _ => .signature) claims

def verifyUnlockClaimsWith (data : FinalityVoteData Hash) (params : ConsensusParams) :
    VerifiedQuorums Hash Sig → List (VoteAttestation Hash Sig) → Except FinalityError (VerifiedQuorums Hash Sig)
  | quorums,[] => .ok quorums
  | quorums,claim::rest => do
    let quorums ← match claim.unlockQuorum with
      | none => pure quorums
      | some unlock =>
        (verifyUnlockWith crypto domain validators data unlock params.prevoteFraction quorums).mapError (fun _ => .target)
    verifyUnlockClaimsWith data params quorums rest

-- Coverage, the aggregate and each claim's signatures; unlocks are not looked at.
def verifyVoteSignaturesUsing (vote : FinalityVote Hash Sig) (params : ConsensusParams) : Except FinalityError Unit := do
  ensure (attestationCoverageValid vote.data vote.aggregationBits vote.attestations params.chunkSize = true ∧
    vote.aggregationBits.bitLen = validators.length) .membership
  let (keys,_) ← required (signers validators vote.aggregationBits) .membership
  ensure (keys.isEmpty = false ∧ crypto.aggregate keys (vote.data.signingMessage domain) vote.signature = true) .signature
  verifyClaimSignaturesWith crypto domain validators vote.data (vote.data.signingMessage domain) vote.attestations

def verifyVoteUsing (vote : FinalityVote Hash Sig) (params : ConsensusParams) : Except FinalityError Unit := do
  verifyVoteSignaturesUsing crypto domain validators vote params
  let _ ← verifyUnlockClaimsWith crypto domain validators vote.data params ⟨params.prevoteFraction,[]⟩ vote.attestations
  pure ()
end

def verifyPhaseWith (validators : List (Validator Hash Key)) (vote : AggregatedVote Sig)
    (message : SigningMessage Hash Sig) (total : Nat) (fraction : Nat × Nat) : Except FinalityError Unit := do
  ensure (quorumFractionValid fraction.1 fraction.2 = true ∧ vote.aggregationBits.bitLen = validators.length) .membership
  let (keys,stake) ← required (signers validators vote.aggregationBits) .membership
  ensure (stake < 2^64) .membership
  ensure (quorumReached stake total fraction.1 fraction.2 = true) .quorum
  ensure (crypto.aggregate keys message vote.signature = true) .signature

variable (domain : ConsensusDomain Hash) (params : ConsensusParams) (validators : List (Validator Hash Key))

def verifyFinalityPhase (certificate : FinalityCert Hash Sig) (total : Nat)
    (phase : FinalityVotePhase) (fraction : Nat × Nat) (vote : AggregatedVote Sig)
    (claims : List (VoteAttestation Hash Sig)) (quorums : VerifiedQuorums Hash Sig) : Except FinalityError (VerifiedQuorums Hash Sig) := do
  let data := certificate.voteData phase
  ensure (attestationCoverageValid data vote.aggregationBits claims params.chunkSize = true) .membership
  verifyClaimSignaturesWith crypto domain validators data (data.signingMessage domain) claims
  let quorums ← verifyUnlockClaimsWith crypto domain validators data params quorums claims
  verifyPhaseWith crypto validators vote (data.signingMessage domain) total fraction
  pure quorums

def verifyFinalityWithRoot (root : Hash) (chunk : Chunk Hash) (certificate : FinalityCert Hash Sig) : Except FinalityError Unit := do
  ensure (certificate.chunkId = chunk.chunkId ∧ certificate.chunkHash = crypto.chunkHash chunk ∧
    certificate.activeValidatorSetRoot = root ∧ chunk.activeValidatorSetRoot = root ∧
    certificate.proposal.chunk = chunk ∧ certificate.proposal.round = certificate.round) .target
  let quorums ← verifyProposalWith crypto domain validators root certificate.proposal params.prevoteFraction ⟨params.prevoteFraction,[]⟩
  let total ← required (activeStakeTotal validators) .membership
  let quorums ← verifyFinalityPhase crypto domain params validators certificate total .prevote params.prevoteFraction
    certificate.prevote certificate.prevoteAttestations quorums
  let _ ← verifyFinalityPhase crypto domain params validators certificate total .precommit params.precommitFraction
    certificate.precommit certificate.precommitAttestations quorums
  pure ()
end Neutrino.Consensus
