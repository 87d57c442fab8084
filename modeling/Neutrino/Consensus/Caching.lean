import Neutrino.Consensus.Session
import Neutrino.Library.Lockstep

-- Certificates that recur are verified once (slashing.rs; consensus-chunk-bft). A hit
-- skips the membership, stake and signature checks and nothing of its carrier.
namespace Neutrino.Consensus
open Checks Lockstep
variable {Hash Key Sig : Type} [DecidableEq Hash] [DecidableEq Sig]

-- A certificate under another fraction bypasses the cache, so this one stores and answers nothing.
def VerifiedQuorums.idle (fraction : Nat × Nat) : VerifiedQuorums Hash Sig := ⟨(fraction.1+1,fraction.2),[]⟩

-- A cache answers only for certificates that were verified.
def VerifiedQuorums.Sound (crypto : Crypto Hash Key Sig) (domain : ConsensusDomain Hash)
    (validators : List (Validator Hash Key)) (quorums : VerifiedQuorums Hash Sig) : Prop :=
  ∀ quorum ∈ quorums.verified, verifyQuorumUsing crypto domain validators quorum quorums.fraction = .ok ()

variable (crypto : Crypto Hash Key Sig) (domain : ConsensusDomain Hash) (validators : List (Validator Hash Key))

section
variable (totalStake : Nat)

def verifyReportsAfresh (certificate : RoundChangeCertificate Hash Sig) (fraction : Nat × Nat) :
    List Nat → Nat → List (RoundChange Hash Sig) → Except BftError Nat
  | _,stake,[] => .ok stake
  | seen,stake,report::rest => do
    ensure (report.chunkId = certificate.chunkId ∧ report.round = certificate.round ∧ report.validatorIndex ∉ seen) .wrongVoteTarget
    let _ ← verifyRoundChangeNative crypto domain validators (some totalStake) report fraction []
    let validator ← required validators[report.validatorIndex]? .panicked
    ensure (stake + validator.effectiveStake < 2^64) .stakeOverflow
    verifyReportsAfresh certificate fraction (report.validatorIndex::seen) (stake + validator.effectiveStake) rest

def verifyRoundCertificateAfresh (certificate : RoundChangeCertificate Hash Sig) (fraction : Nat × Nat) : Except BftError Unit := do
  validateQuorum fraction
  let stake ← verifyReportsAfresh crypto domain validators totalStake certificate fraction [] 0 certificate.reports
  ensure (quorumReached stake totalStake fraction.1 fraction.2 = true) .invalidQuorum

def verifyAttestationsAfresh (vote : FinalityVote Hash Sig) (prevoteQuorum : Nat × Nat) :
    List Nat → List (VoteAttestation Hash Sig) → Except BftError Unit
  | _,[] => .ok ()
  | seen,claim::rest => do
    ensure (claim.vote = vote.data ∧ vote.aggregationBits.get claim.validatorIndex = some true ∧
      claim.validatorIndex ∉ seen) .invalidAggregateSignature
    let validator ← required validators[claim.validatorIndex]? .invalidAggregationBits
    ensure (crypto.verify validator.pubkey (vote.data.signingMessage domain) claim.voteSignature = true) .invalidAggregateSignature
    ensure (crypto.verify validator.pubkey (claim.signingMessage domain) claim.signature = true) .invalidAggregateSignature
    let _ ← match claim.unlockQuorum with
      | none => pure []
      | some quorum => verifyUnlockNative crypto domain validators totalStake vote.data prevoteQuorum [] quorum
    verifyAttestationsAfresh vote prevoteQuorum (claim.validatorIndex::seen) rest
end

def validateSavedReportsAfresh (pacemaker : Pacemaker Hash Sig) (fraction : Nat × Nat) : Except BftError Unit := do
  ensure (pacemaker.reports.length ≤ 2) .wrongVoteTarget
  each (fun round => do
    ensure (pacemaker.round < round.1 ∧ round.2.length ≤ validators.length) .wrongVoteTarget
    each (fun saved => (pacemaker.validateReport crypto domain validators round.1 fraction [] saved).map fun _ => ()) round.2) pacemaker.reports
variable {crypto domain validators} {fraction : Nat × Nat}

def Recalls (crypto : Crypto Hash Key Sig) (domain : ConsensusDomain Hash) (validators : List (Validator Hash Key))
    (fraction : Nat × Nat) (cached bare : VerifiedQuorums Hash Sig) : Prop :=
  cached.Sound crypto domain validators ∧ bare = .idle fraction

def Transparent (crypto : Crypto Hash Key Sig) (domain : ConsensusDomain Hash) (validators : List (Validator Hash Key))
    (fraction : Nat × Nat) (check : VerifiedQuorums Hash Sig → Except ε (VerifiedQuorums Hash Sig)) : Prop :=
  ∀ cached bare, Recalls crypto domain validators fraction cached bare →
    Follows (fun _ => False) (Recalls crypto domain validators fraction) (check cached) (check bare)

theorem verify_idle (quorum : QuorumCertificate Hash Sig) : verifyQuorumWith crypto domain validators quorum fraction (.idle fraction) =
      (verifyQuorumUsing crypto domain validators quorum fraction).map fun _ => .idle fraction := by
  have other : ¬(VerifiedQuorums.idle fraction : VerifiedQuorums Hash Sig).fraction = fraction := by
    intro same
    exact absurd (congrArg Prod.fst same) (Nat.succ_ne_self _)
  rw [verifyQuorumWith,if_neg fun hit => other hit.1,if_neg other]
  cases verifyQuorumUsing crypto domain validators quorum fraction <;> rfl

theorem idle_sound : (VerifiedQuorums.idle fraction).Sound crypto domain validators := fun _ listed => by cases listed

theorem quorum_transparent (quorum : QuorumCertificate Hash Sig) :
    Transparent crypto domain validators fraction (verifyQuorumWith crypto domain validators quorum fraction) := by
  rintro cached _ ⟨sound,rfl⟩
  rw [verify_idle,verifyQuorumWith]
  split
  · rename_i known
    rw [← known.1,sound quorum known.2]
    exact .done ⟨sound,rfl⟩
  · cases checked : verifyQuorumUsing crypto domain validators quorum fraction with
    | error reason => exact .stop reason
    | ok =>
      refine .done ⟨?_,rfl⟩
      split
      · rename_i same
        exact List.forall_mem_append.mpr ⟨sound,List.forall_mem_singleton.mpr (same ▸ checked)⟩
      · exact sound

section
variable {check : VerifiedQuorums Hash Sig → Except ε (VerifiedQuorums Hash Sig)} {cached : VerifiedQuorums Hash Sig}
  (transparent : Transparent crypto domain validators fraction check)
include transparent

theorem Transparent.idle (accepted : check (.idle fraction) = .ok next) : next = .idle fraction := by
  obtain ⟨_,_,lacking | failed⟩ | ⟨_,_,_,passed,_,same⟩ := transparent ⟨fraction,[]⟩ _ ⟨(fun _ listed => by cases listed),rfl⟩
  · exact lacking.elim
  · cases failed.symm.trans accepted
  · cases passed.symm.trans accepted
    exact same

variable (sound : cached.Sound crypto domain validators)
include sound

theorem Transparent.kept (accepted : check cached = .ok next) : next.Sound crypto domain validators := by
  obtain ⟨_,failed,_⟩ | ⟨_,_,ran,_,kept,_⟩ := transparent cached _ ⟨sound,rfl⟩
  · cases failed.symm.trans accepted
  · cases ran.symm.trans accepted
    exact kept

theorem Transparent.accepts : (∃ next, check cached = .ok next) ↔ check (.idle fraction) = .ok (.idle fraction) := by
  obtain ⟨reason,ran,lacking | failed⟩ | ⟨one,two,ran,passed,_,same⟩ := transparent cached _ ⟨sound,rfl⟩
  · exact lacking.elim
  · simp [ran,failed]
  · subst same
    simp [ran,passed]
end

theorem report_transparent (report : RoundChange Hash Sig) :
    Transparent crypto domain validators fraction (verifyRoundChangeWith crypto domain validators report fraction) := by
  intro cached bare recalls
  refine .after _ fun _ _ => .after _ fun _ _ => .after _ fun _ _ => ?_
  cases report.highestQuorum with
  | none => exact .done recalls
  | some quorum => exact .after _ fun _ _ => (quorum_transparent quorum _ _ recalls).reworded _

theorem reports_follow (recalls : Recalls crypto domain validators fraction cached bare)
    (certificate : RoundChangeCertificate Hash Sig) (reports : List (RoundChange Hash Sig)) (seen : List Nat) (stake : Nat) :
    Follows (fun _ => False) (fun one two => one.1 = two.1 ∧ Recalls crypto domain validators fraction one.2 two.2)
      (verifyReports crypto domain validators certificate fraction seen stake cached reports)
      (verifyReports crypto domain validators certificate fraction seen stake bare reports) := by
  induction reports generalizing seen stake cached bare with
  | nil => exact .done ⟨rfl,recalls⟩
  | cons report rest ih =>
    refine .after _ fun _ _ => (report_transparent report _ _ recalls).bind fun _ _ kept => ?_
    exact .after _ fun _ _ => .after _ fun _ _ => ih kept _ _

theorem certificate_transparent (certificate : RoundChangeCertificate Hash Sig) : Transparent crypto domain validators
    fraction (verifyRoundChangeCertificateWith crypto domain validators certificate fraction) := by
  intro cached bare recalls
  refine .after _ fun _ _ => .after _ fun _ _ => (reports_follow recalls certificate _ _ _).bind ?_
  rintro ⟨stake,_⟩ ⟨_,_⟩ ⟨rfl,kept⟩
  exact .after _ fun _ _ => .done kept

section
variable {verified : List (QuorumCertificate Hash Sig)}

def Vouched (crypto : Crypto Hash Key Sig) (domain : ConsensusDomain Hash) (validators : List (Validator Hash Key)) (total : Option Nat)
    (fraction : Nat × Nat) (verified : List (QuorumCertificate Hash Sig)) : Prop :=
  ∀ quorum ∈ verified, verifyValueQuorumNative crypto domain validators total quorum fraction = .ok ()

theorem native_report_follows (report : RoundChange Hash Sig) (sound : Vouched crypto domain validators total fraction verified) :
    Follows (fun _ => False) (fun next _ => Vouched crypto domain validators total fraction next)
      (verifyRoundChangeNative crypto domain validators total report fraction verified)
      (verifyRoundChangeNative crypto domain validators total report fraction []) := by
  refine .after _ fun _ _ => .after _ fun _ _ => ?_
  cases report.highestQuorum with
  | none => exact .done sound
  | some quorum =>
    refine .after _ fun _ _ => ?_
    rw [if_neg List.not_mem_nil]
    split
    · rw [sound quorum ‹_›]
      exact .done sound
    · exact .after _ fun _ checked => .done (List.forall_mem_append.mpr ⟨sound,List.forall_mem_singleton.mpr checked⟩)

theorem native_reports_afresh (certificate : RoundChangeCertificate Hash Sig) (reports : List (RoundChange Hash Sig))
    (sound : Vouched crypto domain validators (some total) fraction verified) :
    verifyReportsNative crypto domain validators total certificate fraction seen verified stake reports =
      verifyReportsAfresh crypto domain validators total certificate fraction seen stake reports := by
  induction reports generalizing seen verified stake with
  | nil => rfl
  | cons report rest ih =>
    refine Follows.equal (.after _ fun _ _ => (native_report_follows report sound).bind fun _ _ kept => ?_)
    refine .after _ fun _ _ => .after _ fun _ _ => ?_
    rw [ih kept]
    cases verifyReportsAfresh crypto domain validators total certificate fraction _ _ rest with
    | error reason => exact .stop reason
    | ok stake => exact .done rfl

theorem saved_reports_afresh (pacemaker : Pacemaker Hash Sig) (fraction : Nat × Nat) :
    pacemaker.validateSavedReports crypto domain validators fraction = validateSavedReportsAfresh crypto domain validators pacemaker fraction := by
  refine Follows.equal (.after _ fun _ _ => Follows.drop (Follows.fold (Vouched crypto domain validators none fraction) ?_ pacemaker.reports ?_))
  swap
  · intro quorum listed
    cases listed
  intro verified round vouched
  refine .after _ fun _ _ => Follows.fold (Vouched crypto domain validators none fraction) ?_ round.2 vouched
  intro verified saved vouched
  exact Follows.forget (.after _ fun _ _ => native_report_follows saved.2 vouched) fun _ _ kept => kept

theorem native_unlock_follows (vote : FinalityVoteData Hash) (quorum : QuorumCertificate Hash Sig)
    (sound : ∀ quorum ∈ verified, verifyVoteSignature crypto domain validators quorum.vote = .ok ()) :
    Follows (fun _ => False) (fun next _ => ∀ quorum ∈ next, verifyVoteSignature crypto domain validators quorum.vote = .ok ())
      (verifyUnlockNative crypto domain validators total vote fraction verified quorum)
      (verifyUnlockNative crypto domain validators total vote fraction [] quorum) := by
  refine .after _ fun _ _ => .after _ fun _ _ => .after _ fun _ _ => ?_
  rw [if_neg List.not_mem_nil]
  split
  · rw [sound quorum ‹_›]
    exact .done sound
  · exact .after _ fun _ checked => .done (List.forall_mem_append.mpr ⟨sound,List.forall_mem_singleton.mpr checked⟩)

theorem native_attestations_afresh (vote : FinalityVote Hash Sig) (claims : List (VoteAttestation Hash Sig))
    (sound : ∀ quorum ∈ verified, verifyVoteSignature crypto domain validators quorum.vote = .ok ()) :
    verifyAttestationsFrom crypto domain validators total vote fraction seen verified claims =
      verifyAttestationsAfresh crypto domain validators total vote fraction seen claims := by
  induction claims generalizing seen verified with
  | nil => rfl
  | cons claim rest ih =>
    refine Follows.equal (.after _ fun _ _ => .after _ fun _ _ => .after _ fun _ _ => .after _ fun _ _ => ?_)
    have tail : ∀ next, (∀ quorum ∈ next, verifyVoteSignature crypto domain validators quorum.vote = .ok ()) → Follows (fun _ => False) Eq
          (verifyAttestationsFrom crypto domain validators total vote fraction (claim.validatorIndex::seen) next rest)
          (verifyAttestationsAfresh crypto domain validators total vote fraction (claim.validatorIndex::seen) rest) := by
      intro next kept
      rw [ih kept]
      cases verifyAttestationsAfresh crypto domain validators total vote fraction _ rest with
      | error reason => exact .stop reason
      | ok done => exact .done rfl
    cases claim.unlockQuorum with
    | none => exact tail verified sound
    | some quorum => exact (native_unlock_follows vote.data quorum sound).bind fun next _ kept => tail next kept
end

theorem certificate_afresh : verifyRoundCertificateNative crypto domain validators total certificate fraction =
    verifyRoundCertificateAfresh crypto domain validators total certificate fraction := by
  rw [verifyRoundCertificateNative,native_reports_afresh certificate _ fun _ listed => by cases listed]
  rfl

variable [LT Hash] [DecidableLT Hash]

theorem justification_transparent (proposal : BftProposal Hash Sig) :
    Transparent crypto domain validators fraction (verifyJustification crypto domain validators proposal fraction) := by
  intro cached bare recalls
  unfold verifyJustification
  split
  · exact .done recalls
  · exact .stop _
  · exact .stop _
  · refine .after _ fun _ _ => (certificate_transparent _ _ _ recalls).bind fun _ _ kept => ?_
    exact .after _ fun _ _ => .done kept

theorem proposal_transparent (root : Hash) (proposal : BftProposal Hash Sig) :
    Transparent crypto domain validators fraction (verifyProposalWith crypto domain validators root proposal fraction) := by
  intro cached bare recalls
  unfold verifyProposalWith
  refine .after _ fun _ _ => .after _ fun _ _ => .after _ fun _ _ =>
    (justification_transparent proposal _ _ recalls).bind fun _ _ kept => ?_
  unfold verifyValidQuorum
  cases proposal.validQuorum with
  | none => exact .done kept
  | some quorum => exact .after _ fun _ _ => (quorum_transparent quorum _ _ kept).reworded _

variable {params : ConsensusParams}

theorem claims_transparent (data : FinalityVoteData Hash) (claims : List (VoteAttestation Hash Sig)) : Transparent crypto
    domain validators params.prevoteFraction (verifyUnlockClaimsWith crypto domain validators data params · claims) := by
  induction claims with
  | nil => exact fun _ _ recalls => .done recalls
  | cons claim rest ih =>
    intro cached bare recalls
    dsimp only [verifyUnlockClaimsWith]
    cases claim.unlockQuorum with
    | none => exact ih _ _ recalls
    | some unlock =>
      exact (Follows.reworded (.after _ fun _ _ => quorum_transparent unlock _ _ recalls) _).bind ih

-- Everything that consults the shared cache, as one step of a verification.
inductive CacheUse (Hash Sig : Type) where
  | report (report : RoundChange Hash Sig)
  | certificate (certificate : RoundChangeCertificate Hash Sig)
  | proposal (root : Hash) (proposal : BftProposal Hash Sig)
  | claims (data : FinalityVoteData Hash) (claims : List (VoteAttestation Hash Sig))
  | phase (certificate : FinalityCert Hash Sig) (total : Nat) (phase : FinalityVotePhase) (fraction : Nat × Nat)
      (vote : AggregatedVote Sig) (claims : List (VoteAttestation Hash Sig))

section
variable (crypto : Crypto Hash Key Sig) (domain : ConsensusDomain Hash) (validators : List (Validator Hash Key)) (params : ConsensusParams)

def CacheUse.verify (use : CacheUse Hash Sig) (quorums : VerifiedQuorums Hash Sig) : Except FinalityError (VerifiedQuorums Hash Sig) :=
  match use with
  | .report change => verifyRoundChangeWith crypto domain validators change params.prevoteFraction quorums
  | .certificate changes =>
    verifyRoundChangeCertificateWith crypto domain validators changes params.prevoteFraction quorums
  | .proposal root proposed => verifyProposalWith crypto domain validators root proposed params.prevoteFraction quorums
  | .claims data attested => verifyUnlockClaimsWith crypto domain validators data params quorums attested
  | .phase finality total step fraction vote attested =>
    verifyFinalityPhase crypto domain params validators finality total step fraction vote attested quorums

def verifySharing : VerifiedQuorums Hash Sig → List (CacheUse Hash Sig) → List (Except FinalityError Unit)
  | _,[] => []
  | quorums,use::rest =>
    match use.verify crypto domain validators params quorums with
    | .ok next => .ok ()::verifySharing next rest
    | .error reason => .error reason::verifySharing quorums rest

def CacheUse.verifyAfresh (use : CacheUse Hash Sig) : Except FinalityError Unit :=
  (use.verify crypto domain validators params (.idle params.prevoteFraction)).map fun _ => ()

def verifyFinalityAfresh (root : Hash) (chunk : Chunk Hash) (certificate : FinalityCert Hash Sig) : Except FinalityError Unit := do
  ensure (certificate.chunkId = chunk.chunkId ∧ certificate.chunkHash = crypto.chunkHash chunk ∧
    certificate.activeValidatorSetRoot = root ∧ chunk.activeValidatorSetRoot = root ∧
    certificate.proposal.chunk = chunk ∧ certificate.proposal.round = certificate.round) .target
  (CacheUse.proposal root certificate.proposal).verifyAfresh crypto domain validators params
  let total ← required (activeStakeTotal validators) .membership
  (CacheUse.phase certificate total .prevote params.prevoteFraction certificate.prevote
    certificate.prevoteAttestations).verifyAfresh crypto domain validators params
  (CacheUse.phase certificate total .precommit params.precommitFraction certificate.precommit
    certificate.precommitAttestations).verifyAfresh crypto domain validators params
end

theorem use_transparent (use : CacheUse Hash Sig) :
    Transparent crypto domain validators params.prevoteFraction (use.verify crypto domain validators params) := by
  cases use with
  | report report => exact report_transparent report
  | certificate certificate => exact certificate_transparent certificate
  | proposal root proposal => exact proposal_transparent root proposal
  | claims data claims => exact claims_transparent data claims
  | phase certificate total phase fraction vote claims =>
    intro cached bare recalls
    refine .after _ fun _ _ => .after _ fun _ _ => (claims_transparent _ claims _ _ recalls).bind fun _ _ kept => ?_
    exact .after _ fun _ _ => .done kept

variable (params) {cached : VerifiedQuorums Hash Sig} (sound : cached.Sound crypto domain validators)
include sound

theorem use_afresh (use : CacheUse Hash Sig) : Follows (fun _ => False) (fun next _ => next.Sound crypto domain validators)
      (use.verify crypto domain validators params cached) (use.verifyAfresh crypto domain validators params) :=
  Follows.forget (use_transparent use _ _ ⟨sound,rfl⟩) fun _ _ recalls => recalls.1

theorem last_afresh (use : CacheUse Hash Sig) :
    Follows (fun _ => False) Eq (use.verify crypto domain validators params cached >>= fun _ => pure ())
      (use.verifyAfresh crypto domain validators params) := Follows.drop (use_afresh params sound use)

theorem sharing_afresh (uses : List (CacheUse Hash Sig)) : verifySharing crypto domain validators params cached uses =
      uses.map (·.verifyAfresh crypto domain validators params) := by
  induction uses generalizing cached with
  | nil => rfl
  | cons use rest ih =>
    rw [verifySharing,List.map_cons]
    obtain ⟨reason,ran,lacking | failed⟩ | ⟨one,two,ran,passed,kept⟩ := use_afresh params sound use
    · exact lacking.elim
    · rw [ran,failed]
      exact congrArg _ (ih sound)
    · rw [ran,passed]
      exact congrArg _ (ih kept)

omit sound

theorem empty_sound : VerifiedQuorums.Sound crypto domain validators ⟨fraction,[]⟩ := fun _ listed => by cases listed

theorem finality_afresh (root : Hash) (chunk : Chunk Hash) (certificate : FinalityCert Hash Sig) :
    verifyFinalityWithRoot crypto domain params validators root chunk certificate =
      verifyFinalityAfresh crypto domain validators params root chunk certificate := by
  refine Follows.equal (.after _ fun _ _ => ?_)
  refine (use_afresh params empty_sound (.proposal root certificate.proposal)).bind fun _ _ kept => .after _ fun total _ => ?_
  refine (use_afresh params kept (.phase certificate total .prevote ..)).bind fun _ _ kept => ?_
  exact last_afresh params kept (.phase certificate total .precommit ..)

theorem quorum_caching_transparent (crypto : Crypto Hash Key Sig) (domain : ConsensusDomain Hash)
    (validators : List (Validator Hash Key)) (params : ConsensusParams) :
    (∀ cached : VerifiedQuorums Hash Sig, cached.Sound crypto domain validators → ∀ uses,
      verifySharing crypto domain validators params cached uses = uses.map (·.verifyAfresh crypto domain validators params)) ∧
    (∀ quorum fraction, verifyQuorumWith crypto domain validators quorum fraction (.idle fraction) =
      (verifyQuorumUsing crypto domain validators quorum fraction).map fun _ => .idle fraction) ∧
    (∀ vote, verifyVoteUsing crypto domain validators vote params = (do
      verifyVoteSignaturesUsing crypto domain validators vote params
      (CacheUse.claims vote.data vote.attestations).verifyAfresh crypto domain validators params)) ∧
    (∀ root chunk certificate, verifyFinalityWithRoot crypto domain params validators root chunk certificate =
      verifyFinalityAfresh crypto domain validators params root chunk certificate) ∧
    (∀ vote unlock fraction, verifyUnlockUsing crypto domain validators vote unlock fraction = (do
      ensure (unlock.data.chunkId = vote.chunkId ∧ unlock.data.chunkHash = vote.chunkHash ∧
        unlockRoundAllowed vote unlock.data.round = true) .binding
      verifyQuorumUsing crypto domain validators unlock fraction)) ∧
    (∀ total certificate fraction, verifyRoundCertificateNative crypto domain validators total certificate fraction =
      verifyRoundCertificateAfresh crypto domain validators total certificate fraction) ∧
    (∀ (pacemaker : Pacemaker Hash Sig) fraction, pacemaker.validateSavedReports crypto domain validators fraction =
      validateSavedReportsAfresh crypto domain validators pacemaker fraction) ∧
    ∀ total vote fraction, verifyAttestations crypto domain validators total vote fraction =
      verifyAttestationsAfresh crypto domain validators total vote fraction [] vote.attestations := by
  refine ⟨fun cached sound uses => sharing_afresh params sound uses,fun quorum _ => verify_idle quorum,
    fun vote => Follows.equal (.after _ fun _ _ => last_afresh params empty_sound (.claims vote.data vote.attestations)),
    finality_afresh params,?_,?_,saved_reports_afresh,?_⟩
  · intro vote unlock fraction
    rw [verifyUnlockUsing,verifyUnlockWith,bind_assoc]
    congr 1
    funext _
    rw [verifyQuorumWith,if_neg (by simp)]
    cases verifyQuorumUsing crypto domain validators unlock fraction <;> rfl
  · exact fun total certificate fraction => certificate_afresh
  · exact fun total vote fraction => native_attestations_afresh vote _ fun _ listed => by cases listed

-- Three equal seats; a signature is the key and an aggregate the sum of its keys.
def summingCrypto : Crypto Nat Nat Nat where
  verify key _ signature := signature == key
  aggregate keys _ signature := keys.length != 0 && signature == keys.sum
  sign key _ := key
  chunkHash chunk := chunk.chunkId
  headerHash header := header.height
  commitment validators := validators.length
  leaderOffset _ _ _ := 0

def threeSeats : List (Validator Nat Nat) := [5,6,7].map fun key => ⟨key,0,1,false,0,1,0⟩
def sampleChunk : Chunk Nat := ⟨4,8,9,0,0,0,0,0,0,0,3,0,0⟩
def earlierQuorum : QuorumCertificate Nat Nat := ⟨⟨4,0,4,.prevote⟩,⟨⟨[true,true,false]⟩,11⟩⟩
def sampleEntry : RoundChangeCertificate Nat Nat := ⟨4,1,[⟨4,1,2,some earlierQuorum,7⟩,⟨4,1,0,some earlierQuorum,5⟩]⟩
def sampleProposal : BftProposal Nat Nat := ⟨sampleChunk,1,1,some earlierQuorum,some sampleEntry,6⟩

theorem recurring_quorum_transparent : verifySharing summingCrypto ⟨1,0⟩ threeSeats ⟨1,2,3,2,3⟩ ⟨(2,3),[earlierQuorum]⟩
      [.certificate sampleEntry,.report ⟨4,0,2,some earlierQuorum,7⟩,.proposal 3 sampleProposal] = [.ok (),.error .target,.ok ()] :=
  ((quorum_caching_transparent summingCrypto ⟨1,0⟩ threeSeats ⟨1,2,3,2,3⟩).1 ⟨(2,3),[earlierQuorum]⟩
    (by intro quorum listed; cases List.mem_singleton.mp listed; rfl) _).trans rfl
end Neutrino.Consensus
