import Neutrino.Consensus.Accumulation

-- Certificates a session finalizes are accepted by the guest.

namespace Neutrino.Consensus
open Checks GroupSignatures
variable {Hash Key Sig : Type} {crypto : Crypto Hash Key Sig} {sums : SignatureSums Sig} {total count : Nat} {fraction : Nat × Nat}
variable [DecidableEq Hash] [DecidableEq Sig] [LT Hash] [DecidableLT Hash]

structure Tracked (crypto : Crypto Hash Key Sig) (session : ChunkBft Hash Key Sig) : Prop where
  opened : session.Opened
  proposed : ∀ proposal, session.proposal = some proposal → (proposal.chunk = session.chunk ∧ proposal.round = session.round) ∧
    ProposalValid crypto session.domain session.activeSet session.totalStake session.prevoteQuorum proposal
  accumulated : ∀ phase, Accumulated crypto session phase (session.accumulator phase)

theorem Accumulated.moved (same : next.electorate = session.electorate) (chunk : next.chunk = session.chunk) (round : next.round = session.round)
    (held : Accumulated crypto session phase accumulator) : Accumulated crypto next phase accumulator := by
  simp only [ChunkBft.electorate,Prod.mk.injEq] at same
  obtain ⟨domains,sets,_,_,fractions,_⟩ := same
  refine ⟨held.own,held.empty,?_⟩
  rw [ChunkBft.target,ChunkBft.blockCount,domains,sets,fractions,chunk,round]
  exact held.filled

theorem Tracked.moved (tracked : Tracked crypto session) (same : next.electorate = session.electorate)
    (chunk : next.chunk = session.chunk) (round : next.round = session.round)
    (votes : ∀ phase, next.accumulator phase = session.accumulator phase) (proposed : ∀ proposal, next.proposal = some proposal →
      (proposal.chunk = session.chunk ∧ proposal.round = session.round) ∧
      ProposalValid crypto session.domain session.activeSet session.totalStake session.prevoteQuorum proposal) : Tracked crypto next := by
  refine ⟨ChunkBft.opened_electorate tracked.opened same,?_,fun phase => ?_⟩
  · simp only [ChunkBft.electorate,Prod.mk.injEq] at same
    obtain ⟨domains,sets,_,stakes,fractions,_⟩ := same
    rw [domains,sets,stakes,fractions,chunk,round]
    exact proposed
  · rw [votes]
    exact (tracked.accumulated phase).moved same chunk round

section
variable {K G : Type} [AddCommGroup K] [AddCommGroup G] {group : GroupSums (crypto.scheme sums) K G}

theorem vote_tracked (apart : NoCancellation group session.activeSet) (tracked : Tracked crypto session)
    (accepted : session.addVote crypto sums vote phase = .ok next) : Tracked crypto next := by
  obtain ⟨count,stake,recorded,spans,endorsed,marked,kept,rfl⟩ := vote_endorsed tracked.opened accepted
  have grown := record_accumulated apart (tracked.accumulated phase) spans endorsed marked kept
  have electorate : (session.withAccumulator phase recorded).electorate = session.electorate := by cases phase <;> rfl
  have chunk : (session.withAccumulator phase recorded).chunk = session.chunk := by cases phase <;> rfl
  have round : (session.withAccumulator phase recorded).round = session.round := by cases phase <;> rfl
  refine ⟨ChunkBft.opened_electorate tracked.opened electorate,?_,fun other => ?_⟩
  · cases phase <;> exact tracked.proposed
  · by_cases same : other = phase
    · subst same
      have own : (session.withAccumulator other recorded).accumulator other = recorded := by cases other <;> rfl
      rw [own]
      exact grown.moved electorate chunk round
    · have rest : (session.withAccumulator phase recorded).accumulator other = session.accumulator other := by
        cases phase <;> cases other <;> simp_all [ChunkBft.withAccumulator,ChunkBft.accumulator]
      rw [rest]
      exact (tracked.accumulated other).moved electorate chunk round

theorem step_tracked (apart : NoCancellation group session.activeSet) (tracked : Tracked crypto session)
    (taken : session.step crypto sums event = .ok next) : Tracked crypto next := by
  have electorate := ChunkBft.step_electorate crypto sums taken
  cases event with
  | proposal proposal =>
    obtain ⟨target,valid,_,rfl⟩ := (native_proposal tracked.opened).mp taken
    refine tracked.moved electorate rfl rfl (fun phase => by cases phase <;> rfl) fun other same => ?_
    cases same
    exact ⟨target,valid⟩
  | prevote vote | precommit vote => exact vote_tracked apart tracked taken
  | nilVote vote =>
    simp only [ChunkBft.step,ChunkBft.addNilVote,bind_ok,ensure_ok,pure_ok] at taken
    obtain ⟨_,_,_,_,merged,_,rfl⟩ := taken
    cases vote.data.phase <;>
      exact tracked.moved rfl rfl rfl (fun phase => by cases phase <;> rfl) tracked.proposed
  | candidate chunk newRound =>
    simp only [ChunkBft.step,ChunkBft.advanceToCandidate,bind_ok,ensure_ok,pure_ok] at taken
    obtain ⟨_,_,_,_,rfl⟩ := taken
    exact ⟨ChunkBft.opened_electorate tracked.opened electorate,by simp, fun phase => by cases phase <;> exact new_accumulated _ _⟩

theorem run_tracked (group : GroupSums (crypto.scheme sums) K G)
    (apart : NoCancellation group session.activeSet) (tracked : Tracked crypto session)
    (events : List (ChunkBft.Event Hash Sig)) : Tracked crypto (session.run crypto sums events) := by
  refine (ChunkBft.run_invariant crypto sums (fun later => Tracked crypto later ∧ later.activeSet = session.activeSet)
    ?_ ⟨tracked,rfl⟩ events).1
  rintro middle event next ⟨held,set⟩ taken
  have same := congrArg (·.2.1) (ChunkBft.step_electorate crypto sums taken)
  exact ⟨step_tracked (set ▸ apart) held taken,same.trans set⟩
end

theorem unlock_claims_accepted (unlocked : ∀ claim ∈ claims, ∀ quorum, claim.unlockQuorum = some quorum →
      (quorum.data.chunkId = data.chunkId ∧ quorum.data.chunkHash = data.chunkHash ∧ unlockRoundAllowed data quorum.data.round = true) ∧
      verifyQuorumUsing crypto domain validators quorum params.prevoteFraction = .ok ()) :
    verifyUnlockClaimsWith crypto domain validators data params (.idle params.prevoteFraction) claims =
      .ok (.idle params.prevoteFraction) := by
  induction claims with
  | nil => rfl
  | cons claim rest ih =>
    have looped := ih fun other listed => unlocked other (List.mem_cons_of_mem claim listed)
    cases declared : claim.unlockQuorum with
    | none =>
      simp only [verifyUnlockClaimsWith,declared,pure_bind]
      exact looped
    | some quorum =>
      obtain ⟨bound,verified⟩ := unlocked claim (by simp) quorum declared
      simp only [verifyUnlockClaimsWith,declared,verifyUnlockWith,verify_idle,verified,bind_ok,mapError_ok,ensure_ok]
      exact ⟨_,⟨(),bound,rfl⟩,looped⟩

theorem phase_accepted (summed : activeStakeTotal validators = some total) (valid : quorumFractionValid fraction.1 fraction.2 = true)
    (endorsed : Endorsed crypto domain validators params.prevoteFraction params.chunkSize (certificate.voteData phase)
      vote.aggregationBits vote.signature claims) (marked : bitmapStake validators vote.aggregationBits = .ok stake)
    (reached : quorumReached stake total fraction.1 fraction.2 = true) :
    (CacheUse.phase certificate total phase fraction vote claims).verifyAfresh crypto domain validators params = .ok () := by
  obtain ⟨_,whole,counted,_⟩ := (bitmap_stake_ok summed).mp marked
  obtain ⟨rfl,_,room⟩ := total_fits summed
  have bounded := signed_le_total counted
  simp only [CacheUse.verifyAfresh,CacheUse.verify,verifyFinalityPhase,verifyClaimSignaturesWith,verifyPhaseWith,map_ok,bind_ok,
    ensure_ok,required_ok,pure_ok]
  refine ⟨_,⟨(),endorsed.covered,(),each_ok.mpr fun claim listed => ?_,_,unlock_claims_accepted endorsed.unlocked,(),
    ⟨(),⟨valid,whole⟩,(_,stake),counted,(),by omega,(),reached,endorsed.joint⟩,rfl⟩,trivial⟩
  obtain ⟨validator,found,voted,claimed⟩ := endorsed.signed claim listed
  obtain ⟨vote,_⟩ := (coverage_ok.mp endorsed.covered).2.2.1 claim listed
  simp only [mapError_ok,verifyAttestationWith,bind_ok,ensure_ok,required_ok,true_and]
  exact ⟨(),vote,validator,found,(),voted,claimed⟩

theorem phase_filled (tracked : Tracked crypto session)
    (spans : session.chunk.endHeight + 1 = session.chunk.startHeight + size) (phase : FinalityVotePhase)
    (vote : AggregatedVote Sig) (held : (session.accumulator phase).aggregate = some vote) :
    Endorsed crypto session.domain session.activeSet session.prevoteQuorum size (session.target crypto phase)
      vote.aggregationBits vote.signature (session.accumulator phase).attestations ∧
    bitmapStake session.activeSet vote.aggregationBits = .ok (session.accumulator phase).aggregateStake := by
  obtain ⟨count,counted,endorsed,marked⟩ := (tracked.accumulated phase).filled vote held
  have exact : count = size := by
    unfold ChunkBft.blockCount at counted
    split at counted
    · cases counted
      omega
    · cases counted
  subst exact
  exact ⟨endorsed,marked⟩

structure Configured (crypto : Crypto Hash Key Sig) (params : ConsensusParams) (session : ChunkBft Hash Key Sig) : Prop where
  root : session.activeValidatorSetRoot = crypto.commitment session.activeSet
  prevote : session.prevoteQuorum = params.prevoteFraction
  precommit : session.precommitQuorum = params.precommitFraction

theorem tracked_verifies (tracked : Tracked crypto session) (configured : Configured crypto params session)
    (finalized : session.tryFinalize crypto chunkProofValid previousRoot = .ok (some certificate))
    (spans : session.chunk.endHeight + 1 = session.chunk.startHeight + params.chunkSize) :
    verifyFinalityWithRoot crypto session.domain params session.activeSet (crypto.commitment session.activeSet)
      session.chunk certificate = .ok () := by
  obtain ⟨root,prevoteFraction,precommitFraction⟩ := configured
  simp only [ChunkBft.tryFinalize,ChunkBft.finalizationStatus,bind_ok,ensure_ok,pure_ok] at finalized
  obtain ⟨status,⟨_,⟨named,_⟩,rfl⟩,built⟩ := finalized
  split at built
  · cases built
  rename_i complete
  simp only [bind_ok,required_ok,pure_ok,Option.some.injEq] at built
  obtain ⟨proposal,proposed,prevote,prevoted,precommit,precommitted,built⟩ := built
  split at complete
  swap
  · cases complete
  rename_i reached
  obtain ⟨_,_,first,second⟩ := reached
  have summed := tracked.opened.summed
  obtain ⟨⟨sameChunk,sameRound⟩,valid⟩ := tracked.proposed proposal proposed
  rw [prevoteFraction] at valid
  obtain ⟨quorums,read⟩ := (guest_proposal summed tracked.opened.short idle_sound (by rw [sameChunk,← named,root])).mpr valid
  obtain ⟨prevotes,stakes⟩ := phase_filled tracked spans .prevote prevote prevoted
  obtain ⟨precommits,stakes'⟩ := phase_filled tracked spans .precommit precommit precommitted
  rw [prevoteFraction] at prevotes precommits
  have data (phase : FinalityVotePhase) : certificate.voteData phase = session.target crypto phase := by
    rw [← built]
    rfl
  rw [← data .prevote] at prevotes
  rw [← data .precommit] at precommits
  have firstPhase := phase_accepted summed (prevoteFraction ▸ tracked.opened.prevote) prevotes stakes (prevoteFraction ▸ first)
  have secondPhase := phase_accepted summed (precommitFraction ▸ tracked.opened.precommit) precommits stakes' (precommitFraction ▸ second)
  subst built
  rw [finality_afresh]
  simp only [verifyFinalityAfresh,bind_ok,ensure_ok,required_ok]
  exact ⟨(),⟨trivial,trivial,root,named.symm.trans root,sameChunk,sameRound⟩,(),map_ok.mpr ⟨_,read,rfl⟩,_,summed,(),firstPhase, secondPhase⟩

theorem created_tracked (fresh : start.proposal = none)
    (prevotes : start.prevotes = .new .prevote) (precommits : start.precommits = .new .precommit)
    (opened : start.Opened) : Tracked crypto start := by
  refine ⟨opened,fun _ found => (nomatch fresh.symm.trans found),fun phase => ?_⟩
  cases phase with
  | prevote =>
    rw [ChunkBft.accumulator,prevotes]
    exact new_accumulated start .prevote
  | precommit =>
    rw [ChunkBft.accumulator,precommits]
    exact new_accumulated start .precommit

theorem finalized_certificates_verify (crypto : Crypto Hash Key Sig) (sums : SignatureSums Sig) {K G : Type}
    [AddCommGroup K] [AddCommGroup G] (group : GroupSums (crypto.scheme sums) K G) (domain : ConsensusDomain Hash)
    (validators : List (Validator Hash Key)) (apart : NoCancellation group validators) (params : ConsensusParams)
    (chunk : Chunk Hash) (round : Nat) (start : ChunkBft Hash Key Sig)
    (created : ChunkBft.withQuorum domain chunk round validators (crypto.commitment validators) params.prevoteFraction
      params.precommitFraction = .ok start)
    (events : List (ChunkBft.Event Hash Sig)) (chunkProofValid : Bool) (previousRoot : Hash) (certificate : FinalityCert Hash Sig)
    (finalized : (start.run crypto sums events).tryFinalize crypto chunkProofValid previousRoot = .ok (some certificate))
    (spans : (start.run crypto sums events).chunk.endHeight + 1 = (start.run crypto sums events).chunk.startHeight + params.chunkSize) :
    verifyFinalityWithRoot crypto domain params validators (crypto.commitment validators)
      (start.run crypto sums events).chunk certificate = .ok () := by
  obtain ⟨opened,fresh,prevotes,precommits,rfl,rfl,roots,fractions,commits⟩ := with_quorum_ok created
  have tracked := run_tracked group apart (created_tracked fresh prevotes precommits opened) events
  have kept := ChunkBft.run_electorate crypto sums start events
  generalize start.run crypto sums events = session at *
  simp only [ChunkBft.electorate,Prod.mk.injEq] at kept
  obtain ⟨domains,sets,roots',_,fractions',commits'⟩ := kept
  have configured : Configured crypto params session := ⟨by rw [roots',roots,sets],fractions'.trans fractions,commits'.trans commits⟩
  rw [← domains,← sets]
  exact tracked_verifies tracked configured finalized spans

-- A positive key signs with a multiple of itself, so sums never cancel.
def messageWeight : SigningMessage Nat Int → Int
  | .vote _ data => 2 + data.round
  | _ => 1

def integerCrypto : Crypto Nat Nat Int where
  verify key message signature := key != 0 && signature != 0 && signature == messageWeight message * key
  aggregate keys message signature :=
    keys.length != 0 && keys.all (· != 0) && signature != 0 && signature == messageWeight message * keys.sum
  sign key message := messageWeight message * key
  chunkHash chunk := chunk.chunkId
  headerHash header := header.height
  commitment validators := validators.length
  leaderOffset _ _ _ := 0

def integerSums : SignatureSums Int := ⟨(· != 0),List.sum⟩

theorem weight_positive (message : SigningMessage Nat Int) : 0 < messageWeight message := by
  unfold messageWeight
  split <;> omega

def naturalKey (key : Nat) : Option Int := if key = 0 then none else some key
def nonzeroPoint (signature : Int) : Option Int := if signature = 0 then none else some signature

theorem natural_keys_sum : sumPoints naturalKey keys = some place ↔ keys.all (· != 0) = true ∧ place = keys.sum := by
  induction keys generalizing place with
  | nil => simp [sumPoints,eq_comm]
  | cons key rest ih =>
    rw [sumPoints_cons]
    simp only [ih,naturalKey,List.all_cons,List.sum_cons,Bool.and_eq_true,bne_iff_ne]
    constructor
    · rintro ⟨point,others,found,⟨all,rfl⟩,rfl⟩
      split at found <;> simp_all
    · rintro ⟨⟨positive,all⟩,rfl⟩
      exact ⟨key,_,if_neg positive,⟨all,rfl⟩,by push_cast; rfl⟩

theorem nonzero_points_sum (summed : sumPoints nonzeroPoint signatures = some total') : signatures.sum = total' := by
  induction signatures generalizing total' with
  | nil => simpa [sumPoints] using summed
  | cons signature rest ih =>
    obtain ⟨point,others,found,later,rfl⟩ := sumPoints_cons.mp summed
    unfold nonzeroPoint at found
    split at found
    · cases found
    · cases found
      rw [List.sum_cons,ih later]

def integerGroup : GroupSums (integerCrypto.scheme integerSums) Int Int where
  key := naturalKey
  point := nonzeroPoint
  encode := id
  share message := AddMonoidHom.mulLeft (messageWeight message)
  verify_iff := by
    intro signer message signature
    simp only [Crypto.scheme,integerCrypto,naturalKey,nonzeroPoint,Bool.and_eq_true,bne_iff_ne,beq_iff_eq, AddMonoidHom.coe_mulLeft]
    constructor
    · rintro ⟨⟨positive,nonzero⟩,rfl⟩
      exact ⟨signer,if_neg positive,if_neg nonzero⟩
    · rintro ⟨place,found,held⟩
      split at found <;> split at held <;> simp_all
  aggregate_iff := by
    intro signers message signature
    simp only [Crypto.scheme,integerCrypto,natural_keys_sum,nonzeroPoint,Bool.and_eq_true,bne_iff_ne,beq_iff_eq,
      AddMonoidHom.coe_mulLeft,ne_eq,List.length_eq_zero_iff]
    constructor
    · rintro ⟨⟨⟨nonempty,all⟩,nonzero⟩,rfl⟩
      refine ⟨nonempty,_,⟨all,rfl⟩,fun zero => nonzero (by rw [zero,mul_zero]),if_neg nonzero⟩
    · rintro ⟨nonempty,_,⟨all,rfl⟩,positive,held⟩
      split at held <;> simp_all
  decodes_iff := by
    intro signature
    simp only [Crypto.scheme,integerSums,nonzeroPoint]
    split <;> simp_all
  sum_eq := by
    intro signatures total summed
    exact nonzero_points_sum summed
  point_encode := by
    intro total nonzero
    exact if_neg nonzero
  share_zero := by
    intro message place zero
    exact (mul_eq_zero.mp zero).resolve_left (weight_positive message).ne'

theorem integer_keys_apart (validators : List (Validator Nat Nat)) : NoCancellation integerGroup validators := by
  rintro seats _ nonempty place summed rfl
  obtain ⟨all,zero⟩ := natural_keys_sum.mp summed
  obtain ⟨first,rest,rfl⟩ := List.exists_cons_of_ne_nil nonempty
  simp only [List.map_cons,List.all_cons,Bool.and_eq_true,bne_iff_ne,List.sum_cons] at all zero
  omega

def integerSeats : List (Validator Nat Nat) := [5,6,7].map fun key => ⟨key,0,1,false,0,1,0⟩
def integerChunk : Chunk Nat := ⟨4,8,9,0,0,0,0,0,0,0,3,0,0⟩

def integerClaim (index key : Nat) (phase : FinalityVotePhase) (proofHashes : List Nat) : VoteAttestation Nat Int :=
  ⟨2 * key,index,⟨4,0,4,phase⟩,proofHashes,none,key⟩

def integerEvents : List (ChunkBft.Event Nat Int) := [.proposal ⟨integerChunk,0,0,none,none,5⟩,
    .prevote ⟨⟨[true,true,false]⟩,⟨4,0,4,.prevote⟩,22,[integerClaim 0 5 .prevote [],integerClaim 1 6 .prevote []]⟩,
    .prevote ⟨⟨[false,true,true]⟩,⟨4,0,4,.prevote⟩,26,[integerClaim 2 7 .prevote [],integerClaim 1 6 .prevote []]⟩,
    .precommit ⟨⟨[true,true,false]⟩,⟨4,0,4,.precommit⟩,22, [integerClaim 0 5 .precommit [1,2],integerClaim 1 6 .precommit [1,2]]⟩,
    .precommit ⟨⟨[false,false,true]⟩,⟨4,0,4,.precommit⟩,14,[integerClaim 2 7 .precommit [1,2]]⟩]

def integerStart : ChunkBft Nat Nat Int :=
  ⟨⟨1,0⟩,integerChunk,0,integerSeats,3,3,(2,3),(2,3),.new .prevote,.new .precommit,none,none,none⟩

def integerCertificate : FinalityCert Nat Int :=
  ⟨⟨integerChunk,0,0,none,none,5⟩, [integerClaim 0 5 .prevote [],integerClaim 1 6 .prevote [],integerClaim 2 7 .prevote []],
    [integerClaim 0 5 .precommit [1,2],integerClaim 1 6 .precommit [1,2],integerClaim 2 7 .precommit [1,2]],
    4,0,4,⟨⟨[true,true,true]⟩,36⟩,⟨⟨[true,true,true]⟩,36⟩,3⟩

theorem integer_certificate_verifies : verifyFinalityWithRoot integerCrypto ⟨1,0⟩ ⟨2,2,3,2,3⟩ integerSeats
    (integerCrypto.commitment integerSeats) (integerStart.run integerCrypto integerSums integerEvents).chunk integerCertificate = .ok () :=
  finalized_certificates_verify integerCrypto integerSums integerGroup ⟨1,0⟩ integerSeats
    (integer_keys_apart integerSeats) ⟨2,2,3,2,3⟩ integerChunk 0 integerStart (by decide +kernel) integerEvents true 3
    integerCertificate (by decide +kernel) (by decide +kernel)
end Neutrino.Consensus
