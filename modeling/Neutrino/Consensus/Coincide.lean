import Neutrino.Consensus.Caching
import Neutrino.Consensus.Stake

-- The native session and the guest accept the same messages: both are compared with
-- each rule told once, free of order and caches.

namespace Neutrino.Consensus
open Checks
variable {Hash Key Sig : Type}

-- The source counts the bits of a bitmap in a u32.
def BitVec.fits (bits : BitVec) : Prop := bits.bitLen < 2^32

def RoundChangeCertificate.fits (certificate : RoundChangeCertificate Hash Sig) : Prop :=
  ∀ report ∈ certificate.reports, ∀ quorum, report.highestQuorum = some quorum → quorum.aggregate.aggregationBits.fits

-- A bitmap does not mark every seat of a set that a u32 cannot count: true of every
-- bitmap that fits and of every set a session opens with.
def QuorumCertificate.Narrow (validators : List (Validator Hash Key)) (quorum : QuorumCertificate Hash Sig) : Prop :=
  quorum.aggregate.aggregationBits.bitLen = validators.length → validators.length < 2^32

variable {quorum : QuorumCertificate Hash Sig}

theorem narrow_fits (fits : quorum.aggregate.aggregationBits.fits) : quorum.Narrow validators := fun same => same ▸ fits
theorem narrow_short (short : validators.length < 2^32) : quorum.Narrow validators := fun _ => short

section
variable {crypto : Crypto Hash Key Sig} {total : Nat} {fraction : Nat × Nat}

theorem reached_positive (positive : 0 < total) (valid : quorumFractionValid fraction.1 fraction.2 = true)
    (reached : quorumReached stake total fraction.1 fraction.2 = true) : stake ≠ 0 := by
  rintro rfl
  simp only [quorumFractionValid,Bool.and_eq_true,bne_iff_ne] at valid
  simp only [quorumReached,decide_eq_true_eq,Nat.zero_mul,Nat.le_zero_eq] at reached
  exact valid.1.1.1 ((Nat.mul_eq_zero.mp reached).resolve_left (by omega))

theorem value_quorum_coincide (summed : activeStakeTotal validators = some total)
    (narrow : quorum.Narrow validators) : verifyValueQuorumNative crypto domain validators (some total) quorum fraction = .ok () ↔
      verifyQuorumUsing crypto domain validators quorum fraction = .ok () := by
  obtain ⟨whole,positive,room⟩ := total_fits summed
  simp only [verifyValueQuorumNative,verifyQuorumUsing,validateQuorum,verifyVoteSignature,bind_ok,ensure_ok,pure_ok,
    required_ok,bitmap_stake_ok summed,summed,Option.some.injEq]
  constructor
  · rintro ⟨_,valid,_,phase,stake,⟨_,len,counted,_⟩,_,rfl,_,reached,signed⟩
    have bounded := signed_le_total counted
    exact ⟨(),⟨phase,valid,len⟩,_,counted,(),by omega,_,rfl,(),reached,signed⟩
  · rintro ⟨_,⟨phase,valid,len⟩,⟨keys,stake⟩,counted,_,_,_,rfl,_,reached,signed⟩
    cases signers_keys counted
    exact ⟨(),valid,(),phase,stake,⟨narrow len,len,counted,reached_positive positive valid reached⟩,_,rfl,(),reached,signed⟩

variable [DecidableEq Hash] [DecidableEq Sig]

theorem guest_quorum (sound : quorums.Sound crypto domain validators) :
    (∃ next, verifyQuorumWith crypto domain validators quorum fraction quorums = .ok next) ↔
      verifyQuorumUsing crypto domain validators quorum fraction = .ok () := by
  rw [(quorum_transparent quorum).accepts sound,verify_idle,map_ok]
  exact ⟨fun ⟨_,verified,_⟩ => verified,fun verified => ⟨(),verified,rfl⟩⟩

structure ReportValid (crypto : Crypto Hash Key Sig) (domain : ConsensusDomain Hash)
    (validators : List (Validator Hash Key)) (fraction : Nat × Nat) (report : RoundChange Hash Sig) : Prop where
  later : report.round ≠ 0
  signed : ∃ validator, validators[report.validatorIndex]? = some validator ∧ isActive validator = true ∧
    crypto.verify validator.pubkey (report.signingMessage domain) report.signature = true
  carried : ∀ quorum, report.highestQuorum = some quorum → (quorum.data.chunkId = report.chunkId ∧ quorum.data.round < report.round) ∧
      verifyQuorumUsing crypto domain validators quorum fraction = .ok ()

theorem guest_report : verifyRoundChangeWith crypto domain validators report fraction (.idle fraction) = .ok (.idle fraction) ↔
    ReportValid crypto domain validators fraction report := by
  simp only [verifyRoundChangeWith,bind_ok,required_ok,ensure_ok,Option.filter_eq_some_iff]
  cases quorum : report.highestQuorum with
  | none =>
    constructor
    · rintro ⟨validator,⟨found,active⟩,_,later,_,signed,_⟩
      exact ⟨later,⟨validator,found,active,signed⟩,fun _ some => by simp [quorum] at some⟩
    · rintro ⟨later,⟨validator,found,active,signed⟩,-⟩
      exact ⟨validator,⟨found,active⟩,(),later,(),signed,rfl⟩
  | some carried =>
    simp only [bind_ok,ensure_ok,mapError_ok,verify_idle,map_ok,and_true]
    constructor
    · rintro ⟨validator,⟨found,active⟩,_,later,_,signed,_,bound,_,verified⟩
      refine ⟨later,⟨validator,found,active,signed⟩,fun other same => ?_⟩
      cases quorum.symm.trans same
      exact ⟨bound,verified⟩
    · rintro ⟨later,⟨validator,found,active,signed⟩,carries⟩
      obtain ⟨bound,verified⟩ := carries carried quorum
      exact ⟨validator,⟨found,active⟩,(),later,(),signed,(),bound,(),verified⟩

theorem native_report (crypto : Crypto Hash Key Sig) (domain : ConsensusDomain Hash) (fraction : Nat × Nat)
    (summed : activeStakeTotal validators = some total) (narrow : ∀ quorum, report.highestQuorum = some quorum → quorum.Narrow validators) :
    (∃ next, verifyRoundChangeNative crypto domain validators (some total) report fraction [] = .ok next) ↔
      ReportValid crypto domain validators fraction report := by
  simp only [verifyRoundChangeNative,verifyIndividualNative,activeSigner,bind_ok,required_ok,ensure_ok, Option.filter_eq_some_iff]
  cases quorum : report.highestQuorum with
  | none =>
    constructor
    · rintro ⟨_,_,later,_,⟨validator,⟨found,active⟩,signed⟩,_⟩
      exact ⟨later,⟨validator,found,active,signed⟩,fun _ some => by simp [quorum] at some⟩
    · rintro ⟨later,⟨validator,found,active,signed⟩,-⟩
      exact ⟨[],(),later,(),⟨validator,⟨found,active⟩,signed⟩,rfl⟩
  | some carried =>
    simp only [bind_ok,ensure_ok,List.not_mem_nil,if_false,pure_ok,value_quorum_coincide summed (narrow carried quorum)]
    constructor
    · rintro ⟨_,_,later,_,⟨validator,⟨found,active⟩,signed⟩,_,bound,_,verified,_⟩
      refine ⟨later,⟨validator,found,active,signed⟩,fun other same => ?_⟩
      cases quorum.symm.trans same
      exact ⟨bound,verified⟩
    · rintro ⟨later,⟨validator,found,active,signed⟩,carries⟩
      obtain ⟨bound,verified⟩ := carries carried quorum
      exact ⟨_,(),later,(),⟨validator,⟨found,active⟩,signed⟩,(),bound,(),verified,rfl⟩

theorem reports_coincide (summed : activeStakeTotal validators = some total)
    (narrow : ∀ report ∈ reports, ∀ quorum, report.highestQuorum = some quorum → quorum.Narrow validators) :
    verifyReportsAfresh crypto domain validators total certificate fraction seen stake reports = .ok result ↔
      ∃ next, verifyReports crypto domain validators certificate fraction seen stake (.idle fraction) reports = .ok (result,next) := by
  induction reports generalizing seen stake with
  | nil =>
    simp only [verifyReportsAfresh,verifyReports,Except.ok.injEq,Prod.mk.injEq]
    exact ⟨fun same => ⟨_,same,rfl⟩,fun ⟨_,same,_⟩ => same⟩
  | cons report rest ih =>
    have native := native_report crypto domain fraction summed (narrow report (by simp))
    have others := fun report listed => narrow report (List.mem_cons_of_mem _ listed)
    simp only [verifyReportsAfresh,verifyReports,bind_ok,ensure_ok,required_ok]
    constructor
    · rintro ⟨_,target,_,accepted,validator,found,_,room,looped⟩
      obtain ⟨next,finished⟩ := (ih others).mp looped
      exact ⟨next,(),target,_,guest_report.mpr (native.mp ⟨_,accepted⟩),validator,found,(),room,finished⟩
    · rintro ⟨next,_,target,middle,passed,validator,found,_,room,finished⟩
      obtain rfl := (report_transparent report).idle passed
      obtain ⟨_,accepted⟩ := native.mpr (guest_report.mp passed)
      exact ⟨(),target,_,accepted,validator,found,(),room,(ih others).mpr ⟨next,finished⟩⟩

theorem reports_seated (once : seen.Nodup) (seated : ∀ index ∈ seen, index < validators.length)
    (accepted : verifyReports crypto domain validators certificate fraction seen stake quorums reports = .ok (result,next)) :
    seen.length + reports.length ≤ validators.length := by
  induction reports generalizing seen stake quorums with
  | nil =>
    have inside : seen ⊆ List.range validators.length := fun index listed => List.mem_range.mpr (seated index listed)
    simpa using (once.subperm inside).length_le
  | cons report rest ih =>
    simp only [verifyReports,bind_ok,ensure_ok,required_ok] at accepted
    obtain ⟨_,⟨_,_,fresh⟩,_,_,_,found,_,_,looped⟩ := accepted
    have grown := ih (List.nodup_cons.mpr ⟨fresh,once⟩) 
      (List.forall_mem_cons.mpr ⟨(List.getElem?_eq_some_iff.mp found).1,seated⟩) looped
    simp only [List.length_cons] at grown ⊢
    omega

theorem certificate_coincide (summed : activeStakeTotal validators = some total)
    (narrow : ∀ report ∈ certificate.reports, ∀ quorum, report.highestQuorum = some quorum → quorum.Narrow validators)
    (guest : quorums.Sound crypto domain validators) :
    verifyRoundCertificateNative crypto domain validators total certificate fraction = .ok () ↔
      ∃ next, verifyRoundChangeCertificateWith crypto domain validators certificate fraction quorums = .ok next := by
  rw [(certificate_transparent certificate).accepts guest, ← (certificate_transparent certificate).accepts idle_sound,certificate_afresh]
  simp only [verifyRoundCertificateAfresh,verifyRoundChangeCertificateWith,validateQuorum,bind_ok,ensure_ok,required_ok,
    pure_ok,reports_coincide summed narrow,summed,Option.some.injEq]
  constructor
  · rintro ⟨_,valid,stake,⟨next,looped⟩,reached⟩
    have seated := reports_seated List.nodup_nil (by simp) looped
    refine ⟨next,(),⟨?_,by simpa using seated,valid⟩,total,rfl,(stake,next),looped,(),reached,rfl⟩
    intro none
    simp only [none,verifyReports,Except.ok.injEq,Prod.mk.injEq] at looped
    exact reached_positive (total_fits summed).2.1 valid reached looped.1.symm
  · rintro ⟨next,_,⟨_,_,valid⟩,_,rfl,⟨stake,_⟩,looped,_,reached,rfl⟩
    exact ⟨(),valid,stake,⟨_,looped⟩,reached⟩
end
section
variable {crypto : Crypto Hash Key Sig} {total : Nat}

theorem nil_claims_coincide (counted : signers validators vote.aggregationBits = some (marked,stake)) :
    verifyNilNativeClaims crypto domain validators vote seen keys claims = .ok (result,collected) ↔
      verifyNilClaims crypto domain validators vote seen claims = .ok result ∧
        collected = keys++(claims.map (·.validatorIndex)).filterMap (keyAt validators) := by
  induction claims generalizing seen keys with
  | nil => simp [verifyNilNativeClaims,verifyNilClaims,eq_comm]
  | cons claim rest ih =>
    simp only [verifyNilNativeClaims,verifyNilClaims,activeSigner,bind_ok,ensure_ok,required_ok, Option.filter_eq_some_iff,ih]
    constructor
    · rintro ⟨_,once,validator,⟨found,_⟩,_,voted,_,claimed,looped,rfl⟩
      exact ⟨⟨(),once,validator,found,(),⟨voted,claimed⟩,looped⟩,by simp [keyAt,found]⟩
    · rintro ⟨⟨_,once,validator,found,_,⟨voted,claimed⟩,looped⟩,rfl⟩
      have active := ((signers_from_ok counted).1 (validator,_) (List.mem_zipIdx_iff_getElem?.mpr found) once.2.2).1
      exact ⟨(),once,validator,⟨found,active⟩,(),voted,(),claimed,looped, by simp [keyAt,found]⟩

theorem nil_claims_seen (once : seen.Nodup) (set : ∀ index ∈ seen, index ∈ vote.aggregationBits.marked)
    (accepted : verifyNilClaims crypto domain validators vote seen claims = .ok result) :
    result = (claims.map (·.validatorIndex)).reverse++seen ∧ result.Nodup ∧ ∀ index ∈ result, index ∈ vote.aggregationBits.marked := by
  induction claims generalizing seen with
  | nil =>
    cases accepted
    exact ⟨rfl,once,set⟩
  | cons claim rest ih =>
    simp only [verifyNilClaims,bind_ok,ensure_ok,required_ok] at accepted
    obtain ⟨_,⟨_,fresh,marked⟩,_,_,_,_,looped⟩ := accepted
    obtain ⟨same,nodup,inside⟩ := ih (List.nodup_cons.mpr ⟨fresh,once⟩)
      (List.forall_mem_cons.mpr ⟨mem_marked.mpr marked,set⟩) looped
    exact ⟨by simp [same],nodup,inside⟩

theorem nil_keys_perm (whole : vote.aggregationBits.bitLen = validators.length)
    (accepted : verifyNilClaims crypto domain validators vote [] vote.attestations = .ok seen)
    (covered : seen.length = vote.aggregationBits.marked.length) :
    ((vote.attestations.map (·.validatorIndex)).filterMap (keyAt validators)).Perm (markedKeys validators vote.aggregationBits) := by
  obtain ⟨rfl,once,inside⟩ := nil_claims_seen List.nodup_nil (by simp) accepted
  rw [List.append_nil] at once inside covered
  have same := (once.subperm inside).perm_of_length_le covered.ge
  rw [marked_keys_indexed whole]
  exact ((List.reverse_perm _).symm.trans same).filterMap _

theorem nil_coincide (summed : activeStakeTotal validators = some total) (fits : vote.aggregationBits.fits)
    (unordered : ∀ one two message signature, List.Perm one two →
      crypto.aggregate one message signature = crypto.aggregate two message signature) :
    verifyNilNative crypto domain validators vote = .ok () ↔ verifyNilVoteUsing crypto domain validators vote = .ok () := by
  have number (whole : vote.aggregationBits.bitLen = validators.length) :
      (markedKeys validators vote.aggregationBits).length = vote.aggregationBits.marked.length := by
    rw [marked_seats whole,markedKeys,List.length_map,List.length_map]
  simp only [verifyNilNative,verifyNilVoteUsing,bind_ok,ensure_ok,required_ok,bitmap_stake_ok summed,Prod.exists]
  constructor
  · rintro ⟨stake,⟨short,whole,counted,positive⟩,seen,keys,read,_,covered,signed⟩
    obtain ⟨accepted,rfl⟩ := (nil_claims_coincide counted).mp read
    have perm := nil_keys_perm whole accepted covered
    refine ⟨(),whole,_,stake,counted,seen,accepted,(),⟨?_,covered.trans (number whole).symm⟩,?_⟩
    · cases empty : (markedKeys validators vote.aggregationBits).isEmpty
      · rfl
      · exact absurd ((signers_from_empty counted).mp empty) positive
    · rwa [← unordered _ _ _ _ perm]
  · rintro ⟨_,whole,keys,stake,counted,seen,accepted,_,⟨nonempty,covered⟩,signed⟩
    cases signers_keys counted
    have full : seen.length = vote.aggregationBits.marked.length := covered.trans (number whole)
    refine ⟨stake,⟨whole ▸ fits,whole,counted,?_⟩,seen,_,(nil_claims_coincide counted).mpr ⟨accepted,rfl⟩,(),full,?_⟩
    · intro broke
      rw [(signers_from_empty counted).mpr broke] at nonempty
      cases nonempty
    · rw [List.nil_append,unordered _ _ _ _ (nil_keys_perm whole accepted full)]
      exact signed
end
section
variable {total : Nat} {fraction : Nat × Nat} [DecidableEq Hash] [DecidableEq Sig] [LT Hash] [DecidableLT Hash]

section
variable (crypto : Crypto Hash Key Sig) (domain : ConsensusDomain Hash) (validators : List (Validator Hash Key))

-- After the first round a certificate's highest quorum binds the proposal's own.
def EntryValid (total : Nat) (fraction : Nat × Nat) (proposal : BftProposal Hash Sig) : Prop :=
  (proposal.round = 0 ↔ proposal.roundChangeCertificate = none) ∧ ∀ certificate, proposal.roundChangeCertificate = some certificate →
      (certificate.chunkId = proposal.chunk.chunkId ∧ certificate.round = proposal.round) ∧
        verifyRoundCertificateNative crypto domain validators total certificate fraction = .ok () ∧
        certificate.highestQuorum.all (carriesHighest proposal) = true

def CarriedValid (fraction : Nat × Nat) (proposal : BftProposal Hash Sig) : Prop := ∀ quorum, proposal.validQuorum = some quorum →
    (quorum.data.chunkId = proposal.chunk.chunkId ∧ quorum.data.chunkHash = crypto.chunkHash proposal.chunk ∧
      quorum.data.round < proposal.round) ∧ verifyQuorumUsing crypto domain validators quorum fraction = .ok ()
end

structure ProposalValid (crypto : Crypto Hash Key Sig) (domain : ConsensusDomain Hash)
    (validators : List (Validator Hash Key)) (total : Nat) (fraction : Nat × Nat) (proposal : BftProposal Hash Sig) : Prop where
  leader : bftLeaderWithRoot crypto domain.chainId proposal.chunk.chunkId proposal.round validators
    (crypto.commitment validators) = some proposal.proposerIndex
  signed : ∃ validator, validators[proposal.proposerIndex]? = some validator ∧
    crypto.verify validator.pubkey (proposal.signingMessage domain) proposal.signature = true
  entered : EntryValid crypto domain validators total fraction proposal
  carried : CarriedValid crypto domain validators fraction proposal

variable {quorums : VerifiedQuorums Hash Sig}

theorem guest_entry (summed : activeStakeTotal validators = some total) (short : validators.length < 2^32)
    (sound : quorums.Sound crypto domain validators) : (∃ next, verifyJustification crypto domain validators proposal fraction quorums = .ok next) ↔
      EntryValid crypto domain validators total fraction proposal := by
  unfold verifyJustification EntryValid
  cases round : proposal.round <;> cases given : proposal.roundChangeCertificate
  · simp
  · simp
  · simp
  · rename_i round certificate
    have agreed : verifyRoundCertificateNative crypto domain validators total certificate fraction = .ok () ↔ _ :=
      certificate_coincide summed (fun _ _ _ _ => narrow_short short) sound
    simp only [bind_ok,ensure_ok,pure_ok,Option.some.injEq,forall_eq',agreed]
    constructor
    · rintro ⟨_,_,target,next,verified,_,highest,rfl⟩
      exact ⟨by simp,target,⟨_,verified⟩,highest⟩
    · rintro ⟨_,target,⟨next,verified⟩,highest⟩
      exact ⟨next,(),target,next,verified,(),highest,rfl⟩

theorem guest_carried (sound : quorums.Sound crypto domain validators) :
    (∃ next, verifyValidQuorum crypto domain validators proposal fraction quorums = .ok next) ↔
      CarriedValid crypto domain validators fraction proposal := by
  unfold verifyValidQuorum CarriedValid
  cases given : proposal.validQuorum with
  | none => simp
  | some quorum =>
    simp only [bind_ok,ensure_ok,mapError_ok,Option.some.injEq,forall_eq',← guest_quorum sound]
    constructor
    · rintro ⟨next,_,bound,verified⟩
      exact ⟨bound,next,verified⟩
    · rintro ⟨bound,next,verified⟩
      exact ⟨next,(),bound,verified⟩

theorem guest_proposal (summed : activeStakeTotal validators = some total) (short : validators.length < 2^32)
    (sound : quorums.Sound crypto domain validators) (named : proposal.chunk.activeValidatorSetRoot = crypto.commitment validators) :
    (∃ next, verifyProposalWith crypto domain validators (crypto.commitment validators) proposal fraction quorums = .ok next) ↔
      ProposalValid crypto domain validators total fraction proposal := by
  simp only [verifyProposalWith,bind_ok,ensure_ok,required_ok]
  constructor
  · rintro ⟨next,_,⟨leader,_⟩,validator,found,_,signed,middle,entered,carried⟩
    exact ⟨leader,⟨validator,found,signed⟩,(guest_entry summed short sound).mp ⟨middle,entered⟩,
      (guest_carried ((justification_transparent proposal).kept sound entered)).mp ⟨next,carried⟩⟩
  · rintro ⟨leader,⟨validator,found,signed⟩,entered,carried⟩
    obtain ⟨middle,entry⟩ := (guest_entry summed short sound).mpr entered
    obtain ⟨next,carry⟩ := (guest_carried ((justification_transparent proposal).kept sound entry)).mpr carried
    exact ⟨next,(),⟨leader,named⟩,validator,found,(),signed,middle,entry,carry⟩

-- What opening a session checks; the electorate never changes afterwards.
structure ChunkBft.Opened (session : ChunkBft Hash Key Sig) : Prop where
  summed : activeStakeTotal session.activeSet = some session.totalStake
  short : session.activeSet.length < 2^32
  prevote : quorumFractionValid session.prevoteQuorum.1 session.prevoteQuorum.2 = true
  precommit : quorumFractionValid session.precommitQuorum.1 session.precommitQuorum.2 = true

variable {session : ChunkBft Hash Key Sig}

theorem ChunkBft.opened_electorate {next : ChunkBft Hash Key Sig} (opened : session.Opened)
    (same : next.electorate = session.electorate) : next.Opened := by
  simp only [ChunkBft.electorate,Prod.mk.injEq] at same
  obtain ⟨_,set,_,stake,prevote,precommit⟩ := same
  exact ⟨by rw [set,stake]; exact opened.summed,by rw [set]; exact opened.short,by rw [prevote]; exact opened.prevote,
    by rw [precommit]; exact opened.precommit⟩

theorem with_quorum_ok {round : Nat} (opened : ChunkBft.withQuorum domain chunk round validators root fraction precommit = .ok start) :
    start.Opened ∧ start.proposal = none ∧ start.prevotes = .new .prevote ∧ start.precommits = .new .precommit ∧
      start.domain = domain ∧ start.activeSet = validators ∧ start.activeValidatorSetRoot = root ∧
      start.prevoteQuorum = fraction ∧ start.precommitQuorum = precommit := by
  simp only [ChunkBft.withQuorum,validateQuorum,bind_ok,ensure_ok,pure_ok,total_active_stake_ok] at opened
  obtain ⟨_,prevote,_,commits,_,short,total,summed,rfl⟩ := opened
  exact ⟨⟨summed,short,prevote,commits⟩,rfl,rfl,rfl,rfl,rfl,rfl,rfl,rfl⟩

theorem native_entry (chunk : proposal.chunk = session.chunk) (round : proposal.round = session.round) :
    session.verifyEntry crypto proposal = .ok () ↔
      EntryValid crypto session.domain session.activeSet session.totalStake session.prevoteQuorum proposal := by
  unfold ChunkBft.verifyEntry EntryValid
  rw [chunk,← round]
  cases proposal.round <;> cases given : proposal.roundChangeCertificate
  · simp
  · simp
  · simp
  · simp only [bind_ok,ensure_ok,Option.some.injEq,forall_eq']
    constructor
    · rintro ⟨_,target,_,verified,highest⟩
      exact ⟨by simp,target,verified,highest⟩
    · rintro ⟨_,target,verified,highest⟩
      exact ⟨(),target,(),verified,highest⟩

theorem native_carried (opened : session.Opened) (chunk : proposal.chunk = session.chunk) (round : proposal.round = session.round) :
    session.verifyValidQuorum crypto proposal = .ok () ↔
      CarriedValid crypto session.domain session.activeSet session.prevoteQuorum proposal := by
  unfold ChunkBft.verifyValidQuorum CarriedValid
  rw [chunk,round]
  cases given : proposal.validQuorum with
  | none => simp
  | some quorum =>
    have agreed : verifyValueQuorumNative crypto session.domain session.activeSet (some session.totalStake) quorum
        session.prevoteQuorum = .ok () ↔ _ := value_quorum_coincide opened.summed (narrow_short opened.short)
    simp only [bind_ok,ensure_ok,Option.some.injEq,forall_eq',agreed]
    constructor
    · rintro ⟨_,bound,verified⟩
      exact ⟨bound,verified⟩
    · rintro ⟨bound,verified⟩
      exact ⟨(),bound,verified⟩

theorem native_proposal (opened : session.Opened) : session.setProposal crypto proposal = .ok next ↔
      (proposal.chunk = session.chunk ∧ proposal.round = session.round) ∧
      ProposalValid crypto session.domain session.activeSet session.totalStake session.prevoteQuorum proposal ∧
      session.proposal.all (· = proposal) = true ∧ next = {session with proposal := some proposal} := by
  simp only [ChunkBft.setProposal,verifyIndividualNative,activeSigner,bind_ok,ensure_ok,required_ok,pure_ok, Option.filter_eq_some_iff]
  constructor
  · rintro ⟨_,⟨chunk,round,leader⟩,_,⟨validator,⟨found,_⟩,signed⟩,_,entered,_,carried,_,known,rfl⟩
    exact ⟨⟨chunk,round⟩,⟨by rw [chunk,round]; exact leader,⟨validator,found,signed⟩,(native_entry chunk round).mp entered,
      (native_carried opened chunk round).mp carried⟩,known,rfl⟩
  · rintro ⟨⟨chunk,round⟩,⟨leader,⟨validator,found,signed⟩,entered,carried⟩,known,rfl⟩
    obtain ⟨other,same,active⟩ := leader_active leader
    cases found.symm.trans same
    exact ⟨(),⟨chunk,round,by rw [← chunk,← round]; exact leader⟩,(),⟨validator,⟨found,active⟩,signed⟩,
      (),(native_entry chunk round).mpr entered,(),(native_carried opened chunk round).mpr carried,(),known,rfl⟩

theorem isOk_congr {one : Except ε α} {two : Except φ β} (same : (∃ result, one = .ok result) ↔ ∃ result, two = .ok result) :
    one.isOk = two.isOk := Bool.eq_iff_iff.mpr (isOk_iff.trans (same.trans isOk_iff.symm))

theorem isOk_unit {one : Except ε Unit} {two : Except φ β} (same : one = .ok () ↔ ∃ result, two = .ok result) :
    one.isOk = two.isOk := isOk_congr ⟨fun ⟨_,accepted⟩ => same.mp accepted,fun accepted => ⟨(),same.mpr accepted⟩⟩

-- A guest cache holds what earlier checks of the same verification accepted.
theorem bft_rules_coincide (crypto : Crypto Hash Key Sig) (sums : SignatureSums Sig)
    (unordered : ∀ one two message signature, List.Perm one two →
      crypto.aggregate one message signature = crypto.aggregate two message signature)
    (domain : ConsensusDomain Hash) (validators : List (Validator Hash Key)) (total : Nat)
    (summed : activeStakeTotal validators = some total) (fraction : Nat × Nat) (quorums : VerifiedQuorums Hash Sig)
    (sound : quorums.Sound crypto domain validators) : (∀ chunk round root precommit start events (proposal : BftProposal Hash Sig),
      ChunkBft.withQuorum domain chunk round validators root fraction precommit = .ok start →
      (start.run crypto sums events).proposal = none → (start.run crypto sums events).chunk = proposal.chunk →
      (start.run crypto sums events).round = proposal.round → proposal.chunk.activeValidatorSetRoot = crypto.commitment validators →
      ((start.run crypto sums events).setProposal crypto proposal).isOk =
        (verifyProposalWith crypto domain validators (crypto.commitment validators) proposal fraction quorums).isOk) ∧
    (∀ certificate : RoundChangeCertificate Hash Sig, certificate.fits →
      (verifyRoundCertificateNative crypto domain validators total certificate fraction).isOk =
        (verifyRoundChangeCertificateWith crypto domain validators certificate fraction quorums).isOk) ∧
    ∀ vote : NilVote Sig, vote.aggregationBits.fits →
      (verifyNilNative crypto domain validators vote).isOk = (verifyNilVoteUsing crypto domain validators vote).isOk := by
  refine ⟨?_,?_,?_⟩
  · intro chunk round root precommit start events proposal created fresh sameChunk sameRound named
    obtain ⟨opened,_,_,_,rfl,rfl,_,rfl,_⟩ := with_quorum_ok created
    have kept := ChunkBft.run_electorate crypto sums start events
    have later := ChunkBft.opened_electorate opened kept
    generalize start.run crypto sums events = session at *
    simp only [ChunkBft.electorate,Prod.mk.injEq] at kept
    obtain ⟨domains,sets,_,_,fractions,_⟩ := kept
    rw [← domains,← sets] at sound
    rw [← sets] at named
    rw [← domains,← sets,← fractions]
    refine isOk_congr (Iff.trans ?_ (guest_proposal later.summed later.short sound named).symm)
    simp only [native_proposal later,fresh,Option.all_none,true_and]
    exact ⟨fun ⟨_,_,valid,_⟩ => valid,fun valid => ⟨_,⟨sameChunk.symm,sameRound.symm⟩,valid,rfl⟩⟩
  · intro certificate fits
    exact isOk_unit (certificate_coincide summed (fun report listed quorum carried =>
      narrow_fits (fits report listed quorum carried)) sound)
  · intro vote fits
    exact isOk_unit ((nil_coincide summed fits unordered).trans ⟨fun accepted => ⟨(),accepted⟩,fun ⟨_,accepted⟩ => accepted⟩)
end

def plainSums : SignatureSums Nat := ⟨fun _ => true,List.sum⟩
def sampleNil : NilVote Nat := ⟨⟨4,1,.prevote⟩,⟨[true,false,true]⟩,12,[⟨2,⟨4,1,.prevote⟩,7,7⟩,⟨0,⟨4,1,.prevote⟩,5,5⟩]⟩

def sampleSession : ChunkBft Nat Nat Nat :=
  ⟨⟨1,0⟩,sampleChunk,1,threeSeats,3,3,(2,3),(2,3),.new .prevote,.new .precommit,none,none,none⟩

theorem summing_rules_coincide :
    (verifyProposalWith summingCrypto ⟨1,0⟩ threeSeats (summingCrypto.commitment threeSeats) sampleProposal (2,3) ⟨(2,3),[]⟩).isOk = true ∧
    (verifyRoundChangeCertificateWith summingCrypto ⟨1,0⟩ threeSeats sampleEntry (2,3) ⟨(2,3),[]⟩).isOk = true ∧
    (verifyNilVoteUsing summingCrypto ⟨1,0⟩ threeSeats sampleNil).isOk = true := by
  obtain ⟨proposals,certificates,nils⟩ := bft_rules_coincide summingCrypto plainSums (fun one two message signature same => by
      simp only [summingCrypto,same.sum_eq,same.length_eq]) ⟨1,0⟩ threeSeats 3 (by decide) (2,3) ⟨(2,3),[]⟩
    (fun _ listed => by simp at listed)
  refine ⟨?_,?_,?_⟩
  · rw [← proposals sampleChunk 1 3 (2,3) sampleSession [] sampleProposal (by decide) rfl rfl rfl rfl]
    decide
  · rw [← certificates sampleEntry (by unfold RoundChangeCertificate.fits BitVec.fits; decide)]
    decide
  · rw [← nils sampleNil (by unfold BitVec.fits; decide)]
    decide
end Neutrino.Consensus
