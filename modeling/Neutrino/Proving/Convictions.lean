import Neutrino.Proving.Evidence

-- What authorized evidence of two conflicting messages establishes about the accused.
namespace Neutrino.Proving
open Checks Consensus Chain Queries Query
open Query.Strict (program_eval)
variable {Hash Key Sig : Type}

-- The signatures of two messages that conflict; the other classes judge one message.
def SlashingEvidence.conflicting : SlashingEvidence Hash Sig → Option (List Sig)
  | .doubleBftProposal _ proposalA proposalB => some [proposalA.signature,proposalB.signature]
  | .conflictingNilVote _ valueVote nilVote => some [valueVote.signature,nilVote.signature]
  | .doubleProposal _ headerA headerB => some [headerA.signature,headerB.signature]
  | .doublePrevote _ voteA voteB | .doublePrecommit _ voteA voteB => some [voteA.signature,voteB.signature]
  | .longRangeForkParticipation _ vote canonicalVote => some [vote.signature,canonicalVote.signature]
  | .lockViolation _ voteA voteB lockEvidence => some [voteA.signature,voteB.signature,
      lockEvidence.attestation.voteSignature,lockEvidence.attestation.signature]
  | .invalidVrfClaim .. | .invalidProofSigning .. | .daCommitmentFraud .. => none

structure DoubleVote (crypto : Crypto Hash Key Sig) (domain : ConsensusDomain Hash) (key : Key)
    (voteA voteB : IndexedVote Hash Sig) : Prop where
  position : voteA.data.chunkId = voteB.data.chunkId ∧ voteA.data.round = voteB.data.round ∧ voteA.data.phase = voteB.data.phase
  conflict : voteA.data.chunkHash ≠ voteB.data.chunkHash
  first : crypto.verify key (.vote domain voteA.data) voteA.signature = true
  second : crypto.verify key (.vote domain voteB.data) voteB.signature = true

variable {facts : (request : FactRequest Hash Key Sig) → EvidenceVerdict request}

theorem eval_judged {program : Query (Verdict : SignatureRequest Hash Key Sig → Type) ε α} :
    (judged program).eval facts = program.eval fun request => facts (.signed request) := eval_translate

theorem active_validator_ok : (activeValidator validators index).eval facts = .ok validator ↔
    validators[index]? = some validator ∧ isActive validator = true := by
  simp [activeValidator,take,Option.filter_eq_some_iff]

variable [DecidableEq Hash] [DecidableEq Sig]

inductive Proven (crypto : Crypto Hash Key Sig) (params : ConsensusParams) (domain : ConsensusDomain Hash)
    (source : HistoricalChunk Hash Key Sig) (key : Key) : SlashingEvidence Hash Sig → Prop where
  | proposals : a.chunk.chunkId = b.chunk.chunkId → a.round = b.round → crypto.chunkHash a.chunk ≠ crypto.chunkHash b.chunk →
      crypto.verify key (a.signingMessage domain) a.signature = true →
      crypto.verify key (b.signingMessage domain) b.signature = true →
      Proven crypto params domain source key (.doubleBftProposal index a b)
  | nilConflict : value.data.chunkId = nilVote.data.chunkId → value.data.round = nilVote.data.round →
      value.data.phase = nilVote.data.phase → crypto.verify key (.vote domain value.data) value.signature = true →
      crypto.verify key (.nilVote domain nilVote.data) nilVote.signature = true →
      Proven crypto params domain source key (.conflictingNilVote index value nilVote)
  | headers : a.slot = b.slot → crypto.headerHash a.toHeaderHashPayload ≠ crypto.headerHash b.toHeaderHashPayload →
      crypto.verify key (.proposer domain (crypto.headerHash a.toHeaderHashPayload)) a.signature = true →
      crypto.verify key (.proposer domain (crypto.headerHash b.toHeaderHashPayload)) b.signature = true →
      Proven crypto params domain source key (.doubleProposal index a b)
  | prevotes : DoubleVote crypto domain key a b → Proven crypto params domain source key (.doublePrevote index a b)
  | precommits : DoubleVote crypto domain key a b → Proven crypto params domain source key (.doublePrecommit index a b)
  | forks : DoubleVote crypto domain key a b → Proven crypto params domain source key (.longRangeForkParticipation index a b)
  | lock : first.data.phase = .precommit → first.data.chunkId = later.data.chunkId →
      first.data.round < later.data.round → first.data.chunkHash ≠ later.data.chunkHash →
      source.chunk.chunkId = later.data.chunkId → crypto.verify key (.vote domain first.data) first.signature = true →
      evidence.attestation.vote = later.data →
      crypto.verify key (evidence.attestation.signingMessage domain) evidence.attestation.signature = true →
      (∀ unlock, evidence.attestation.unlockQuorum = some unlock → first.data.round < unlock.data.round →
        Consensus.verifyUnlockUsing crypto domain source.validators later.data unlock params.prevoteFraction ≠ .ok ()) →
      Proven crypto params domain source key (.lockViolation index first later evidence)

section
variable {crypto : Crypto Hash Key Sig} {oracle : (request : SignatureRequest Hash Key Sig) → Verdict request} (answers : Answers crypto oracle)
  {source : HistoricalChunk Hash Key Sig} {index : Nat} {validator : Validator Hash Key}
include answers

omit [DecidableEq Hash] [DecidableEq Sig] in
theorem header_signed (found : source.validators[index]? = some validator) (named : header.proposerIndex = index)
    (accepted : (verifyHeaderSignatureWith header headerHash domain source.validators).eval oracle = .ok ()) :
    crypto.verify validator.pubkey (.proposer domain headerHash) header.signature = true := by
  simp only [verifyHeaderSignatureWith,Strict.eval_bind,Strict.eval_ofExcept,eval_demand,answers.signature,bind_ok,required_ok,ensure_ok,
    Option.filter_eq_some_iff,named] at accepted
  obtain ⟨other,⟨same,_⟩,signed⟩ := accepted
  cases found.symm.trans same
  exact signed

variable (found : source.validators[index]? = some validator)
include found

theorem vote_signed (accepted : (verifyIndexedVoteUsing domain source.validators index vote).eval oracle = .ok ()) :
    crypto.verify validator.pubkey (.vote domain vote.data) vote.signature = true := by
  simp only [verifyIndexedVoteUsing,Strict.eval_bind,Strict.eval_ofExcept,eval_demand,answers.signature,bind_ok,required_ok,ensure_ok] at accepted
  obtain ⟨other,same,signed⟩ := accepted
  cases found.symm.trans same
  exact signed

theorem double_proposal_proven
    (accepted : (verifyDoubleBftProposalWithRoot crypto domain source.validators root index a b).eval oracle = .ok ()) :
    Proven crypto params domain source validator.pubkey (.doubleBftProposal index a b) := by
  simp only [verifyDoubleBftProposalWithRoot,Strict.eval_bind,Strict.eval_ofExcept,eval_demand,answers.signature,bind_ok,required_ok,
    ensure_ok] at accepted
  obtain ⟨_,⟨chunk,round,_,_,conflict,_⟩,other,same,_,first,second⟩ := accepted
  cases found.symm.trans same
  exact .proposals chunk round conflict first second

theorem conflicting_nil_vote_proven
    (accepted : (verifyConflictingNilVoteUsing domain source.validators index value nilVote).eval oracle = .ok ()) :
    Proven crypto params domain source validator.pubkey (.conflictingNilVote index value nilVote) := by
  simp only [verifyConflictingNilVoteUsing,Strict.eval_bind,Strict.eval_ofExcept,eval_demand,answers.signature,bind_ok,
    required_ok,ensure_ok,Option.filter_eq_some_iff] at accepted
  obtain ⟨_,⟨chunk,round,phase⟩,other,⟨same,_⟩,_,first,second⟩ := accepted
  cases found.symm.trans same
  exact .nilConflict chunk round phase (vote_signed answers found first) second

-- The unlock's own refusal is what convicts.
theorem lock_violation_proven (record : source.chunk.chunkId = first.data.chunkId) (accepted : (verifyLockViolationUsing domain
      source.validators index first later evidence params.prevoteFraction).eval oracle = .ok ()) :
    Proven crypto params domain source validator.pubkey (.lockViolation index first later evidence) := by
  simp only [verifyLockViolationUsing,verifyAttestationUsing,eval_bind,eval_check,program_eval,attestation_direct answers,
    Consensus.verifyAttestationWith,bind_ok,ensure_ok,required_ok] at accepted
  obtain ⟨_,⟨phase,chunk,round,conflict⟩,_,signed,_,_,_,⟨_,⟨_,about⟩,other,same,_,_,attested⟩,_,_,_,_,judged⟩ := accepted
  cases found.symm.trans same
  refine .lock phase chunk round conflict (record.trans chunk) (vote_signed answers found signed) about attested
    fun unlock carried newer verified => ?_
  simp only [carried,if_pos newer,eval_bind,eval_outcome,eval_check,program_eval,unlock_using_direct answers,verified,ok_bind] at judged
  cases judged
end

variable {host : EvidenceHost Hash Key Sig} (answers : Answers host.toCrypto fun request => facts (.signed request)) {source : HistoricalChunk Hash Key Sig}
include answers

theorem double_vote_proven (accepted : (authorizeDoubleVote host domain source phase index voteA voteB).eval facts = .ok (validator,penalty)) :
    DoubleVote host.toCrypto domain validator.pubkey voteA voteB := by
  simp only [authorizeDoubleVote,proven,eval_bind,eval_check,eval_mapError,eval_judged,program_eval,bind_ok,ensure_ok,mapError_ok,
    active_validator_ok,eval_pure,Except.ok.injEq,Prod.mk.injEq] at accepted
  obtain ⟨_,⟨phaseA,phaseB,chunk,round,conflict⟩,_,_,accused,⟨found,_⟩,_,first,_,second,rfl,_⟩ := accepted
  exact ⟨⟨chunk,round,phaseA.trans phaseB.symm⟩,conflict,vote_signed answers found first,vote_signed answers found second⟩

theorem authorize_ok (classed : evidence.conflicting = some signatures)
    (accepted : (authorizeEvidenceWith host params domain source root blockKey evidence).eval facts = .ok (validator,penalty)) :
    Proven host.toCrypto params.toConsensusParams domain source validator.pubkey evidence := by
  cases evidence with
  | doubleBftProposal index proposalA proposalB =>
    simp only [authorizeEvidenceWith,proven,eval_bind,eval_mapError,eval_judged,program_eval,bind_ok,mapError_ok,active_validator_ok,
      eval_pure,Except.ok.injEq,Prod.mk.injEq] at accepted
    obtain ⟨_,_,_,⟨found,_⟩,_,verified,rfl,_⟩ := accepted
    exact double_proposal_proven answers found verified
  | conflictingNilVote index value nilVote =>
    simp only [authorizeEvidenceWith,proven,eval_bind,eval_mapError,eval_judged,program_eval,bind_ok,mapError_ok,active_validator_ok,
      eval_pure,Except.ok.injEq,Prod.mk.injEq] at accepted
    obtain ⟨_,_,_,⟨found,_⟩,_,verified,rfl,_⟩ := accepted
    exact conflicting_nil_vote_proven answers found verified
  | doubleProposal index headerA headerB =>
    simp only [authorizeEvidenceWith,proven,eval_bind,eval_check,eval_mapError,eval_judged,program_eval,bind_ok,ensure_ok,mapError_ok,
      active_validator_ok,eval_pure,Except.ok.injEq,Prod.mk.injEq] at accepted
    obtain ⟨_,_,_,_,_,⟨_,atA,atB,slot,conflict⟩,_,_,_,⟨found,_⟩,_,first,_,second,rfl,_⟩ := accepted
    exact .headers slot conflict (header_signed answers found atA first) (header_signed answers found atB second)
  | doublePrevote index voteA voteB => exact .prevotes (double_vote_proven answers accepted)
  | doublePrecommit index voteA voteB => exact .precommits (double_vote_proven answers accepted)
  | longRangeForkParticipation index vote canonicalVote =>
    simp only [authorizeEvidenceWith,proven,eval_bind,eval_check,eval_mapError,eval_judged,program_eval,bind_ok,ensure_ok,mapError_ok,
      active_validator_ok,eval_pure,Except.ok.injEq,Prod.mk.injEq] at accepted
    obtain ⟨_,_,_,⟨_,chunk,round,phase,conflict⟩,_,⟨found,_⟩,_,first,_,second,rfl,_⟩ := accepted
    exact .forks ⟨⟨chunk.symm,round.symm,phase.symm⟩,conflict,vote_signed answers found first,vote_signed answers found second⟩
  | lockViolation index first later evidence =>
    simp only [authorizeEvidenceWith,recordAt,eval_bind,eval_check,eval_mapError,eval_judged,bind_ok,ensure_ok,mapError_ok,
      active_validator_ok,eval_pure,Except.ok.injEq,Prod.mk.injEq] at accepted
    obtain ⟨_,record,_,⟨found,_⟩,_,verified,rfl,_⟩ := accepted
    exact lock_violation_proven answers found record verified
  | invalidVrfClaim | invalidProofSigning | daCommitmentFraud => cases classed
end Neutrino.Proving
