import Neutrino.Library.GroupSignatures
import Neutrino.Consensus.Claims
import Neutrino.Consensus.Coincide

-- What a session has accumulated, in any order of accepted votes: verified claims
-- covering the bitmap exactly, under an aggregate that verifies.

namespace Neutrino.Consensus
open Checks GroupSignatures
variable {Hash Key Sig : Type} {crypto : Crypto Hash Key Sig} {sums : SignatureSums Sig}
  {domain : ConsensusDomain Hash} {validators : List (Validator Hash Key)} {total count : Nat} {fraction : Nat × Nat}
  {data : FinalityVoteData Hash}

def Crypto.scheme (crypto : Crypto Hash Key Sig) (sums : SignatureSums Sig) : Scheme Key (SigningMessage Hash Sig) Sig :=
  ⟨crypto.verify,crypto.aggregate,sums.decodes,sums.sum⟩

-- No nonempty selection of seats has keys that cancel.
def NoCancellation [AddCommGroup K] [AddCommGroup G] (group : GroupSums (crypto.scheme sums) K G)
    (validators : List (Validator Hash Key)) : Prop :=
  ∀ seats, seats.Sublist validators → seats ≠ [] → ∀ place, sumPoints group.key (seats.map (·.pubkey)) = some place → place ≠ 0

variable [DecidableEq Hash] [DecidableEq Sig]

structure Endorsed (crypto : Crypto Hash Key Sig) (domain : ConsensusDomain Hash) (validators : List (Validator Hash Key))
    (fraction : Nat × Nat) (count : Nat) (data : FinalityVoteData Hash) (bits : BitVec) (signature : Sig)
    (claims : List (VoteAttestation Hash Sig)) : Prop where
  covered : attestationCoverageValid data bits claims count = true
  whole : bits.bitLen = validators.length
  signed : ∀ claim ∈ claims, ∃ validator, validators[claim.validatorIndex]? = some validator ∧
    crypto.verify validator.pubkey (data.signingMessage domain) claim.voteSignature = true ∧
    crypto.verify validator.pubkey (claim.signingMessage domain) claim.signature = true
  unlocked : ∀ claim ∈ claims, ∀ quorum, claim.unlockQuorum = some quorum →
    (quorum.data.chunkId = data.chunkId ∧ quorum.data.chunkHash = data.chunkHash ∧ unlockRoundAllowed data quorum.data.round = true) ∧
    verifyQuorumUsing crypto domain validators quorum fraction = .ok ()
  joint : crypto.aggregate (markedKeys validators bits) (data.signingMessage domain) signature = true

theorem unlock_native_sound (summed : activeStakeTotal validators = some total) (valid : quorumFractionValid fraction.1 fraction.2 = true)
    (accepted : verifyUnlockNative crypto domain validators total data fraction [] quorum = .ok next) :
    (quorum.data.chunkId = data.chunkId ∧ quorum.data.chunkHash = data.chunkHash ∧ unlockRoundAllowed data quorum.data.round = true) ∧
      verifyQuorumUsing crypto domain validators quorum fraction = .ok () := by
  simp only [verifyUnlockNative,bind_ok,ensure_ok,List.not_mem_nil,if_false,pure_ok] at accepted
  obtain ⟨_,⟨phase,target⟩,stake,marked,_,reached,_,signed,_⟩ := accepted
  obtain ⟨short,-⟩ := (bitmap_stake_ok summed).mp marked
  refine ⟨target,(value_quorum_coincide summed (narrow_short short)).mp ?_⟩
  rw [verifyValueQuorumNative,validateQuorum,ensure_pos valid,ok_bind,ensure_pos phase,ok_bind]
  simp only [QuorumCertificate.vote] at signed ⊢
  rw [marked,ok_bind]
  simp only [pure_bind]
  rw [ensure_pos reached,ok_bind]
  exact signed

variable {vote : FinalityVote Hash Sig} {claims : List (VoteAttestation Hash Sig)}

theorem attestations_sound (summed : activeStakeTotal validators = some total) (valid : quorumFractionValid fraction.1 fraction.2 = true)
    (accepted : verifyAttestationsAfresh crypto domain validators total vote fraction seen claims = .ok ()) :
    ∀ claim ∈ claims, (∃ validator, validators[claim.validatorIndex]? = some validator ∧
      crypto.verify validator.pubkey (vote.data.signingMessage domain) claim.voteSignature = true ∧
      crypto.verify validator.pubkey (claim.signingMessage domain) claim.signature = true) ∧ ∀ quorum, claim.unlockQuorum = some quorum →
        (quorum.data.chunkId = vote.data.chunkId ∧ quorum.data.chunkHash = vote.data.chunkHash ∧
          unlockRoundAllowed vote.data quorum.data.round = true) ∧ verifyQuorumUsing crypto domain validators quorum fraction = .ok () := by
  induction claims generalizing seen with
  | nil => simp
  | cons claim rest ih =>
    simp only [verifyAttestationsAfresh,bind_ok,ensure_ok,required_ok] at accepted
    obtain ⟨_,_,validator,found,_,voted,_,claimed,unlocks⟩ := accepted
    cases declared : claim.unlockQuorum with
    | none =>
      simp only [declared,pure_bind] at unlocks
      exact List.forall_mem_cons.mpr ⟨⟨⟨validator,found,voted,claimed⟩,fun _ none => by simp [declared] at none⟩,ih unlocks⟩
    | some quorum =>
      simp only [declared,bind_ok] at unlocks
      obtain ⟨next,unlocked,looped⟩ := unlocks
      refine List.forall_mem_cons.mpr ⟨⟨⟨validator,found,voted,claimed⟩,fun other same => ?_⟩,ih looped⟩
      cases declared.symm.trans same
      exact unlock_native_sound summed valid unlocked

structure Pooled (crypto : Crypto Hash Key Sig) (validators : List (Validator Hash Key)) (message : SigningMessage Hash Sig)
    (bits : BitVec) (signature : Sig) (claims : List (Nat × Sig)) : Prop where
  once : (claims.map Prod.fst).Perm bits.marked
  whole : bits.bitLen = validators.length
  signed : ∀ claim ∈ claims, ∃ validator, validators[claim.1]? = some validator ∧ crypto.verify validator.pubkey message claim.2 = true
  joint : crypto.aggregate (markedKeys validators bits) message signature = true

def VoteAttestation.signer (claim : VoteAttestation Hash Sig) : Nat × Sig := (claim.validatorIndex,claim.voteSignature)

theorem Endorsed.pooled (endorsed : Endorsed crypto domain validators fraction count data bits signature claims) :
    Pooled crypto validators (data.signingMessage domain) bits signature (claims.map (·.signer)) where
  once := by
    rw [List.map_map]
    exact (coverage_ok.mp endorsed.covered).2.2.2
  whole := endorsed.whole
  signed := List.forall_mem_map.mpr fun claim listed => (endorsed.signed claim listed).imp fun _ facts => ⟨facts.1,facts.2.1⟩
  joint := endorsed.joint

theorem claims_signed {claims : List (Nat × Sig)} (signed : ∀ claim ∈ claims, ∃ validator,
      validators[claim.1]? = some validator ∧ crypto.verify validator.pubkey message claim.2 = true) :
    ∃ pairs : List (Key × Sig), pairs.map Prod.fst = (claims.map Prod.fst).filterMap (keyAt validators) ∧
      pairs.map Prod.snd = claims.map Prod.snd ∧ ∀ pair ∈ pairs, crypto.verify pair.1 message pair.2 = true := by
  induction claims with
  | nil => exact ⟨[],rfl,rfl,by simp⟩
  | cons claim rest ih =>
    obtain ⟨validator,found,verified⟩ := signed claim (by simp)
    obtain ⟨pairs,keys,signatures,all⟩ := ih fun other listed => signed other (by simp [listed])
    refine ⟨(validator.pubkey,claim.2)::pairs,?_,by simp [signatures],?_⟩
    · simp [keyAt,found,← keys]
    · exact List.forall_mem_cons.mpr ⟨verified,all⟩

theorem merge_covers {signer : α → Nat × Sig} (whole : left.bitLen = right.bitLen)
    (held : (known.map fun claim => (signer claim).1).Perm left.marked)
    (brought : (incoming.map fun claim => (signer claim).1).Perm right.marked)
    (accepted : mergeSignedClaims known incoming signer = .ok merged) :
    ∃ fresh, merged = known++fresh ∧ (∀ claim ∈ fresh, claim ∈ incoming ∧ (signer claim).1 ∉ left.marked) ∧
      (merged.map fun claim => (signer claim).1).Perm (unionBitVecs left right).marked := by
  obtain ⟨fresh,rfl,inside,nodup,all⟩ := merge_from (fun index => by simp) (held.nodup_iff.mpr (marked_nodup _)) accepted
  have apart := nodup
  rw [List.map_append,List.nodup_append] at apart
  refine ⟨fresh,rfl,fun claim listed => ⟨inside claim listed,fun marked => ?_⟩,?_⟩
  · exact apart.2.2 _ (held.mem_iff.mpr marked) _ (List.mem_map_of_mem listed) rfl
  · refine (List.perm_ext_iff_of_nodup nodup (marked_nodup _)).mpr fun index => ?_
    rw [union_marked whole,← held.mem_iff,← brought.mem_iff,List.map_append,List.mem_append]
    constructor
    · rintro (kept | added)
      · exact .inl kept
      · obtain ⟨claim,member,rfl⟩ := List.mem_map.mp added
        exact .inr (List.mem_map_of_mem (inside claim member))
    · rintro (kept | added)
      · exact .inl kept
      · obtain ⟨claim,member,rfl⟩ := List.mem_map.mp added
        simpa using all claim member

variable {K G : Type} [AddCommGroup K] [AddCommGroup G] {group : GroupSums (crypto.scheme sums) K G}

theorem marked_keys_apart (apart : NoCancellation group validators) (nonempty : markedKeys validators bits ≠ []) :
    ∀ place, sumPoints group.key (markedKeys validators bits) = some place → place ≠ 0 := by
  have seats : markedKeys validators bits =
      ((validators.zipIdx.filter fun seat => bits.get seat.2 = some true).map Prod.fst).map (·.pubkey) := by
    rw [markedKeys,List.map_map]
    rfl
  rw [seats] at nonempty ⊢
  refine apart _ ?_ fun none => nonempty (by rw [none]; rfl)
  have chosen := (List.filter_sublist (p := fun seat => bits.get seat.2 = some true) (l := validators.zipIdx)).map Prod.fst
  rwa [List.zipIdx_map_fst] at chosen

theorem Pooled.merge {signer : α → Nat × Sig} (apart : NoCancellation group validators)
    (retained : Pooled crypto validators message left existing (known.map signer))
    (brought : Pooled crypto validators message right other (incoming.map signer))
    (accepted : mergeSignedClaims known incoming signer = .ok merged)
    (extended : extendVoteAggregate sums existing merged known.length (fun claim => (signer claim).2) = .ok signature) :
    Pooled crypto validators message (unionBitVecs left right) signature (merged.map signer) := by
  have held := retained.once
  have added := brought.once
  rw [List.map_map] at held added
  obtain ⟨fresh,rfl,inside,covers⟩ := merge_covers (retained.whole.trans brought.whole.symm) held added accepted
  have whole : (unionBitVecs left right).bitLen = validators.length := (union_bitLen left right).trans retained.whole
  have signed : ∀ claim ∈ fresh.map signer, ∃ validator, validators[claim.1]? = some validator ∧
      crypto.verify validator.pubkey message claim.2 = true :=
    List.forall_mem_map.mpr fun claim listed => brought.signed _ (List.mem_map_of_mem (inside claim listed).1)
  refine ⟨by rw [List.map_map]; exact covers,whole,fun claim listed => ?_,?_⟩
  · rw [List.map_append] at listed
    exact (List.mem_append.mp listed).elim (retained.signed claim) (signed claim)
  · obtain ⟨pairs,keys,signatures,verified⟩ := claims_signed signed
    have order : (markedKeys validators left++pairs.map Prod.fst).Perm (markedKeys validators (unionBitVecs left right)) := by
      rw [marked_keys_indexed whole,marked_keys_indexed retained.whole,keys,← List.filterMap_append]
      refine ((held.symm.append_right _).trans ?_).filterMap _
      rw [List.map_append] at covers
      rw [List.map_map]
      exact covers
    have present : markedKeys validators (unionBitVecs left right) ≠ [] := by
      have some := (group.aggregate_iff.mp retained.joint).1
      intro none
      rw [none] at order
      exact some (List.append_eq_nil_iff.mp order.eq_nil).1
    have joined := group.aggregate_extend retained.joint verified fun place summed =>
      marked_keys_apart apart present place (by rwa [← sumPoints_perm order])
    have decoded : sums.decodes existing = true := group.aggregate_decodes retained.joint
    rw [extendVoteAggregate,if_pos decoded] at extended
    simp only [List.drop_left,bind_ok,ensure_ok,pure_ok] at extended
    obtain ⟨_,_,rfl⟩ := extended
    rw [group.aggregate_perm order,signatures,List.map_map] at joined
    exact joined

theorem endorsed_merge (apart : NoCancellation group validators)
    (retained : Endorsed crypto domain validators fraction count data left existing known)
    (incoming : Endorsed crypto domain validators fraction count data right other claims)
    (accepted : mergeSignedClaims known claims (fun claim => (claim.validatorIndex,claim.voteSignature)) = .ok merged)
    (extended : extendVoteAggregate sums existing merged known.length (·.voteSignature) = .ok signature) :
    Endorsed crypto domain validators fraction count data (unionBitVecs left right) signature merged := by
  have pooled := retained.pooled.merge apart incoming.pooled accepted extended
  obtain ⟨counted,nonempty,votes,held⟩ := coverage_ok.mp retained.covered
  obtain ⟨_,_,votes',brought⟩ := coverage_ok.mp incoming.covered
  obtain ⟨fresh,rfl,inside,covers⟩ := merge_covers (retained.whole.trans incoming.whole.symm) held brought accepted
  have either {claim : VoteAttestation Hash Sig} (listed : claim ∈ known++fresh) : claim ∈ known ∨ claim ∈ claims :=
    (List.mem_append.mp listed).imp_right fun new => (inside claim new).1
  refine ⟨?_,pooled.whole,fun claim listed => (either listed).elim (retained.signed claim) (incoming.signed claim),
    fun claim listed => (either listed).elim (retained.unlocked claim) (incoming.unlocked claim),pooled.joint⟩
  exact coverage_ok.mpr ⟨counted,by simp [nonempty], fun claim listed => (either listed).elim (votes claim) (votes' claim),covers⟩

def ChunkBft.target (crypto : Crypto Hash Key Sig) (session : ChunkBft Hash Key Sig) (phase : FinalityVotePhase) : FinalityVoteData Hash :=
  ⟨session.chunk.chunkId,session.round,crypto.chunkHash session.chunk,phase⟩

structure Accumulated (crypto : Crypto Hash Key Sig) (session : ChunkBft Hash Key Sig) (phase : FinalityVotePhase)
    (accumulator : VoteAccumulator Hash Sig) : Prop where
  own : accumulator.phase = phase
  empty : accumulator.aggregate = none → accumulator.aggregateStake = 0
  filled : ∀ aggregate, accumulator.aggregate = some aggregate → ∃ count, session.blockCount = some count ∧
    Endorsed crypto session.domain session.activeSet session.prevoteQuorum count (session.target crypto phase)
      aggregate.aggregationBits aggregate.signature accumulator.attestations ∧
    bitmapStake session.activeSet aggregate.aggregationBits = .ok accumulator.aggregateStake

theorem new_accumulated (session : ChunkBft Hash Key Sig) (phase : FinalityVotePhase) :
    Accumulated crypto session phase (.new phase) := ⟨rfl,fun _ => rfl,nofun⟩

theorem vote_endorsed {session : ChunkBft Hash Key Sig} (opened : session.Opened)
    (accepted : session.addVote crypto sums vote phase = .ok next) : ∃ count stake recorded, session.blockCount = some count ∧
      Endorsed crypto session.domain session.activeSet session.prevoteQuorum count (session.target crypto phase)
        vote.aggregationBits vote.signature vote.attestations ∧ bitmapStake session.activeSet vote.aggregationBits = .ok stake ∧
      (session.accumulator phase).record sums vote stake session.activeSet = .ok recorded ∧
      next = session.withAccumulator phase recorded := by
  simp only [ChunkBft.addVote,bind_ok,ensure_ok,required_ok,pure_ok] at accepted
  obtain ⟨_,⟨phases,_⟩,_,⟨chunk,round,hash⟩,stake,marked,count,spans,_,covered,_,joint,_,claims,recorded,kept,rfl⟩ := accepted
  have target : vote.data = session.target crypto phase := by rw [ChunkBft.target,← chunk,← round,← hash,← phases]
  obtain ⟨_,whole,_⟩ := (bitmap_stake_ok opened.summed).mp marked
  rw [verifyAttestations,native_attestations_afresh _ _ fun _ listed => by cases listed] at claims
  have checked := attestations_sound opened.summed opened.prevote claims
  simp only [verifyVoteSignature,ensure_ok] at joint
  rw [target] at covered checked joint
  exact ⟨count,stake,recorded,spans,⟨covered,whole,fun claim listed => (checked claim listed).1,
    fun claim listed => (checked claim listed).2,joint⟩,marked,kept,rfl⟩

theorem record_accumulated (apart : NoCancellation group session.activeSet) (held : Accumulated crypto session phase accumulator)
    (spans : session.blockCount = some count) (endorsed : Endorsed crypto session.domain session.activeSet session.prevoteQuorum count
      (session.target crypto phase) vote.aggregationBits vote.signature vote.attestations)
    (marked : bitmapStake session.activeSet vote.aggregationBits = .ok stake)
    (accepted : accumulator.record sums vote stake session.activeSet = .ok recorded) : Accumulated crypto session phase recorded := by
  unfold VoteAccumulator.record at accepted
  cases known : accumulator.aggregate with
  | none =>
    simp only [known,Except.ok.injEq] at accepted
    subst accepted
    refine ⟨held.own,by simp,fun aggregate same => ?_⟩
    cases same
    exact ⟨count,spans,endorsed,marked⟩
  | some existing =>
    obtain ⟨count',spans',retained,counted⟩ := held.filled existing known
    cases spans.symm.trans spans'
    simp only [known,bind_ok] at accepted
    obtain ⟨claims,merged,rest⟩ := accepted
    split at rest
    · cases rest
      exact held
    · simp only [bind_ok,pure_ok] at rest
      obtain ⟨signature,extended,combined,stakes,rfl⟩ := rest
      refine ⟨held.own,by simp,fun aggregate same => ?_⟩
      cases same
      exact ⟨count,spans,endorsed_merge apart retained endorsed merged extended,stakes⟩
end Neutrino.Consensus
