import Neutrino.Signing.Runs

-- What each accepted request did, so that later invariants never unfold the API.
namespace Neutrino.Signing
open Checks ColumnStore Consensus
variable {Hash Key Sig : Type} {round : Nat}

theorem floor_ok {engine : Engine Hash Key Sig} (read : engine.signingFinalizedFloor = .ok floor) : floor = engine.floor := by
  unfold Engine.signingFinalizedFloor at read
  unfold Engine.floor
  cases stored : engine.storedFinalizedChunkId with
  | none =>
    simp only [stored,bind_ok,pure_ok] at read
    obtain ⟨_,rfl,rfl⟩ := read
    rfl
  | some id =>
    simp only [stored,bind_ok,ensure_ok,pure_ok] at read
    obtain ⟨_,_,_,rfl,rfl⟩ := read
    rfl

theorem advance_ok {watermark advanced : VoteWatermark Hash Key Sig} (moved : watermark.advance round = .ok advanced) :
    (watermark.round = round ∧ advanced = watermark) ∨
      (watermark.round < round ∧ advanced = {watermark with round,prevote := none,precommit := none}) := by
  unfold VoteWatermark.advance at moved
  split at moved
  · cases moved
  · split at moved
    · cases moved; right; exact ⟨‹_›,rfl⟩
    · cases moved; left; exact ⟨by omega,rfl⟩

theorem advance_round {watermark advanced : VoteWatermark Hash Key Sig} (moved : watermark.advance round = .ok advanced) :
    advanced.round = round := by
  rcases advance_ok moved with ⟨same,rfl⟩ | ⟨_,rfl⟩
  · exact same
  · rfl

theorem advance_locked {watermark advanced : VoteWatermark Hash Key Sig} (moved : watermark.advance round = .ok advanced) :
    advanced.locked = watermark.locked := by
  rcases advance_ok moved with ⟨_,rfl⟩ | ⟨_,rfl⟩ <;> rfl

variable [DecidableEq Hash] [DecidableEq Key] [DecidableEq Sig] {crypto : Crypto Hash Key Sig}

theorem ensure_signable_ok {engine : Engine Hash Key Sig} (allowed : engine.ensureSignable voter chunkId = .ok ()) :
    engine.validateSigningKey voter = .ok () ∧ engine.floor ≤ chunkId := by
  simp only [Engine.ensureSignable,bind_ok,ensure_ok] at allowed
  obtain ⟨_,active,floor,read,above⟩ := allowed
  exact ⟨active,floor_ok read ▸ above⟩

-- A fresh watermark, or the stored row after it passed validation.
inductive Loaded (crypto : Crypto Hash Key Sig) (engine : Engine Hash Key Sig) (identity : Key) (chunkId round : Nat) :
    VoteWatermark Hash Key Sig → Prop where
  | fresh : engine.journal (.voteWatermark identity chunkId) = none →
      Loaded crypto engine identity chunkId round ⟨engine.domain.chainSpecHash,identity,chunkId,round,none,none,none⟩
  | stored : engine.journal (.voteWatermark identity chunkId) = some watermark → watermark.identity = identity →
      watermark.chunkId = chunkId → engine.validateVoteWatermark crypto watermark = .ok () →
      Loaded crypto engine identity chunkId round watermark

theorem load_watermark_ok (read : engine.loadVoteWatermark crypto voter chunkId round = .ok prior) :
    Loaded crypto engine voter.publicKey chunkId round prior := by
  simp only [Engine.loadVoteWatermark,Engine.readVoteWatermark,bind_ok,pure_ok] at read
  obtain ⟨saved,row,rfl⟩ := read
  split at row
  · rename_i absent
    cases row
    exact .fresh absent
  · rename_i watermark present
    simp only [bind_ok,ensure_ok,pure_ok] at row
    obtain ⟨_,⟨_,identity,chunk⟩,_,valid,rfl⟩ := row
    exact .stored present identity chunk valid

structure UnlockValid (crypto : Crypto Hash Key Sig) (engine : Engine Hash Key Sig) (intent : VoteIntent Hash Sig)
    (locked : Option (QuorumCertificate Hash Sig)) : Prop where
  bare : intent.data.phase = .prevote → intent.proofHashes = []
  verified : ∀ unlock, intent.unlockQuorum = some unlock →
    engine.verifyBftUnlockQuorum crypto engine.activeValidatorSet intent.data unlock = .ok ()
  released : ∀ lock, locked = some lock → intent.data.chunkHash ≠ lock.data.chunkHash →
    ∃ unlock, intent.unlockQuorum = some unlock ∧ lock.data.round < unlock.data.round
  current : intent.data.phase = .precommit → ∃ unlock, intent.unlockQuorum = some unlock ∧ unlock.data.round = intent.data.round

theorem validate_vote_unlock_ok (accepted : engine.validateVoteUnlock crypto intent locked = .ok ()) : UnlockValid crypto engine intent locked := by
  simp only [Engine.validateVoteUnlock,bind_ok,ensure_ok] at accepted
  obtain ⟨_,bare,_,verified,_,released,current⟩ := accepted
  refine ⟨bare,?_,?_,?_⟩
  · intro unlock carried
    rw [carried,Option.all_some] at verified
    obtain ⟨⟨⟩,accepted⟩ := isOk_iff.mp verified
    exact accepted
  · intro lock held different
    subst held
    simp only [Option.all_some,Bool.or_eq_true,decide_eq_true_eq,different,false_or,Option.any_eq_true] at released
    exact released
  · intro phase
    simpa [Option.any_eq_true] using current phase

def droppedByVote (voter : ProposerKey Key) (intent : VoteIntent Hash Sig) (prior : VoteWatermark Hash Key Sig) : List (JournalKey Key) :=
  compactRoundIntents voter.publicKey intent.data.chunkId prior.round intent.data.round prior.locked ++
    supersededLock voter.publicKey intent.data prior.locked

-- An accepted value vote, with the watermark it loaded and the advanced one.
structure ValueReserved (crypto : Crypto Hash Key Sig) (engine : Engine Hash Key Sig) (voter : ProposerKey Key)
    (intent : VoteIntent Hash Sig) (prior watermark : VoteWatermark Hash Key Sig) (after : Engine Hash Key Sig) : Prop where
  active : engine.validateSigningKey voter = .ok ()
  above : engine.floor ≤ intent.data.chunkId
  noNil : engine.journal (.nilIntent voter.publicKey intent.data.chunkId intent.data.round intent.data.phase) = none
  loaded : Loaded crypto engine voter.publicKey intent.data.chunkId intent.data.round prior
  unlock : UnlockValid crypto engine intent prior.locked
  advanced : prior.advance intent.data.round = .ok watermark
  free : ∀ reserved, watermark.entry intent.data.phase = some reserved → reserved = intent
  written : after = engine.write ((droppedByVote voter intent prior).map .delete ++
    [.put (.voteWatermark voter.publicKey intent.data.chunkId) (watermark.reserve intent),
      .put (.voteIntent voter.publicKey intent.data.chunkId intent.data.round intent.data.phase) intent])

structure NilReserved (crypto : Crypto Hash Key Sig) (engine : Engine Hash Key Sig) (voter : ProposerKey Key)
    (data : NilVoteData) (prior watermark : VoteWatermark Hash Key Sig) (after : Engine Hash Key Sig) : Prop where
  active : engine.validateSigningKey voter = .ok ()
  above : engine.floor ≤ data.chunkId
  noValue : engine.journal (.voteIntent voter.publicKey data.chunkId data.round data.phase) = none
  loaded : Loaded crypto engine voter.publicKey data.chunkId data.round prior
  advanced : prior.advance data.round = .ok watermark
  free : ∀ reserved, engine.journal (.nilIntent voter.publicKey data.chunkId data.round data.phase) = some reserved →
    reserved = ⟨engine.domain.chainSpecHash,voter.publicKey,data,voter.validatorIndex⟩
  written : after = engine.write ( (compactRoundIntents voter.publicKey data.chunkId prior.round data.round watermark.locked).map .delete ++
    [.put (.voteWatermark voter.publicKey data.chunkId) watermark, .put (.nilIntent voter.publicKey data.chunkId data.round data.phase)
        ⟨engine.domain.chainSpecHash,voter.publicKey,data,voter.validatorIndex⟩])

theorem reserve_vote_ok {engine after : Engine Hash Key Sig}
    (accepted : engine.reserveVote crypto voter data proofHashes unlockQuorum = .ok after) : ∃ prior watermark,
      ValueReserved crypto engine voter ⟨data,voter.validatorIndex,proofHashes,unlockQuorum⟩ prior watermark after := by
  simp only [Engine.reserveVote,bind_ok,ensure_ok,mapError_ok,pure_ok] at accepted
  obtain ⟨_,signable,_,noNil,prior,read,_,unlock,watermark,advanced,_,free,written⟩ := accepted
  obtain ⟨active,above⟩ := ensure_signable_ok signable
  refine ⟨prior,watermark,active,above,by simpa using noNil,load_watermark_ok read,validate_vote_unlock_ok unlock, advanced,?_,written.symm⟩
  intro reserved present
  rw [present] at free
  simpa using free

theorem reserve_nil_vote_ok {engine after : Engine Hash Key Sig} (accepted : engine.reserveNilVote crypto voter data = .ok after) :
    ∃ prior watermark, NilReserved crypto engine voter data prior watermark after := by
  simp only [Engine.reserveNilVote,bind_ok,ensure_ok,mapError_ok,pure_ok] at accepted
  obtain ⟨_,signable,_,noValue,prior,read,watermark,advanced,_,free,written⟩ := accepted
  obtain ⟨active,above⟩ := ensure_signable_ok signable
  refine ⟨prior,watermark,active,above,by simpa using noValue,load_watermark_ok read,advanced,?_,written.symm⟩
  intro reserved present
  rw [present] at free
  simpa using free

def droppedByMessage (engine : Engine Hash Key Sig) (kind : MessageKind) (identity : Key) (chunkId round : Nat) : List (JournalKey Key) :=
  match engine.journal (.messageWatermark kind identity chunkId) with
  | none => []
  | some prior => if prior.round < round then [.roundMessage kind identity chunkId prior.round] else []

structure MessageReserved (engine : Engine Hash Key Sig) (voter : ProposerKey Key) (kind : MessageKind)
    (chunkId round : Nat) (message : SigningMessage Hash Sig) (after : Engine Hash Key Sig) : Prop where
  active : engine.validateSigningKey voter = .ok ()
  above : engine.floor ≤ chunkId
  notBehind : ∀ watermark, engine.journal (.voteWatermark voter.publicKey chunkId) = some watermark → watermark.round ≤ round
  notBelow : ∀ prior, engine.journal (.messageWatermark kind voter.publicKey chunkId) = some prior → prior.round ≤ round
  free : ∀ reserved, engine.journal (.roundMessage kind voter.publicKey chunkId round) = some reserved →
    reserved = ⟨engine.domain.chainSpecHash,voter.publicKey,message⟩
  written : after = engine.write ((droppedByMessage engine kind voter.publicKey chunkId round).map .delete ++
    [.put (.messageWatermark kind voter.publicKey chunkId) ⟨engine.domain.chainSpecHash,voter.publicKey,chunkId,round⟩,
      .put (.roundMessage kind voter.publicKey chunkId round) ⟨engine.domain.chainSpecHash,voter.publicKey,message⟩])

theorem signing_round_ok {engine : Engine Hash Key Sig} (read : engine.signingRoundFor crypto identity chunkId = .ok found) :
    found = (engine.journal (.voteWatermark identity chunkId)).map (·.round) := by
  simp only [Engine.signingRoundFor,Engine.readVoteWatermark,bind_ok,pure_ok] at read
  obtain ⟨saved,row,rfl⟩ := read
  split at row
  · rename_i absent
    cases row
    rw [absent]
  · rename_i watermark present
    simp only [bind_ok,pure_ok] at row
    obtain ⟨_,_,_,_,rfl⟩ := row
    rw [present]

theorem compact_message_ok {engine : Engine Hash Key Sig}
    (compacted : engine.compactMessageIntents kind identity chunkId round = .ok batch) :
    (∀ prior, engine.journal (.messageWatermark kind identity chunkId) = some prior → prior.round ≤ round) ∧
      batch = (droppedByMessage engine kind identity chunkId round).map .delete ++
        [.put (.messageWatermark kind identity chunkId) ⟨engine.domain.chainSpecHash,identity,chunkId,round⟩] := by
  unfold droppedByMessage
  cases present : engine.journal (.messageWatermark kind identity chunkId) with
  | none =>
    simp only [Engine.compactMessageIntents,present,bind_ok,pure_ok] at compacted
    obtain ⟨_,rfl,rfl⟩ := compacted
    exact ⟨by simp,rfl⟩
  | some prior =>
    simp only [Engine.compactMessageIntents,present,bind_ok,ensure_ok,pure_ok] at compacted
    obtain ⟨_,_,_,ordered,_,rfl,rfl⟩ := compacted
    refine ⟨fun other same => by cases same; exact ordered,?_⟩
    dsimp only
    split <;> simp

theorem reserve_message_ok {engine after : Engine Hash Key Sig}
    (accepted : engine.reserveRoundMessage crypto voter kind chunkId round message = .ok after) :
    MessageReserved engine voter kind chunkId round message after := by
  simp only [Engine.reserveRoundMessage,bind_ok,ensure_ok,pure_ok] at accepted
  obtain ⟨_,signable,found,read,_,ordered,_,free,batch,compacted,written⟩ := accepted
  obtain ⟨active,above⟩ := ensure_signable_ok signable
  obtain ⟨notBelow,rfl⟩ := compact_message_ok compacted
  refine ⟨active,above,?_,notBelow,?_,?_⟩
  · intro watermark present
    rw [signing_round_ok read,present] at ordered
    simpa using ordered
  · intro reserved present
    rw [present] at free
    simpa using free
  · rw [← written,List.append_assoc]
    rfl

structure BlockReserved (engine : Engine Hash Key Sig) (voter : ProposerKey Key) (slot : Nat) (hash : Hash)
    (after : Engine Hash Key Sig) : Prop where
  active : engine.validateSigningKey voter = .ok ()
  free : ∀ prior, engine.journal (.proposerWatermark voter.publicKey) = some prior →
    prior.slot ≤ slot ∧ (slot = prior.slot → hash = prior.hash)
  written : after = engine.write [.put (.proposerWatermark voter.publicKey) ⟨engine.domain.chainSpecHash,voter.publicKey,slot,hash⟩]

theorem reserve_proposal_ok {voter : ProposerKey Key} {hash : Hash}
    (accepted : engine.reserveProposal voter slot hash = .ok after) : BlockReserved engine voter slot hash after := by
  cases present : engine.journal (.proposerWatermark voter.publicKey) with
  | none =>
    simp only [Engine.reserveProposal,present,bind_ok,pure_ok] at accepted
    obtain ⟨_,active,written⟩ := accepted
    exact ⟨active,by simp [present],written.symm⟩
  | some prior =>
    simp only [Engine.reserveProposal,present,bind_ok,ensure_ok,pure_ok] at accepted
    obtain ⟨_,active,_,_,_,ordered,_,same,written⟩ := accepted
    refine ⟨active,?_,written.symm⟩
    intro other found
    rw [present] at found
    cases found
    exact ⟨ordered,same⟩

inductive Performed (crypto : Crypto Hash Key Sig) (engine : Engine Hash Key Sig) : Request Hash Key Sig → Engine Hash Key Sig → Prop where
  | value : ValueReserved crypto engine voter ⟨data,voter.validatorIndex,proofHashes,unlockQuorum⟩ prior watermark after →
      Performed crypto engine (.value voter data proofHashes unlockQuorum) after
  | nilVote : NilReserved crypto engine voter data prior watermark after →
      Performed crypto engine (.nilVote voter data) after
  | bftProposal : MessageReserved engine voter .proposal proposal.chunk.chunkId proposal.round
      (proposal.signingMessage engine.domain) after → Performed crypto engine (.bftProposal voter proposal) after
  | roundChange : MessageReserved engine voter .roundChange report.chunkId report.round
      (report.signingMessage engine.domain) after → Performed crypto engine (.roundChange voter report) after
  | blockProposal : BlockReserved engine voter header.slot (crypto.headerHash header) after →
      Performed crypto engine (.blockProposal voter header) after

theorem perform_ok {engine after : Engine Hash Key Sig} (accepted : engine.perform crypto request = .ok (after,artifact)) :
    Performed crypto engine request after := by
  cases request
  all_goals
    simp only [Engine.perform,bind_ok,pure_ok,Prod.mk.injEq] at accepted
    obtain ⟨_,accepted,rfl,_⟩ := accepted
  case value =>
    obtain ⟨_,_,reserved⟩ := reserve_vote_ok accepted
    exact .value reserved
  case nilVote =>
    obtain ⟨_,_,reserved⟩ := reserve_nil_vote_ok accepted
    exact .nilVote reserved
  case bftProposal => exact .bftProposal (reserve_message_ok accepted)
  case roundChange => exact .roundChange (reserve_message_ok accepted)
  case blockProposal => exact .blockProposal (reserve_proposal_ok accepted)
end Neutrino.Signing
