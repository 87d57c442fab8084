import Neutrino.Signing.Reservations

-- The vote rows of one identity and chunk, and how reservations change them.
namespace Neutrino.Signing
open Checks ColumnStore Consensus
variable {Hash Key Sig : Type} {round : Nat}

@[ext] structure VoteRows (Hash Key Sig : Type) where
  watermark : Option (VoteWatermark Hash Key Sig)
  intent : Nat → FinalityVotePhase → Option (VoteIntent Hash Sig)
  nilIntent : Nat → FinalityVotePhase → Option (NilIntent Hash Key)

def rowsOf (journal : Journal Hash Key Sig) (identity : Key) (chunkId : Nat) : VoteRows Hash Key Sig :=
  ⟨journal (.voteWatermark identity chunkId),fun round phase => journal (.voteIntent identity chunkId round phase),
    fun round phase => journal (.nilIntent identity chunkId round phase)⟩

theorem vote_intent_compacted :
    JournalKey.voteIntent owner chunk round phase ∈ compactRoundIntents identity chunkId oldRound newRound lock ↔
      oldRound < newRound ∧ owner = identity ∧ chunk = chunkId ∧ round = oldRound ∧
        (phase = .precommit → ∀ held, lock = some held → held.data.round ≠ oldRound) := by
  unfold compactRoundIntents
  by_cases moved : newRound ≤ oldRound
  · simp [moved,Nat.not_lt.mpr moved]
  · have later : oldRound < newRound := by omega
    cases phase with
    | prevote => simp [moved,later]
    | precommit =>
      cases lock with
      | none => simp [moved,later]
      | some held => simp [moved,later]; grind

theorem nil_intent_compacted : JournalKey.nilIntent owner chunk round phase ∈ compactRoundIntents identity chunkId oldRound newRound lock ↔
      oldRound < newRound ∧ owner = identity ∧ chunk = chunkId ∧ round = oldRound := by
  unfold compactRoundIntents
  by_cases moved : newRound ≤ oldRound
  · simp [moved,Nat.not_lt.mpr moved]
  · have later : oldRound < newRound := by omega
    cases phase <;> simp [moved,later]

theorem watermark_not_compacted : JournalKey.voteWatermark owner chunk ∉ compactRoundIntents identity chunkId oldRound newRound lock := by
  unfold compactRoundIntents
  split <;> simp

theorem superseded_mem : key ∈ supersededLock identity data lock ↔ ∃ held, lock = some held ∧ data.phase = .precommit ∧
      held.data.round < data.round ∧ key = .voteIntent identity held.data.chunkId held.data.round .precommit := by
  cases lock with
  | none => simp [supersededLock]
  | some held => simp [supersededLock,intentKey,precommitOf,and_assoc]

variable [DecidableEq Hash] [DecidableEq Key] [DecidableEq Sig] {crypto : Crypto Hash Key Sig}
  {engine after : Engine Hash Key Sig} {voter : ProposerKey Key} {prior watermark : VoteWatermark Hash Key Sig}

-- A value intent goes with its round unless it backs the lock, or with its lock.
inductive IntentDropped (prior : VoteWatermark Hash Key Sig) (intent : VoteIntent Hash Sig) (round : Nat)
    (phase : FinalityVotePhase) : Prop where
  | left : round = prior.round → prior.round < intent.data.round →
      (phase = .precommit → ∀ lock, prior.locked = some lock → lock.data.round ≠ prior.round) →
      IntentDropped prior intent round phase
  | superseded : phase = .precommit → intent.data.phase = .precommit → prior.locked = some lock →
      lock.data.round = round → round < intent.data.round → IntentDropped prior intent round phase

theorem dropped_intent (gone : JournalKey.voteIntent owner chunk round phase ∈ droppedByVote voter intent prior) :
    IntentDropped prior intent round phase := by
  rcases List.mem_append.mp gone with compacted | replaced
  · obtain ⟨moved,_,_,same,unlocked⟩ := vote_intent_compacted.mp compacted
    exact .left same moved unlocked
  · obtain ⟨lock,held,precommit,earlier,same⟩ := superseded_mem.mp replaced
    cases same
    exact .superseded rfl precommit held rfl earlier

theorem dropped_intent_scope (inChunk : ∀ lock, prior.locked = some lock → lock.data.chunkId = intent.data.chunkId)
    (gone : JournalKey.voteIntent owner chunk round phase ∈ droppedByVote voter intent prior) :
    owner = voter.publicKey ∧ chunk = intent.data.chunkId := by
  rcases List.mem_append.mp gone with compacted | replaced
  · obtain ⟨_,same,placed,_⟩ := vote_intent_compacted.mp compacted
    exact ⟨same,placed⟩
  · obtain ⟨lock,held,_,_,same⟩ := superseded_mem.mp replaced
    cases same
    exact ⟨rfl,inChunk lock held⟩

theorem dropped_nil (gone : JournalKey.nilIntent owner chunk round phase ∈ droppedByVote voter intent prior) :
    owner = voter.publicKey ∧ chunk = intent.data.chunkId ∧ round = prior.round ∧ prior.round < intent.data.round := by
  rcases List.mem_append.mp gone with compacted | replaced
  · obtain ⟨moved,owned,placed,same⟩ := nil_intent_compacted.mp compacted
    exact ⟨owned,placed,same,moved⟩
  · obtain ⟨_,_,_,_,impossible⟩ := superseded_mem.mp replaced
    cases impossible

theorem watermark_not_dropped : JournalKey.voteWatermark owner chunk ∉ droppedByVote voter intent prior := by
  intro gone
  rcases List.mem_append.mp gone with compacted | replaced
  · exact watermark_not_compacted compacted
  · obtain ⟨_,_,_,_,impossible⟩ := superseded_mem.mp replaced
    cases impossible

section
variable {intent : VoteIntent Hash Sig} (reserved : ValueReserved crypto engine voter intent prior watermark after)
include reserved

theorem ValueReserved.watermark_row :
    (rowsOf after.journal voter.publicKey intent.data.chunkId).watermark = some (watermark.reserve intent) := by
  rw [reserved.written]
  exact write_first (by simp)

theorem ValueReserved.intent_row :
    (rowsOf after.journal voter.publicKey intent.data.chunkId).intent intent.data.round intent.data.phase = some intent := by
  rw [reserved.written]
  exact write_second

theorem ValueReserved.intent_kept (other : ¬(round = intent.data.round ∧ phase = intent.data.phase))
    (kept : ¬IntentDropped prior intent round phase) : (rowsOf after.journal voter.publicKey intent.data.chunkId).intent round phase =
      (rowsOf engine.journal voter.publicKey intent.data.chunkId).intent round phase := by
  rw [reserved.written]
  exact write_kept (by simp) (by simpa using fun same => fun placed => other ⟨same,placed⟩) (fun gone => kept (dropped_intent gone))

theorem ValueReserved.nil_kept (kept : ¬(round = prior.round ∧ prior.round < intent.data.round)) :
    (rowsOf after.journal voter.publicKey intent.data.chunkId).nilIntent round phase =
      (rowsOf engine.journal voter.publicKey intent.data.chunkId).nilIntent round phase := by
  rw [reserved.written]
  exact write_kept (by simp) (by simp) (fun gone => kept (dropped_nil gone).2.2)

theorem ValueReserved.elsewhere (inChunk : ∀ lock, prior.locked = some lock → lock.data.chunkId = intent.data.chunkId)
    (other : ¬(owner = voter.publicKey ∧ chunk = intent.data.chunkId)) :
    rowsOf after.journal owner chunk = rowsOf engine.journal owner chunk := by
  rw [reserved.written]
  ext1
  · exact write_kept (by simpa using fun same placed => other ⟨same,placed⟩) (by simp) watermark_not_dropped
  · funext round phase
    exact write_kept (by simp) (by simpa using fun same placed => absurd ⟨same,placed⟩ other) (fun gone => other (dropped_intent_scope inChunk gone))
  · funext round phase
    exact write_kept (by simp) (by simp) (fun gone => other ⟨(dropped_nil gone).1,(dropped_nil gone).2.1⟩)
end
section
variable (reserved : NilReserved crypto engine voter data prior watermark after)
include reserved

theorem NilReserved.watermark_row : (rowsOf after.journal voter.publicKey data.chunkId).watermark = some watermark := by
  rw [reserved.written]
  exact write_first (by simp)

theorem NilReserved.nil_row : (rowsOf after.journal voter.publicKey data.chunkId).nilIntent data.round data.phase =
      some ⟨engine.domain.chainSpecHash,voter.publicKey,data,voter.validatorIndex⟩ := by
  rw [reserved.written]
  exact write_second

theorem NilReserved.intent_kept (kept : round = prior.round → prior.round < data.round →
      phase = .precommit ∧ ∃ lock, watermark.locked = some lock ∧ lock.data.round = prior.round) :
    (rowsOf after.journal voter.publicKey data.chunkId).intent round phase =
      (rowsOf engine.journal voter.publicKey data.chunkId).intent round phase := by
  rw [reserved.written]
  refine write_kept (by simp) (by simp) fun gone => ?_
  obtain ⟨moved,_,_,left,unlocked⟩ := vote_intent_compacted.mp gone
  obtain ⟨precommit,lock,held,same⟩ := kept left moved
  exact unlocked precommit lock held same

theorem NilReserved.nil_kept (other : ¬(round = data.round ∧ phase = data.phase))
    (kept : ¬(round = prior.round ∧ prior.round < data.round)) : (rowsOf after.journal voter.publicKey data.chunkId).nilIntent round phase =
      (rowsOf engine.journal voter.publicKey data.chunkId).nilIntent round phase := by
  rw [reserved.written]
  exact write_kept (by simp) (by simpa using fun same placed => other ⟨same,placed⟩) (fun gone => kept ⟨(nil_intent_compacted.mp gone).2.2.2,(nil_intent_compacted.mp gone).1⟩)

theorem NilReserved.elsewhere (other : ¬(owner = voter.publicKey ∧ chunk = data.chunkId)) :
    rowsOf after.journal owner chunk = rowsOf engine.journal owner chunk := by
  rw [reserved.written]
  ext1
  · exact write_kept (by simpa using fun same placed => other ⟨same,placed⟩) (by simp) watermark_not_compacted
  · funext round phase
    exact write_kept (by simp) (by simp) (fun gone => other ⟨(vote_intent_compacted.mp gone).2.1,(vote_intent_compacted.mp gone).2.2.1⟩)
  · funext round phase
    exact write_kept (by simp) (by simpa using fun same placed => absurd ⟨same,placed⟩ other) (fun gone => other ⟨(nil_intent_compacted.mp gone).2.1,(nil_intent_compacted.mp gone).2.2.1⟩)
end

theorem message_dropped (gone : key ∈ droppedByMessage engine kind identity chunkId round) : ∃ old, key = .roundMessage kind identity chunkId old := by
  unfold droppedByMessage at gone
  split at gone
  · cases gone
  · rename_i found
    split at gone
    · exact ⟨_,List.mem_singleton.mp gone⟩
    · cases gone

theorem MessageReserved.rows (reserved : MessageReserved engine voter kind chunkId round message after) :
    rowsOf after.journal owner chunk = rowsOf engine.journal owner chunk := by
  have notDropped : ∀ key : JournalKey Key, (∀ old, key ≠ .roundMessage kind voter.publicKey chunkId old) →
      key ∉ droppedByMessage engine kind voter.publicKey chunkId round := by
    intro key different gone
    obtain ⟨old,same⟩ := message_dropped gone
    exact different old same
  rw [reserved.written]
  ext1
  · exact write_kept (by simp) (by simp) (notDropped _ (by simp))
  · funext _ _; exact write_kept (by simp) (by simp) (notDropped _ (by simp))
  · funext _ _; exact write_kept (by simp) (by simp) (notDropped _ (by simp))

theorem BlockReserved.other_key {hash : Hash} (reserved : BlockReserved engine voter slot hash after)
    (other : key ≠ .proposerWatermark voter.publicKey) : after.journal key = engine.journal key := by
  rw [reserved.written]
  exact apply_other _ (.put _ _) other

theorem BlockReserved.rows {hash : Hash} (reserved : BlockReserved engine voter slot hash after) :
    rowsOf after.journal owner chunk = rowsOf engine.journal owner chunk := by
  ext1
  · exact reserved.other_key (by simp)
  · funext _ _; exact reserved.other_key (by simp)
  · funext _ _; exact reserved.other_key (by simp)
end Neutrino.Signing
