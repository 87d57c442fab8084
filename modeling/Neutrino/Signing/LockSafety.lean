import Neutrino.Signing.NoEquivocation

-- The durable lock: leaving the last precommitted target needs a newer verified
-- quorum, and every stored watermark stays readable.
namespace Neutrino.Signing
open Checks ColumnStore Consensus
variable {Hash Key Sig : Type} {round : Nat} [DecidableEq Hash] [DecidableEq Key] [DecidableEq Sig] {crypto : Crypto Hash Key Sig}
  {start engine after : Engine Hash Key Sig}

theorem write_context (batch : Batch (Row Hash Key Sig)) : (engine.write batch).domain = engine.domain ∧
    (engine.write batch).params = engine.params ∧ (engine.write batch).activeValidatorSet = engine.activeValidatorSet := ⟨rfl,rfl,rfl⟩

theorem performed_context (performed : Performed crypto engine request after) : after.domain = engine.domain ∧
    after.params = engine.params ∧ after.activeValidatorSet = engine.activeValidatorSet := by
  cases performed with
  | value reserved | nilVote reserved | bftProposal reserved | roundChange reserved | blockProposal reserved =>
    rw [reserved.written]; exact write_context _

theorem step_context (step : Step crypto engine label after) : after.domain = engine.domain ∧ after.params = engine.params := by
  cases step with
  | performed accepted | interrupted accepted =>
    exact ⟨(performed_context (perform_ok accepted)).1,(performed_context (perform_ok accepted)).2.1⟩
  | refused _ => exact ⟨rfl,rfl⟩
  | cleanup expired =>
    simp only [Engine.expiredSigningEntries,bind_ok,pure_ok] at expired
    obtain ⟨_,_,rfl⟩ := expired
    exact ⟨rfl,rfl⟩
  | environment chain params _ _ => exact ⟨chain,params⟩

-- Every value vote passed the unlock rules in some engine where the context held.
def Justified (crypto : Crypto Hash Key Sig) (context : Engine Hash Key Sig → Prop) (labels : List (Label Hash Key Sig)) : Prop :=
  ∀ identity intent, ⟨identity,.value intent⟩ ∈ history labels → ∃ middle locked, context middle ∧ UnlockValid crypto middle intent locked

theorem step_justified (justified : Justified crypto context labels)
    (here : context engine) (step : Step crypto engine label after) : Justified crypto context (labels++[label]) := by
  intro identity intent member
  cases made : label.reservation with
  | none => rw [history_silent made] at member; exact justified identity intent member
  | some newer =>
    rw [history_reserved made] at member
    rcases List.mem_append.mp member with old | new
    · exact justified identity intent old
    · cases List.mem_singleton.mp new
      obtain ⟨request,performed,made',_⟩ := step_reserved step made
      cases performed with
      | value reserved => cases made'; exact ⟨engine,_,here,reserved.unlock⟩
      | nilVote _ => cases made'
      | bftProposal _ | roundChange _ | blockProposal _ => cases made'

theorem runs_justified (initial : context start)
    (kept : ∀ s label t, context s → moves s label t → context t) (sound : ∀ s label t, moves s label t → Step crypto s label t)
    (path : Runs moves start labels engine) : context engine ∧ Justified crypto context labels := by
  refine path.invariant (fun labels engine => context engine ∧ Justified crypto context labels)
    ⟨initial,fun _ _ member => by cases member⟩ ?_
  intro labels middle label next _ valid step
  exact ⟨kept _ _ _ valid.1 step,step_justified valid.2 valid.1 (sound _ _ _ step)⟩

theorem Journaled.lock_of_last (justified : Justified crypto context labels)
    (tracked : Tracked spec identity chunkId rows watermark (votesOf (history labels) identity chunkId))
    (last : lastPrecommit (votesOf (history labels) identity chunkId) = some precommit) :
    ∃ lock, watermark.locked = some lock ∧ lock.data.round = precommit.data.round ∧ lock.data.chunkHash = precommit.data.chunkHash := by
  obtain ⟨member,phase⟩ := lastPrecommit_mem last
  obtain ⟨reservation,inHistory,same⟩ := List.mem_filterMap.mp member
  split at same
  · obtain ⟨identity,payload⟩ := reservation
    cases Option.some.inj same
    obtain ⟨middle,locked,_,valid⟩ := justified _ _ inHistory
    obtain ⟨lock,carried,_,round,shape⟩ := valid.precommit phase
    refine ⟨lock,by rw [tracked.lock,last]; exact carried,round,?_⟩
    rw [shape]; rfl
  · cases same

theorem ValueReserved.lock_rule (journaled : Journaled labels engine) (justified : Justified crypto context labels)
    (reserved : ValueReserved crypto engine voter intent prior watermark after)
    (last : lastPrecommit (votesOf (history labels) voter.publicKey intent.data.chunkId) = some precommit)
    (different : intent.data.chunkHash ≠ precommit.data.chunkHash) :
    ∃ unlock, intent.unlockQuorum = some unlock ∧ precommit.data.round < unlock.data.round ∧
      engine.verifyBftUnlockQuorum crypto engine.activeValidatorSet intent.data unlock = .ok () := by
  have tracked := journaled.tracked reserved.loaded reserved.above
  obtain ⟨lock,held,round,target⟩ := Journaled.lock_of_last justified tracked last
  obtain ⟨unlock,carried,newer⟩ := reserved.unlock.released lock held (target ▸ different)
  exact ⟨unlock,carried,round ▸ newer,reserved.unlock.verified unlock carried⟩

theorem Tracked.validated
    (tracked : Tracked engine.domain.chainSpecHash identity chunkId (rowsOf engine.journal identity chunkId) watermark votes)
    (verified : ∀ lock, watermark.locked = some lock →
      verifyQuorumUsing crypto engine.domain engine.activeValidatorSet lock engine.params.prevoteFraction = .ok ()) :
    engine.validateVoteWatermark crypto watermark = .ok () := by
  obtain ⟨spec,owner,chunk⟩ := tracked.bound
  have intents : ∀ phase, engine.validateWatermarkIntent watermark phase = .ok () := by
    intro phase
    unfold Engine.validateWatermarkIntent
    cases present : watermark.entry phase with
    | none => rfl
    | some intent =>
      obtain ⟨atChunk,round,placed,stored⟩ := tracked.entries _ _ present
      have row : engine.journal (.voteIntent watermark.identity intent.data.chunkId intent.data.round intent.data.phase) =
          some intent := by rw [owner,atChunk,round,placed]; exact stored
      simp [atChunk,chunk,round,placed,row]
  have lock : engine.validateWatermarkLock crypto watermark = .ok () := by
    unfold Engine.validateWatermarkLock
    cases held : watermark.locked with
    | none => rfl
    | some lock =>
      obtain ⟨atChunk,bound,intent,stored,shape,carried⟩ := tracked.backed lock held
      have row : engine.journal (.voteIntent watermark.identity (precommitOf lock.data).chunkId
          (precommitOf lock.data).round (precommitOf lock.data).phase) = some intent := by
        rw [owner,show (precommitOf lock.data).chunkId = chunkId from atChunk]; exact stored
      have accepted : engine.verifyBftUnlockQuorum crypto engine.activeValidatorSet (precommitOf lock.data) lock = .ok () :=
        (verify_unlock_ok crypto).mpr ⟨⟨rfl,rfl,by simp [unlockRoundAllowed,precommitOf]⟩,verified lock held⟩
      simp only [bind_ok,required_ok,ensure_ok]
      exact ⟨intent,row,shape,carried,bound,isOk_iff.mpr ⟨(),accepted⟩⟩
  have held : watermark.precommit.all (fun intent => decide (intent.unlockQuorum = watermark.locked)) = true := by
    cases present : watermark.precommit with
    | none => rfl
    | some intent => simpa using tracked.held intent present
  simp only [Engine.validateVoteWatermark,bind_ok,ensure_ok]
  exact ⟨(),spec,(),intents .prevote,(),intents .precommit,(),lock,held⟩

-- Message and proposer watermarks name their own chain, identity and chunk.
structure Labelled (engine : Engine Hash Key Sig) : Prop where
  message : ∀ kind identity chunkId row, engine.journal (.messageWatermark kind identity chunkId) = some row →
    row.spec = engine.domain.chainSpecHash ∧ row.identity = identity ∧ row.chunkId = chunkId
  proposer : ∀ identity row, engine.journal (.proposerWatermark identity) = some row →
    row.spec = engine.domain.chainSpecHash ∧ row.identity = identity

theorem Labelled.carried (labelled : Labelled engine) (chain : after.domain = engine.domain)
    (message : ∀ kind identity chunkId row, after.journal (.messageWatermark kind identity chunkId) = some row →
      engine.journal (.messageWatermark kind identity chunkId) = some row)
    (proposer : ∀ identity row, after.journal (.proposerWatermark identity) = some row →
      engine.journal (.proposerWatermark identity) = some row) : Labelled after := by
  refine ⟨?_,?_⟩
  · intro kind identity chunkId row present
    rw [chain]
    exact labelled.message _ _ _ _ (message _ _ _ _ present)
  · intro identity row present
    rw [chain]
    exact labelled.proposer _ _ (proposer _ _ present)

theorem MessageReserved.labelled (labelled : Labelled engine) (chain : after.domain = engine.domain)
    (reserved : MessageReserved engine voter kind chunkId round message after) : Labelled after := by
  refine ⟨?_,?_⟩
  · intro other identity chunk row present
    rw [chain]
    rw [reserved.written] at present
    by_cases same : JournalKey.messageWatermark other identity chunk = .messageWatermark kind voter.publicKey chunkId
    · cases same
      cases Option.some.inj ((write_first (by simp)).symm.trans present)
      exact ⟨rfl,rfl,rfl⟩
    · exact labelled.message _ _ _ _ (write_from same (by simp) present).2
  · intro identity row present
    rw [chain]
    rw [reserved.written] at present
    exact labelled.proposer _ _ (write_from (by simp) (by simp) present).2

theorem BlockReserved.labelled {hash : Hash} (labelled : Labelled engine) (chain : after.domain = engine.domain)
    (reserved : BlockReserved engine voter slot hash after) : Labelled after := by
  refine ⟨?_,?_⟩
  · intro kind identity chunkId row present
    rw [reserved.other_key (by simp)] at present
    rw [chain]
    exact labelled.message _ _ _ _ present
  · intro identity row present
    rw [chain]
    by_cases same : JournalKey.proposerWatermark identity = .proposerWatermark voter.publicKey
    · cases same
      rw [reserved.written] at present
      cases Option.some.inj ((put_apply_self ..).symm.trans present)
      exact ⟨rfl,rfl⟩
    · rw [reserved.other_key same] at present
      exact labelled.proposer _ _ present

theorem performed_labelled (labelled : Labelled engine) (performed : Performed crypto engine request after) : Labelled after := by
  have chain := (performed_context performed).1
  cases performed with
  | value reserved | nilVote reserved =>
    have written := reserved.written
    refine labelled.carried chain ?_ ?_ <;> subst written
    · exact fun _ _ _ _ present => (write_from (by simp) (by simp) present).2
    · exact fun _ _ present => (write_from (by simp) (by simp) present).2
  | bftProposal reserved | roundChange reserved | blockProposal reserved => exact reserved.labelled labelled chain

theorem step_labelled (labelled : Labelled engine) (step : Step crypto engine label after) : Labelled after := by
  cases step with
  | performed accepted | interrupted accepted => exact performed_labelled labelled (perform_ok accepted)
  | refused _ => exact labelled
  | cleanup expired =>
    simp only [Engine.expiredSigningEntries,bind_ok,pure_ok] at expired
    obtain ⟨floor,_,rfl⟩ := expired
    refine labelled.carried rfl ?_ (fun _ _ present => present)
    intro kind identity chunkId row present
    simp only [prune] at present
    split at present
    · exact present
    · cases present
  | environment chain _ journal _ =>
    exact labelled.carried chain (fun _ _ _ _ present => journal ▸ present) (fun _ _ present => journal ▸ present)

-- Corruption is only ever reported with one of the allowed diagnostics.
def Reports (allowed : String → Prop) (checked : Except EngineError α) : Prop :=
  ∀ diagnostic, checked = .error (.corrupt diagnostic) → allowed diagnostic

theorem reports_iff {checked : Except EngineError α} : Reports allowed checked ↔
    Ends (fun _ => True) (fun reason => ∀ diagnostic, reason = .corrupt diagnostic → allowed diagnostic) checked := by
  cases checked <;> simp [Reports,Ends]

-- Every stored vote watermark reads back as it was stored.
def Readable (crypto : Crypto Hash Key Sig) (engine : Engine Hash Key Sig) : Prop :=
  ∀ identity chunkId mismatch bindSpec, engine.readVoteWatermark crypto identity chunkId mismatch bindSpec =
    .ok (engine.journal (.voteWatermark identity chunkId))

def Overflow (diagnostic : String) : Prop := diagnostic = "signing finality floor overflow"

theorem signable_reports : Reports Overflow (engine.ensureSignable voter chunkId) := by
  rw [reports_iff,Engine.ensureSignable,Engine.signingFinalizedFloor]
  cases engine.storedFinalizedChunkId <;> simp [-bind_pure_comp,Engine.validateSigningKey,Overflow]

theorem message_reports (readable : Readable crypto engine) (labelled : Labelled engine) :
    Reports Overflow (engine.reserveRoundMessage crypto voter kind chunkId round message) := by
  have own := labelled.message kind voter.publicKey chunkId
  rw [reports_iff]
  cases present : engine.journal (.messageWatermark kind voter.publicKey chunkId) <;>
    simp_all [-bind_pure_comp,Engine.reserveRoundMessage,Engine.signingRoundFor,readable voter.publicKey chunkId,
      Engine.compactMessageIntents,reports_iff.mp signable_reports]

theorem block_reports {hash : Hash} (labelled : Labelled engine) : Reports Overflow (engine.reserveProposal voter slot hash) := by
  have own := labelled.proposer voter.publicKey
  rw [reports_iff]
  cases present : engine.journal (.proposerWatermark voter.publicKey) <;>
    simp_all [-bind_pure_comp,Engine.reserveProposal,Engine.validateSigningKey]

theorem perform_reports (readable : Readable crypto engine) (labelled : Labelled engine) :
    Reports Overflow (engine.perform crypto request) := by
  rw [reports_iff]
  cases request with
  | value | nilVote =>
    simp [-bind_pure_comp,Engine.perform,Engine.reserveVote,Engine.reserveNilVote,
      Engine.loadVoteWatermark,Engine.validateVoteUnlock,readable _ _,reports_iff.mp signable_reports]
  | bftProposal | roundChange =>
    simp [-bind_pure_comp,Engine.perform,reports_iff.mp (message_reports readable labelled)]
  | blockProposal =>
    simp [-bind_pure_comp,Engine.perform,reports_iff.mp (block_reports labelled)]

-- A run in which no step changes the active set.
def FixedStep (crypto : Crypto Hash Key Sig) (engine : Engine Hash Key Sig) (label : Label Hash Key Sig)
    (after : Engine Hash Key Sig) : Prop :=
  Step crypto engine label after ∧ after.activeValidatorSet = engine.activeValidatorSet

def SameContext (start engine : Engine Hash Key Sig) : Prop :=
  engine.domain = start.domain ∧ engine.params = start.params ∧ engine.activeValidatorSet = start.activeValidatorSet

theorem fixed_justified (path : Runs (FixedStep crypto) start labels engine) :
    SameContext start engine ∧ Justified crypto (SameContext start) labels := by
  refine runs_justified ⟨rfl,rfl,rfl⟩ ?_ (fun _ _ _ step => step.1) path
  intro before label next same step
  obtain ⟨chain,params⟩ := step_context step.1
  exact ⟨chain.trans same.1,params.trans same.2.1,step.2.trans same.2.2⟩

theorem fixed_validated (fresh : start.journal = empty) (path : Runs (FixedStep crypto) start labels engine)
    (present : engine.journal (.voteWatermark identity chunkId) = some watermark) :
    Tracked engine.domain.chainSpecHash identity chunkId (rowsOf engine.journal identity chunkId) watermark
      (votesOf (history labels) identity chunkId) ∧ engine.validateVoteWatermark crypto watermark = .ok () := by
  have journaled := runs_journaled fresh (path.mono (fun _ _ _ step => step.1))
  obtain ⟨⟨chain,params,set⟩,justified⟩ := fixed_justified path
  have tracked : Tracked engine.domain.chainSpecHash identity chunkId (rowsOf engine.journal identity chunkId) watermark
      (votesOf (history labels) identity chunkId) := by
    have row : (rowsOf engine.journal identity chunkId).watermark = some watermark := present
    simpa only [Recorded,row] using journaled identity chunkId
  refine ⟨tracked,tracked.validated ?_⟩
  intro lock held
  rw [tracked.lock] at held
  obtain ⟨precommit,last,carried⟩ := Option.bind_eq_some_iff.mp held
  obtain ⟨member,_⟩ := lastPrecommit_mem last
  obtain ⟨⟨owner,payload⟩,inHistory,same⟩ := List.mem_filterMap.mp member
  split at same
  · cases Option.some.inj same
    obtain ⟨middle,locked,⟨chain',params',set'⟩,valid⟩ := justified _ _ inHistory
    have accepted := ((verify_unlock_ok crypto).mp (valid.verified lock carried)).2
    rw [chain,params,set,← chain',← params',← set']
    exact accepted
  · cases same

theorem fixed_readable (fresh : start.journal = empty) (path : Runs (FixedStep crypto) start labels engine) : Readable crypto engine := by
  intro identity chunkId mismatch bindSpec
  unfold Engine.readVoteWatermark
  cases present : engine.journal (.voteWatermark identity chunkId) with
  | none => rfl
  | some watermark =>
    obtain ⟨tracked,valid⟩ := fixed_validated fresh path present
    obtain ⟨spec,owner,chunk⟩ := tracked.bound
    simp only [ensure_pos (show (bindSpec = true → watermark.spec = engine.domain.chainSpecHash) ∧
      watermark.identity = identity ∧ watermark.chunkId = chunkId from ⟨fun _ => spec,owner,chunk⟩),valid]
    rfl

theorem runs_labelled (fresh : start.journal = empty) (path : Runs (Step crypto) start labels engine) : Labelled engine := by
  refine path.invariant (fun _ engine => Labelled engine) ?_ (fun _ _ _ _ _ labelled step => step_labelled labelled step)
  refine ⟨?_,?_⟩
  · intro kind identity chunkId row present
    rw [fresh] at present
    cases present
  · intro identity row present
    rw [fresh] at present
    cases present

-- The quorum a vote for another target than the last precommitted one carries.
structure Released (crypto : Crypto Hash Key Sig) (start : Engine Hash Key Sig) (intent last : VoteIntent Hash Sig)
    (unlock : QuorumCertificate Hash Sig) : Prop where
  carried : intent.unlockQuorum = some unlock
  verified : verifyQuorumUsing crypto start.domain start.activeValidatorSet unlock start.params.prevoteFraction = .ok ()
  phase : unlock.data.phase = .prevote
  target : unlock.data.chunkId = intent.data.chunkId ∧ unlock.data.chunkHash = intent.data.chunkHash
  newer : last.data.round < unlock.data.round
  prevote : intent.data.phase = .prevote → unlock.data.round < intent.data.round
  precommit : intent.data.phase = .precommit → unlock.data.round = intent.data.round

theorem ValueReserved.releases (same : SameContext start engine) (journaled : Journaled labels engine) (justified : Justified crypto context labels)
    (reserved : ValueReserved crypto engine voter intent prior watermark after)
    (last : lastPrecommit (votesOf (history labels) voter.publicKey intent.data.chunkId) = some precommit)
    (different : intent.data.chunkHash ≠ precommit.data.chunkHash) : ∃ unlock, Released crypto start intent precommit unlock := by
  obtain ⟨unlock,carried,newer,verified⟩ := reserved.lock_rule journaled justified last different
  obtain ⟨⟨chunk,target,allowed⟩,quorum⟩ := (verify_unlock_ok crypto).mp verified
  obtain ⟨chain,params,set⟩ := same
  rw [chain,params,set] at quorum
  refine ⟨unlock,carried,quorum,(verify_quorum_signed crypto quorum).1,⟨chunk,target⟩,newer,?_,?_⟩
  · intro phase
    simpa [unlockRoundAllowed,phase] using allowed
  · intro phase
    obtain ⟨own,carriedOwn,round⟩ := reserved.unlock.current phase
    cases carried.symm.trans carriedOwn
    exact round

-- A precommit that stopped after the durable batch counts as made; recovery signs it.
structure LockSafe (crypto : Crypto Hash Key Sig) (start : Engine Hash Key Sig) (labels : List (Label Hash Key Sig))
    (final : Engine Hash Key Sig) : Prop where
  released : ∀ earlier label later identity intent last, labels = earlier++label::later →
    label.reservation = some ⟨identity,.value intent⟩ →
    lastPrecommit (votesOf (history earlier) identity intent.data.chunkId) = some last →
    intent.data.chunkHash ≠ last.data.chunkHash → ∃ unlock, Released crypto start intent last unlock
  validated : ∀ identity chunkId watermark, final.journal (.voteWatermark identity chunkId) = some watermark →
    final.validateVoteWatermark crypto watermark = .ok ()
  backed : ∀ identity chunkId watermark lock, final.journal (.voteWatermark identity chunkId) = some watermark →
    watermark.locked = some lock → ∃ intent, intent.data = precommitOf lock.data ∧ intent.unlockQuorum = some lock ∧
      final.journal (.voteIntent identity chunkId lock.data.round .precommit) = some intent
  readable : Readable crypto final
  uncorrupted : ∀ request, Reports Overflow (final.perform crypto request)

theorem durable_lock_safety {start : Engine Hash Key Sig} (fresh : start.journal = empty)
    (path : Runs (FixedStep crypto) start labels final) : LockSafe crypto start labels final := by
  have weaken : ∀ engine label after, FixedStep crypto engine label after → Step crypto engine label after := fun _ _ _ step => step.1
  refine ⟨?_,?_,?_,fixed_readable fresh path,fun request =>
    perform_reports (fixed_readable fresh path) (runs_labelled fresh (path.mono weaken))⟩
  · rintro earlier label later identity intent last rfl made precommitted different
    obtain ⟨middle,next,before,step,_⟩ := path.at_label
    obtain ⟨same,justified⟩ := fixed_justified before
    obtain ⟨request,performed,made',_⟩ := step_reserved step.1 made
    cases performed with
    | value reserved =>
      cases made'
      exact reserved.releases same (runs_journaled fresh (before.mono weaken)) justified precommitted different
    | nilVote _ => cases made'
    | bftProposal _ | roundChange _ | blockProposal _ => cases made'
  · intro identity chunkId watermark present
    exact (fixed_validated fresh path present).2
  · intro identity chunkId watermark lock present held
    obtain ⟨_,_,intent,stored,shape,carried⟩ := (fixed_validated fresh path present).1.backed lock held
    exact ⟨intent,shape,carried,stored⟩

theorem attempts_fixed (engine : Engine Hash Key Sig) (requests : List (Request Hash Key Sig)) :
    Runs (FixedStep crypto) engine (engine.attempts crypto requests).2 (engine.attempts crypto requests).1 := by
  induction requests generalizing engine with
  | nil => exact .nil
  | cons request rest ih =>
    refine (Runs.snoc .nil ⟨attempt_step crypto engine request,?_⟩).append (ih _)
    split
    · rename_i accepted
      exact (performed_context (perform_ok accepted)).2.2
    · rfl

-- Lock, skip a round with nil, relock with a newer quorum; the old one is refused.
def relockingRequests : List (Request Nat Nat VoteSig) := [.value soloVoter ⟨0,1,50,.precommit⟩ [4] (some (soloQuorum 1 50)),
    .nilVote soloVoter ⟨0,2,.precommit⟩,
    .value soloVoter ⟨0,3,51,.prevote⟩ [] (some (soloQuorum 1 51)),
    .value soloVoter ⟨0,3,51,.prevote⟩ [] (some (soloQuorum 2 51)),
    .value soloVoter ⟨0,4,52,.precommit⟩ [4] (some (soloQuorum 4 52))]

theorem relocking_requests_safe : (history (soloEngine.attempts symbolicCrypto relockingRequests).2).length = 4 ∧
    LockSafe symbolicCrypto soloEngine (soloEngine.attempts symbolicCrypto relockingRequests).2
      (soloEngine.attempts symbolicCrypto relockingRequests).1 :=
  ⟨by decide +kernel,durable_lock_safety rfl (attempts_fixed ..)⟩
end Neutrino.Signing
