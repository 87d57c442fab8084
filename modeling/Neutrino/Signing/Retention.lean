import Neutrino.Signing.Messages

-- Rows are dropped as rounds pass; their positions stay closed, and what is left is
-- bounded.
namespace Neutrino.Signing
open Checks ColumnStore Consensus
variable {Hash Key Sig : Type} [DecidableEq Hash] [DecidableEq Key] [DecidableEq Sig] {crypto : Crypto Hash Key Sig}
  {start engine after : Engine Hash Key Sig} {labels : List (Label Hash Key Sig)}

section
def SlotsForward (entries : List (BlockReservation Hash Key)) : Prop :=
  entries.Pairwise fun older newer => older.identity = newer.identity → older.slot ≤ newer.slot

theorem performed_forward (journaled : MessagesJournaled crypto labels engine)
    (performed : Performed crypto engine request after) (made : request.blockReservation crypto = some entry)
    (member : old ∈ blocks crypto labels) (same : old.identity = entry.identity) : old.slot ≤ entry.slot := by
  cases performed with
  | value _ | nilVote _ | bftProposal _ | roundChange _ => cases made
  | blockProposal reserved =>
    cases made
    obtain ⟨row,present,bound,_⟩ := journaled.blockKept old member
    rw [same] at present
    exact Nat.le_trans bound (reserved.free row present).1

theorem step_forward (journaled : MessagesJournaled crypto labels engine)
    (forward : SlotsForward (blocks crypto labels)) (step : Step crypto engine label after) :
    SlotsForward (blocks crypto (labels++[label])) := by
  rw [blocks_append]
  refine List.pairwise_append.mpr ⟨forward,?_,?_⟩
  · cases label.reserved.bind (Request.blockReservation crypto) <;> simp
  · intro old member entry new same
    obtain ⟨request,reserves,made⟩ := Option.bind_eq_some_iff.mp (Option.mem_toList.mp new)
    cases step with
    | performed accepted | interrupted accepted =>
      cases reserves
      exact performed_forward journaled (perform_ok accepted) made member same
    | refused _ | cleanup _ | environment _ _ _ _ => cases reserves

def Label.signedRequest : Label Hash Key Sig → Option (Request Hash Key Sig)
  | .performed request _ _ => some request
  | _ => none

theorem round_messages {request : Request Hash Key Sig} (made : request.roundReservation domain = some entry) :
    request.messages crypto domain = [entry.message] := by
  cases request with
  | bftProposal _ _ | roundChange _ _ => cases made; rfl
  | value _ _ _ _ | nilVote _ _ | blockProposal _ _ => cases made

theorem block_messages {request : Request Hash Key Sig} (made : request.blockReservation crypto = some entry) :
    request.messages crypto domain = [.proposer domain entry.hash] := by
  cases request with
  | blockProposal _ _ => cases made; rfl
  | value _ _ _ _ | nilVote _ _ | bftProposal _ _ | roundChange _ _ => cases made

-- What the secret key has signed: one payload a position, slots in order.
structure NeverReopens (crypto : Crypto Hash Key Sig) (domain : ConsensusDomain Hash) (labels : List (Label Hash Key Sig)) : Prop where
  round : ∀ one ∈ labels.filterMap Label.signedRequest, ∀ two ∈ labels.filterMap Label.signedRequest,
    ∀ left right, one.roundReservation domain = some left → two.roundReservation domain = some right →
      left.SameRound right → one.messages crypto domain = two.messages crypto domain
  block : ∀ one ∈ labels.filterMap Label.signedRequest, ∀ two ∈ labels.filterMap Label.signedRequest,
    ∀ left right, one.blockReservation crypto = some left → two.blockReservation crypto = some right →
      left.SameSlot right → one.messages crypto domain = two.messages crypto domain
  forward : SlotsForward (blocks crypto labels)

theorem positions_stay_closed (path : Runs (Step crypto) start labels engine) : NeverReopens crypto engine.domain labels := by
  have journaled := runs_messages path
  have reserved : ∀ request ∈ labels.filterMap Label.signedRequest, request ∈ labels.filterMap Label.reserved := by
    intro request member
    obtain ⟨label,listed,signed⟩ := List.mem_filterMap.mp member
    refine List.mem_filterMap.mpr ⟨label,listed,?_⟩
    cases label with
    | performed _ _ _ => exact signed
    | interrupted _ _ | refused _ _ | cleanup | environment => cases signed
  refine ⟨?_,?_,?_⟩
  · intro one first two second left right made made' same
    rw [round_messages made,round_messages made',journaled.single left (List.mem_filterMap.mpr ⟨one,reserved one first,made⟩) right
      (List.mem_filterMap.mpr ⟨two,reserved two second,made'⟩) same]
  · intro one first two second left right made made' same
    rw [block_messages made,block_messages made',journaled.oneHash left (List.mem_filterMap.mpr ⟨one,reserved one first,made⟩) right
      (List.mem_filterMap.mpr ⟨two,reserved two second,made'⟩) same]
  · refine path.invariant (fun labels _ => SlotsForward (blocks crypto labels)) List.Pairwise.nil ?_
    intro labels middle label next prior forward step
    exact step_forward (runs_messages prior) forward step

-- A report, a nil vote that drops its row, and another report, which is refused.
def staleReports : List (Request Nat Nat VoteSig) :=
  [.roundChange soloVoter ⟨0,1,0,none,.blank⟩,.nilVote soloVoter ⟨0,1,.prevote⟩,.nilVote soloVoter ⟨0,3,.prevote⟩,
    .roundChange soloVoter ⟨0,1,0,some (soloQuorum 0 50),.blank⟩,.roundChange soloVoter ⟨0,3,0,none,.blank⟩]

theorem stale_report_refused : ((soloEngine.attempts symbolicCrypto staleReports).2.filterMap Label.signedRequest).length = 4 ∧
    (soloEngine.attempts symbolicCrypto staleReports).1.journal (.roundMessage .roundChange 7 0 1) = none ∧
    NeverReopens symbolicCrypto (soloEngine.attempts symbolicCrypto staleReports).1.domain
      (soloEngine.attempts symbolicCrypto staleReports).2 :=
  ⟨by decide +kernel,by decide +kernel,positions_stay_closed (attempts_runs ..)⟩
end

def JournalKey.identity : JournalKey Key → Key
  | .voteWatermark identity _ | .proposerWatermark identity | .voteIntent identity _ _ _ | .nilIntent identity _ _ _ |
    .roundMessage _ identity _ _ | .messageWatermark _ identity _ => identity

-- The vote watermark, a vote of its round for each phase, the precommit behind its
-- lock, and each message kind's watermark and message.
def retained (journal : Journal Hash Key Sig) (identity : Key) (chunkId : Nat) : List (JournalKey Key) :=
  .voteWatermark identity chunkId :: ((journal (.voteWatermark identity chunkId)).elim [] fun watermark =>
      ([.prevote,.precommit].map fun phase =>
        if (journal (.voteIntent identity chunkId watermark.round phase)).isSome then
          JournalKey.voteIntent identity chunkId watermark.round phase
        else .nilIntent identity chunkId watermark.round phase) ++
      watermark.locked.elim [] fun lock => [.voteIntent identity chunkId lock.data.round .precommit]) ++
    [MessageKind.proposal,.roundChange].flatMap fun kind => .messageWatermark kind identity chunkId ::
      (journal (.messageWatermark kind identity chunkId)).elim [] fun mark => [.roundMessage kind identity chunkId mark.round]

theorem retained_length (journal : Journal Hash Key Sig) (identity : Key) (chunkId : Nat) :
    (retained journal identity chunkId).length ≤ 8 := by
  unfold retained
  simp only [List.length_append,List.length_cons,List.flatMap_cons,List.flatMap_nil,List.length_nil]
  have votes : ((journal (.voteWatermark identity chunkId)).elim [] fun watermark =>
      ([.prevote,.precommit].map fun phase =>
        if (journal (.voteIntent identity chunkId watermark.round phase)).isSome then
          JournalKey.voteIntent identity chunkId watermark.round phase
        else .nilIntent identity chunkId watermark.round phase) ++
      watermark.locked.elim [] fun lock => [.voteIntent identity chunkId lock.data.round .precommit]).length ≤ 3 := by
    cases journal (.voteWatermark identity chunkId) with
    | none => simp
    | some watermark => cases locked : watermark.locked <;> simp [locked]
  have messages (kind : MessageKind) : ((journal (.messageWatermark kind identity chunkId)).elim []
      fun mark => [JournalKey.roundMessage kind identity chunkId mark.round]).length ≤ 1 := by
    cases journal (.messageWatermark kind identity chunkId) <;> simp
  have first := messages .proposal
  have second := messages .roundChange
  omega

structure SlimVotes (rows : VoteRows Hash Key Sig) : Prop where
  value : ∀ round phase intent, rows.intent round phase = some intent → ∃ watermark, rows.watermark = some watermark ∧
    (round = watermark.round ∨ phase = .precommit ∧ round < watermark.round ∧
      ∃ lock, watermark.locked = some lock ∧ lock.data.round = round)
  nilVote : ∀ round phase intent, rows.nilIntent round phase = some intent →
    ∃ watermark, rows.watermark = some watermark ∧ round = watermark.round
  single : ∀ round phase, rows.intent round phase = none ∨ rows.nilIntent round phase = none

def SlimMessages (journal : Journal Hash Key Sig) : Prop :=
  ∀ kind identity chunkId round message, journal (.roundMessage kind identity chunkId round) = some message →
    ∃ mark, journal (.messageWatermark kind identity chunkId) = some mark ∧ mark.round = round

variable {voter : ProposerKey Key} {prior watermark : VoteWatermark Hash Key Sig} {round : Nat}

theorem Loaded.slim (loaded : Loaded crypto engine identity chunkId round prior)
    (present : (rowsOf engine.journal identity chunkId).watermark = some row) : row = prior := by
  cases loaded with
  | fresh absent => cases absent.symm.trans present
  | stored found _ _ _ => exact Option.some.inj (present.symm.trans found)

theorem advance_reached (moved : prior.advance round = .ok watermark) : prior.round ≤ round := by
  rcases advance_ok moved with ⟨same,_⟩ | ⟨later,_⟩ <;> omega

section
variable {intent : VoteIntent Hash Sig} (reserved : ValueReserved crypto engine voter intent prior watermark after)
include reserved

theorem ValueReserved.intent_from (present : (rowsOf after.journal voter.publicKey intent.data.chunkId).intent round phase = some found) :
    ((round = intent.data.round ∧ phase = intent.data.phase) ∧ found = intent) ∨
      .voteIntent voter.publicKey intent.data.chunkId round phase ∉ droppedByVote voter intent prior ∧
      (rowsOf engine.journal voter.publicKey intent.data.chunkId).intent round phase = some found := by
  by_cases own : round = intent.data.round ∧ phase = intent.data.phase
  · obtain ⟨rfl,rfl⟩ := own
    exact .inl ⟨⟨rfl,rfl⟩,Option.some.inj (present.symm.trans reserved.intent_row)⟩
  · change after.journal (.voteIntent _ _ round phase) = some found at present
    rw [reserved.written] at present
    exact .inr (write_from (by simp) (by simpa using fun same => fun level => own ⟨same,level⟩) present)

theorem ValueReserved.nil_from (present : (rowsOf after.journal voter.publicKey intent.data.chunkId).nilIntent round phase = some found) :
    .nilIntent voter.publicKey intent.data.chunkId round phase ∉ droppedByVote voter intent prior ∧
      (rowsOf engine.journal voter.publicKey intent.data.chunkId).nilIntent round phase = some found := by
  change after.journal (.nilIntent _ _ round phase) = some found at present
  rw [reserved.written] at present
  exact write_from (by simp) (by simp) present

theorem ValueReserved.slim (inChunk : ∀ lock, prior.locked = some lock → lock.data.chunkId = intent.data.chunkId)
    (slim : SlimVotes (rowsOf engine.journal voter.publicKey intent.data.chunkId)) :
    SlimVotes (rowsOf after.journal voter.publicKey intent.data.chunkId) := by
  have reached := advance_reached reserved.advanced
  have round : (watermark.reserve intent).round = intent.data.round :=
    (reserve_bound watermark intent).2.2.2.trans (advance_round reserved.advanced)
  -- A precommit takes the lock over, and with it goes the precommit behind the old one.
  have behind {lock : QuorumCertificate Hash Sig} (held : prior.locked = some lock) (earlier : lock.data.round < intent.data.round)
      (kept : .voteIntent voter.publicKey intent.data.chunkId lock.data.round .precommit ∉ droppedByVote voter intent prior) :
      (watermark.reserve intent).locked = some lock := by
    rw [reserve_locked]
    split
    · rename_i precommit
      refine absurd (List.mem_append_right _ (superseded_mem.mpr ⟨lock,held,precommit,earlier,?_⟩)) kept
      rw [inChunk lock held]
    · rw [advance_locked reserved.advanced,held]
  refine ⟨?_,?_,?_⟩
  · intro level phase found present
    refine ⟨_,reserved.watermark_row,?_⟩
    rw [round]
    obtain ⟨own,_⟩ | ⟨kept,before⟩ := reserved.intent_from present
    · exact .inl own.1
    · obtain ⟨row,stored,place⟩ := slim.value level phase found before
      cases reserved.loaded.slim stored
      rcases place with same | ⟨rfl,earlier,lock,held,same⟩
      · by_cases moved : prior.round < intent.data.round
        · have unlocked : ¬(phase = .precommit → ∀ lock, prior.locked = some lock → lock.data.round ≠ prior.round) :=
            fun free => kept (List.mem_append_left _ (vote_intent_compacted.mpr ⟨moved,rfl,rfl,same,free⟩))
          push Not at unlocked
          obtain ⟨rfl,lock,held,behindRound⟩ := unlocked
          have at_lock : lock.data.round = level := behindRound.trans same.symm
          subst at_lock
          exact .inr ⟨rfl,by omega,lock,behind held (by omega) kept,rfl⟩
        · exact .inl (by omega)
      · subst same
        exact .inr ⟨rfl,by omega,lock,behind held (by omega) kept,rfl⟩
  · intro level phase found present
    obtain ⟨kept,before⟩ := reserved.nil_from present
    obtain ⟨row,stored,same⟩ := slim.nilVote level phase found before
    cases reserved.loaded.slim stored
    refine ⟨_,reserved.watermark_row,?_⟩
    by_cases moved : prior.round < intent.data.round
    · exact absurd (List.mem_append_left _ (nil_intent_compacted.mpr ⟨moved,rfl,rfl,same⟩)) kept
    · omega
  · intro level phase
    cases nilVote : (rowsOf after.journal voter.publicKey intent.data.chunkId).nilIntent level phase with
    | none => exact .inr rfl
    | some _ =>
      have nilBefore := (reserved.nil_from nilVote).2
      refine .inl (Option.eq_none_iff_forall_ne_some.mpr fun found value => ?_)
      obtain ⟨⟨rfl,rfl⟩,_⟩ | ⟨_,before⟩ := reserved.intent_from value
      · cases reserved.noNil.symm.trans nilBefore
      · rcases slim.single level phase with absent | absent
        · cases absent.symm.trans before
        · cases absent.symm.trans nilBefore
end
section
variable {data : NilVoteData} (reserved : NilReserved crypto engine voter data prior watermark after)
include reserved

theorem NilReserved.intent_from (present : (rowsOf after.journal voter.publicKey data.chunkId).intent round phase = some found) :
    .voteIntent voter.publicKey data.chunkId round phase ∉
        compactRoundIntents voter.publicKey data.chunkId prior.round data.round watermark.locked ∧
      (rowsOf engine.journal voter.publicKey data.chunkId).intent round phase = some found := by
  change after.journal (.voteIntent _ _ round phase) = some found at present
  rw [reserved.written] at present
  exact write_from (by simp) (by simp) present

theorem NilReserved.nil_from (present : (rowsOf after.journal voter.publicKey data.chunkId).nilIntent round phase = some found) :
    ((round = data.round ∧ phase = data.phase) ∧ found = ⟨engine.domain.chainSpecHash,voter.publicKey,data,voter.validatorIndex⟩) ∨
      .nilIntent voter.publicKey data.chunkId round phase ∉
        compactRoundIntents voter.publicKey data.chunkId prior.round data.round watermark.locked ∧
      (rowsOf engine.journal voter.publicKey data.chunkId).nilIntent round phase = some found := by
  by_cases own : round = data.round ∧ phase = data.phase
  · obtain ⟨rfl,rfl⟩ := own
    exact .inl ⟨⟨rfl,rfl⟩,Option.some.inj (present.symm.trans reserved.nil_row)⟩
  · change after.journal (.nilIntent _ _ round phase) = some found at present
    rw [reserved.written] at present
    exact .inr (write_from (by simp) (by simpa using fun same => fun level => own ⟨same,level⟩) present)

theorem NilReserved.slim (slim : SlimVotes (rowsOf engine.journal voter.publicKey data.chunkId)) :
    SlimVotes (rowsOf after.journal voter.publicKey data.chunkId) := by
  have reached := advance_reached reserved.advanced
  have round := advance_round reserved.advanced
  have locked := advance_locked reserved.advanced
  refine ⟨?_,?_,?_⟩
  · intro level phase found present
    refine ⟨_,reserved.watermark_row,?_⟩
    obtain ⟨kept,before⟩ := reserved.intent_from present
    obtain ⟨row,stored,place⟩ := slim.value level phase found before
    cases reserved.loaded.slim stored
    rcases place with same | ⟨rfl,earlier,lock,held,same⟩
    · by_cases moved : prior.round < data.round
      · have unlocked : ¬(phase = .precommit → ∀ lock, watermark.locked = some lock → lock.data.round ≠ prior.round) :=
          fun free => kept (vote_intent_compacted.mpr ⟨moved,rfl,rfl,same,free⟩)
        push Not at unlocked
        obtain ⟨rfl,lock,held,behind⟩ := unlocked
        exact .inr ⟨rfl,by omega,lock,held,behind.trans same.symm⟩
      · exact .inl (by omega)
    · exact .inr ⟨rfl,by omega,lock,locked.trans held,same⟩
  · intro level phase found present
    refine ⟨_,reserved.watermark_row,?_⟩
    obtain ⟨own,_⟩ | ⟨kept,before⟩ := reserved.nil_from present
    · exact own.1.trans round.symm
    · obtain ⟨row,stored,same⟩ := slim.nilVote level phase found before
      cases reserved.loaded.slim stored
      by_cases moved : prior.round < data.round
      · exact absurd (nil_intent_compacted.mpr ⟨moved,rfl,rfl,same⟩) kept
      · omega
  · intro level phase
    cases value : (rowsOf after.journal voter.publicKey data.chunkId).intent level phase with
    | none => exact .inl rfl
    | some _ =>
      have valueBefore := (reserved.intent_from value).2
      refine .inr (Option.eq_none_iff_forall_ne_some.mpr fun found nilVote => ?_)
      obtain ⟨⟨rfl,rfl⟩,_⟩ | ⟨_,before⟩ := reserved.nil_from nilVote
      · cases reserved.noValue.symm.trans valueBefore
      · rcases slim.single level phase with absent | absent
        · cases absent.symm.trans valueBefore
        · cases absent.symm.trans before
end

-- A property of the rows of one identity and chunk, from what the two vote reservations do there.
theorem step_rows {holds : Key → Nat → VoteRows Hash Key Sig → Prop} (journaled : Journaled labels engine)
    (blank : ∀ identity chunkId, holds identity chunkId (rowsOf empty identity chunkId))
    (value : ∀ voter intent prior watermark next, engine.ensureSignable voter intent.data.chunkId = .ok () →
      intent.validatorIndex = voter.validatorIndex → ValueReserved crypto engine voter intent prior watermark next →
      (∀ lock, prior.locked = some lock → lock.data.chunkId = intent.data.chunkId) →
      holds voter.publicKey intent.data.chunkId (rowsOf next.journal voter.publicKey intent.data.chunkId))
    (nilVote : ∀ voter data prior watermark next, engine.ensureSignable voter data.chunkId = .ok () →
      NilReserved crypto engine voter data prior watermark next →
      holds voter.publicKey data.chunkId (rowsOf next.journal voter.publicKey data.chunkId))
    (held : ∀ identity chunkId, holds identity chunkId (rowsOf engine.journal identity chunkId))
    (step : Step crypto engine label after) (identity : Key) (chunkId : Nat) :
    holds identity chunkId (rowsOf after.journal identity chunkId) := by
  have performs {request : Request Hash Key Sig} {next : Engine Hash Key Sig} {artifact : Artifact Hash Sig}
      (accepted : engine.perform crypto request = .ok (next,artifact)) :
      holds identity chunkId (rowsOf next.journal identity chunkId) := by
    cases request with
    | value voter data proofHashes unlockQuorum =>
      simp only [Engine.perform,bind_ok,pure_ok,Prod.mk.injEq] at accepted
      obtain ⟨_,accepted,rfl,_⟩ := accepted
      obtain ⟨prior,watermark,reserved⟩ := reserve_vote_ok accepted
      have tracked := journaled.tracked reserved.loaded reserved.above
      have inChunk := fun lock held => (tracked.backed lock held).1
      by_cases here : identity = voter.publicKey ∧ chunkId = data.chunkId
      · obtain ⟨rfl,rfl⟩ := here
        simp only [Engine.reserveVote,bind_ok] at accepted
        obtain ⟨_,signable,_⟩ := accepted
        exact value _ _ _ _ _ signable rfl reserved inChunk
      · rw [reserved.elsewhere inChunk here]
        exact held identity chunkId
    | nilVote voter data =>
      simp only [Engine.perform,bind_ok,pure_ok,Prod.mk.injEq] at accepted
      obtain ⟨_,accepted,rfl,_⟩ := accepted
      obtain ⟨prior,watermark,reserved⟩ := reserve_nil_vote_ok accepted
      by_cases here : identity = voter.publicKey ∧ chunkId = data.chunkId
      · obtain ⟨rfl,rfl⟩ := here
        simp only [Engine.reserveNilVote,bind_ok] at accepted
        obtain ⟨_,signable,_⟩ := accepted
        exact nilVote _ _ _ _ _ signable reserved
      · rw [reserved.elsewhere here]
        exact held identity chunkId
    | bftProposal _ _ | roundChange _ _ | blockProposal _ _ =>
      cases perform_ok accepted
      rename_i reserved
      rw [reserved.rows]
      exact held identity chunkId
  cases step with
  | performed accepted | interrupted accepted => exact performs accepted
  | refused _ => exact held identity chunkId
  | cleanup expired =>
    simp only [Engine.expiredSigningEntries,bind_ok,pure_ok] at expired
    obtain ⟨floor,_,rfl⟩ := expired
    by_cases above : floor ≤ chunkId
    · simpa [rowsOf,prune,JournalKey.chunk,above] using held identity chunkId
    · simpa [rowsOf,prune,JournalKey.chunk,above,empty] using blank identity chunkId
  | environment _ _ same _ => rw [same]; exact held identity chunkId

theorem vote_slim {dropped : List (JournalKey Key)} {first : Row Hash Key Sig (.voteWatermark identity chunkId)}
    {second : Row Hash Key Sig key} (intent : key.isIntent = true)
    (keptMark : ∀ kind owner chunk, JournalKey.messageWatermark kind owner chunk ∉ dropped)
    (written : after = engine.write (dropped.map .delete ++ [.put (.voteWatermark identity chunkId) first,.put key second]))
    (slim : SlimMessages engine.journal) : SlimMessages after.journal := by
  have plain : ∀ other : JournalKey Key, other.isIntent = false → other ≠ key := by
    rintro other notIntent rfl
    rw [intent] at notIntent
    cases notIntent
  intro kind owner chunk level message present
  rw [written] at present ⊢
  obtain ⟨mark,found,same⟩ := slim kind owner chunk level message (write_from (by simp) (plain _ rfl) present).2
  exact ⟨mark,(write_kept (by simp) (plain _ rfl) (keptMark _ _ _)).trans found,same⟩

theorem MessageReserved.slim (reserved : MessageReserved engine voter kind chunkId round message after)
    (slim : SlimMessages engine.journal) : SlimMessages after.journal := by
  intro other owner chunk level stored present
  rw [reserved.written] at present ⊢
  by_cases own : JournalKey.messageWatermark other owner chunk = .messageWatermark kind voter.publicKey chunkId
  · cases own
    refine ⟨_,write_first (by simp),?_⟩
    by_contra different
    have elsewhere : level ≠ round := fun same => different same.symm
    obtain ⟨kept,before⟩ := write_from (by simp) (by simpa using elsewhere) present
    obtain ⟨mark,found,same⟩ := slim _ _ _ _ _ before
    have ordered := reserved.notBelow mark found
    refine kept ?_
    rw [droppedByMessage,found]
    simp only
    rw [if_pos (by omega),same]
    exact List.mem_singleton_self _
  · have apart : JournalKey.roundMessage other owner chunk level ≠ .roundMessage kind voter.publicKey chunkId round := by
      intro same
      cases same
      exact own rfl
    obtain ⟨_,before⟩ := write_from (by simp) apart present
    obtain ⟨mark,found,same⟩ := slim _ _ _ _ _ before
    refine ⟨mark,(write_kept own (by simp) (fun gone => ?_)).trans found,same⟩
    obtain ⟨_,impossible⟩ := message_dropped gone
    cases impossible

theorem performed_slim (performed : Performed crypto engine request after) (slim : SlimMessages engine.journal) :
    SlimMessages after.journal := by
  cases performed with
  | value reserved =>
    refine vote_slim rfl (fun kind owner chunk gone => ?_) reserved.written slim
    rcases List.mem_append.mp gone with compacted | replaced
    · exact (unrelated_not_compacted compacted).1 _ _ _ rfl
    · obtain ⟨_,_,_,_,impossible⟩ := superseded_mem.mp replaced
      cases impossible
  | nilVote reserved =>
    exact vote_slim rfl (fun _ _ _ gone => (unrelated_not_compacted gone).1 _ _ _ rfl) reserved.written slim
  | bftProposal reserved | roundChange reserved => exact reserved.slim slim
  | blockProposal reserved =>
    intro kind owner chunk level message present
    rw [reserved.other_key (by simp)] at present ⊢
    exact slim kind owner chunk level message present

theorem step_slim (slim : SlimMessages engine.journal) (step : Step crypto engine label after) : SlimMessages after.journal := by
  cases step with
  | performed accepted | interrupted accepted => exact performed_slim (perform_ok accepted) slim
  | refused _ => exact slim
  | cleanup expired =>
    simp only [Engine.expiredSigningEntries,bind_ok,pure_ok] at expired
    obtain ⟨floor,_,rfl⟩ := expired
    intro kind identity chunkId level message present
    by_cases above : floor ≤ chunkId
    · simp only [prune,JournalKey.chunk,Option.all_some,above,decide_true,if_true] at present ⊢
      exact slim kind identity chunkId level message present
    · simp [prune,JournalKey.chunk,above] at present
  | environment _ _ journal _ => rw [journal]; exact slim

theorem runs_slim (fresh : start.journal = empty) (path : Runs (Step crypto) start labels engine) :
    (∀ identity chunkId, SlimVotes (rowsOf engine.journal identity chunkId)) ∧ SlimMessages engine.journal := by
  have blank : ∀ identity chunkId, SlimVotes (rowsOf (empty : Journal Hash Key Sig) identity chunkId) :=
    fun _ _ => ⟨nofun,nofun,fun _ _ => .inl rfl⟩
  refine path.invariant (fun _ engine => (∀ identity chunkId, SlimVotes (rowsOf engine.journal identity chunkId)) ∧
    SlimMessages engine.journal) ?_ ?_
  · rw [fresh]
    exact ⟨blank,nofun⟩
  · intro labels middle label next prior slim step
    refine ⟨step_rows (runs_journaled fresh prior) blank ?_ ?_ slim.1 step,step_slim slim.2 step⟩
    · exact fun _ _ _ _ _ _ _ reserved inChunk => reserved.slim inChunk (slim.1 _ _)
    · exact fun _ _ _ _ _ _ reserved => reserved.slim (slim.1 _ _)

theorem journal_retention_bounded (fresh : start.journal = empty) (path : Runs (Step crypto) start labels engine)
    (identity : Key) (chunkId : Nat) : (retained engine.journal identity chunkId).length ≤ 8 ∧
      ∀ key : JournalKey Key, key.identity = identity → key.chunk = some chunkId → engine.journal key ≠ none →
        key ∈ retained engine.journal identity chunkId := by
  refine ⟨retained_length _ _ _,?_⟩
  obtain ⟨votes,messages⟩ := runs_slim fresh path
  have slim := votes identity chunkId
  intro key owned inChunk present
  obtain ⟨row,present⟩ := Option.ne_none_iff_exists'.mp present
  cases key with
  | voteWatermark owner chunk =>
    obtain rfl : owner = identity := owned
    obtain rfl : chunk = chunkId := Option.some.inj inChunk
    exact List.mem_append_left _ (List.mem_cons_self ..)
  | proposerWatermark owner => cases inChunk
  | voteIntent owner chunk round phase =>
    obtain rfl : owner = identity := owned
    obtain rfl : chunk = chunkId := Option.some.inj inChunk
    obtain ⟨watermark,stored,place⟩ := slim.value round phase row present
    have mark : engine.journal (.voteWatermark owner chunk) = some watermark := stored
    rcases place with rfl | ⟨rfl,_,lock,held,rfl⟩
    · cases phase <;> simp [retained,mark,present]
    · simp [retained,mark,held]
  | nilIntent owner chunk round phase =>
    obtain rfl : owner = identity := owned
    obtain rfl : chunk = chunkId := Option.some.inj inChunk
    obtain ⟨watermark,stored,rfl⟩ := slim.nilVote round phase row present
    have mark : engine.journal (.voteWatermark owner chunk) = some watermark := stored
    have none : engine.journal (.voteIntent owner chunk watermark.round phase) = none :=
      (slim.single _ phase).resolve_right fun absent => by cases absent.symm.trans present
    cases phase <;> simp [retained,mark,none]
  | roundMessage kind owner chunk round =>
    obtain rfl : owner = identity := owned
    obtain rfl : chunk = chunkId := Option.some.inj inChunk
    obtain ⟨mark,found,rfl⟩ := messages kind owner chunk round row present
    cases kind <;> simp [retained,found]
  | messageWatermark kind owner chunk =>
    obtain rfl : owner = identity := owned
    obtain rfl : chunk = chunkId := Option.some.inj inChunk
    cases kind <;> simp [retained]

theorem relocking_journal_bounded : ∃ journal, journal = (soloEngine.attempts symbolicCrypto relockingRequests).1.journal ∧
    (journal (.voteIntent 7 0 4 .precommit)).isSome = true ∧ (retained journal 7 0).length ≤ 8 ∧
    ∀ key : JournalKey Nat, key.identity = 7 → key.chunk = some 0 → journal key ≠ none → key ∈ retained journal 7 0 :=
  ⟨_,rfl,by decide +kernel,journal_retention_bounded rfl (attempts_runs ..) 7 0⟩
end Neutrino.Signing
