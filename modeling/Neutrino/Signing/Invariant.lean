import Neutrino.Signing.Rows

-- The journal against the history of one identity and chunk: which votes are stored,
-- which position bounds them, and which lock they left.
namespace Neutrino.Signing
open Checks ColumnStore Consensus
variable {Hash Key Sig : Type} {round : Nat}

structure Tracked (spec : Hash) (identity : Key) (chunkId : Nat) (rows : VoteRows Hash Key Sig)
    (watermark : VoteWatermark Hash Key Sig) (votes : List (Payload Hash Sig)) : Prop where
  bound : watermark.spec = spec ∧ watermark.identity = identity ∧ watermark.chunkId = chunkId
  reached : ∀ vote ∈ votes, vote.round ≤ watermark.round
  value : ∀ intent, .value intent ∈ votes → intent.data.round = watermark.round → watermark.entry intent.data.phase = some intent
  nilVote : ∀ data index, .nilVote data index ∈ votes → data.round = watermark.round →
    rows.nilIntent data.round data.phase = some ⟨spec,identity,data,index⟩
  entries : ∀ phase intent, watermark.entry phase = some intent → intent.data.chunkId = chunkId ∧
    intent.data.round = watermark.round ∧ intent.data.phase = phase ∧ rows.intent watermark.round phase = some intent
  -- The lock is the quorum of the last value precommit, whose intent survives.
  lock : watermark.locked = (lastPrecommit votes).bind (·.unlockQuorum)
  backed : ∀ lock, watermark.locked = some lock → lock.data.chunkId = chunkId ∧ lock.data.round ≤ watermark.round ∧
    ∃ intent, rows.intent lock.data.round .precommit = some intent ∧ intent.data = precommitOf lock.data ∧ intent.unlockQuorum = some lock
  held : ∀ intent, watermark.precommit = some intent → intent.unlockQuorum = watermark.locked

def Recorded (spec : Hash) (identity : Key) (chunkId floor : Nat) (rows : VoteRows Hash Key Sig) (votes : List (Payload Hash Sig)) : Prop :=
  match rows.watermark with
  | none => votes = [] ∨ chunkId < floor
  | some watermark => Tracked spec identity chunkId rows watermark votes

theorem lastPrecommit_precommit (phase : intent.data.phase = .precommit) : lastPrecommit (votes++[.value intent]) = some intent := by
  simp [lastPrecommit,Payload.precommit?,phase]

theorem lastPrecommit_other (other : vote.precommit? = none) : lastPrecommit (votes++[vote]) = lastPrecommit votes := by
  simp [lastPrecommit,other]

theorem lastPrecommit_mem (found : lastPrecommit votes = some intent) : .value intent ∈ votes ∧ intent.data.phase = .precommit := by
  obtain ⟨vote,member,same⟩ := List.mem_filterMap.mp (List.mem_of_getLast? found)
  cases vote with
  | nilVote data index => cases same
  | value other =>
    simp only [Payload.precommit?,Option.ite_none_right_eq_some,Option.some.injEq] at same
    obtain ⟨phase,rfl⟩ := same
    exact ⟨member,phase⟩

theorem fresh_tracked (spec : Hash) (identity : Key) (chunkId round : Nat) (rows : VoteRows Hash Key Sig) :
    Tracked spec identity chunkId rows ⟨spec,identity,chunkId,round,none,none,none⟩ [] := by
  refine ⟨⟨rfl,rfl,rfl⟩,by simp,by simp,by simp,?_,rfl,by simp,by simp⟩
  intro phase intent present
  cases phase <;> cases present

variable [DecidableEq Hash] [DecidableEq Key] [DecidableEq Sig] {crypto : Crypto Hash Key Sig}
  {engine after : Engine Hash Key Sig} {voter : ProposerKey Key} {prior watermark : VoteWatermark Hash Key Sig}

theorem Loaded.tracked (loaded : Loaded crypto engine identity chunkId round prior) (above : engine.floor ≤ chunkId)
    (recorded : Recorded spec identity chunkId engine.floor (rowsOf engine.journal identity chunkId) votes)
    (chain : spec = engine.domain.chainSpecHash) : Tracked spec identity chunkId (rowsOf engine.journal identity chunkId) prior votes := by
  cases loaded with
  | fresh absent =>
    have none : (rowsOf engine.journal identity chunkId).watermark = none := absent
    simp only [Recorded,none] at recorded
    rcases recorded with rfl | below
    · exact chain ▸ fresh_tracked ..
    · omega
  | stored present _ _ _ =>
    have some : (rowsOf engine.journal identity chunkId).watermark = some prior := present
    simpa only [Recorded,some] using recorded

theorem ValueReserved.agrees (reserved : ValueReserved crypto engine voter intent prior watermark after)
    (tracked : Tracked spec voter.publicKey intent.data.chunkId (rowsOf engine.journal voter.publicKey intent.data.chunkId) prior votes)
    (member : vote ∈ votes) : vote.round ≤ intent.data.round ∧
      (vote.round = intent.data.round → vote.phase = intent.data.phase → vote = .value intent) := by
  have bound := tracked.reached vote member
  rcases advance_ok reserved.advanced with ⟨same,rfl⟩ | ⟨moved,_⟩
  · refine ⟨same ▸ bound,?_⟩
    intro atRound atPhase
    cases vote with
    | value other =>
      have stored := tracked.value other member (atRound.trans same.symm)
      rw [show other.data.phase = intent.data.phase from atPhase] at stored
      rw [reserved.free other stored]
    | nilVote data index =>
      have stored := tracked.nilVote data index member (atRound.trans same.symm)
      have absent := reserved.noNil
      rw [← show data.round = intent.data.round from atRound,← show data.phase = intent.data.phase from atPhase] at absent
      exact absurd (absent.symm.trans stored) (by simp)
  · exact ⟨by omega,fun atRound => by omega⟩

theorem NilReserved.agrees (reserved : NilReserved crypto engine voter data prior watermark after)
    (tracked : Tracked spec voter.publicKey data.chunkId (rowsOf engine.journal voter.publicKey data.chunkId) prior votes)
    (member : vote ∈ votes) : vote.round ≤ data.round ∧
      (vote.round = data.round → vote.phase = data.phase → vote = .nilVote data voter.validatorIndex) := by
  have bound := tracked.reached vote member
  rcases advance_ok reserved.advanced with ⟨same,rfl⟩ | ⟨moved,_⟩
  · refine ⟨same ▸ bound,?_⟩
    intro atRound atPhase
    cases vote with
    | value other =>
      have entry := tracked.value other member (atRound.trans same.symm)
      obtain ⟨_,_,_,stored⟩ := tracked.entries _ _ entry
      have absent := reserved.noValue
      rw [← same,← show other.data.phase = data.phase from atPhase] at absent
      exact absurd (absent.symm.trans stored) (by simp)
    | nilVote other index =>
      have stored := tracked.nilVote other index member (atRound.trans same.symm)
      rw [show other.round = data.round from atRound,show other.phase = data.phase from atPhase] at stored
      have equal := reserved.free _ stored
      simp only [NilIntent.mk.injEq,true_and] at equal
      rw [equal.2.1,equal.2.2]
  · exact ⟨by omega,fun atRound => by omega⟩

theorem reserve_bound (watermark : VoteWatermark Hash Key Sig) (intent : VoteIntent Hash Sig) : (watermark.reserve intent).spec = watermark.spec ∧
    (watermark.reserve intent).identity = watermark.identity ∧ (watermark.reserve intent).chunkId = watermark.chunkId ∧
    (watermark.reserve intent).round = watermark.round := by
  unfold VoteWatermark.reserve
  cases intent.data.phase <;> exact ⟨rfl,rfl,rfl,rfl⟩

theorem reserve_entry : (watermark.reserve intent).entry phase =
    if phase = intent.data.phase then some intent else watermark.entry phase := by
  unfold VoteWatermark.reserve
  cases intent.data.phase <;> cases phase <;> rfl

theorem reserve_locked : (watermark.reserve intent).locked =
    if intent.data.phase = .precommit then intent.unlockQuorum else watermark.locked := by
  unfold VoteWatermark.reserve
  cases intent.data.phase <;> rfl

theorem UnlockValid.precommit (valid : UnlockValid crypto engine intent locked)
    (phase : intent.data.phase = .precommit) : ∃ unlock, intent.unlockQuorum = some unlock ∧
      unlock.data.chunkId = intent.data.chunkId ∧ unlock.data.round = intent.data.round ∧ intent.data = precommitOf unlock.data := by
  obtain ⟨unlock,carried,round⟩ := valid.current phase
  obtain ⟨⟨chunk,target,_⟩,_⟩ := (verify_unlock_ok crypto).mp (valid.verified unlock carried)
  refine ⟨unlock,carried,chunk,round,?_⟩
  rw [precommitOf,chunk,target,round,← phase]

section
variable {intent : VoteIntent Hash Sig} {spec : Hash} {votes : List (Payload Hash Sig)}
  (reserved : ValueReserved crypto engine voter intent prior watermark after)
  (tracked : Tracked spec voter.publicKey intent.data.chunkId (rowsOf engine.journal voter.publicKey intent.data.chunkId) prior votes)
include reserved tracked

theorem ValueReserved.entries (present : (watermark.reserve intent).entry phase = some entry) :
    entry.data.chunkId = intent.data.chunkId ∧ entry.data.round = intent.data.round ∧ entry.data.phase = phase ∧
      (rowsOf after.journal voter.publicKey intent.data.chunkId).intent intent.data.round phase = some entry := by
  rw [reserve_entry] at present
  by_cases same : phase = intent.data.phase
  · subst same
    rw [if_pos rfl] at present
    cases present
    exact ⟨rfl,rfl,rfl,reserved.intent_row⟩
  · rw [if_neg same] at present
    rcases advance_ok reserved.advanced with ⟨stay,rfl⟩ | ⟨_,rfl⟩
    · obtain ⟨chunk,round,placed,stored⟩ := tracked.entries _ _ present
      refine ⟨chunk,round.trans stay,placed,?_⟩
      rw [reserved.intent_kept (fun both => same both.2),← stay]
      · exact stored
      · rintro (⟨_,moved,_⟩ | ⟨precommit,alike,_⟩)
        · omega
        · exact same (precommit.trans alike.symm)
    · cases phase <;> cases present

theorem ValueReserved.backed (chosen : (watermark.reserve intent).locked = some lock) :
    lock.data.chunkId = intent.data.chunkId ∧ lock.data.round ≤ intent.data.round ∧
      ∃ stored, (rowsOf after.journal voter.publicKey intent.data.chunkId).intent lock.data.round .precommit = some stored ∧
        stored.data = precommitOf lock.data ∧ stored.unlockQuorum = some lock := by
  rw [reserve_locked] at chosen
  split at chosen
  · rename_i precommit
    obtain ⟨unlock,carried,chunk,round,shape⟩ := reserved.unlock.precommit precommit
    cases chosen.symm.trans carried
    refine ⟨chunk,Nat.le_of_eq round,intent,?_,shape,carried⟩
    rw [round,← precommit]
    exact reserved.intent_row
  · -- A prevote keeps the lock, and neither deletion rule reaches its intent.
    rename_i prevote
    rw [advance_locked reserved.advanced] at chosen
    obtain ⟨chunk,bound,stored,row,shape,carried⟩ := tracked.backed lock chosen
    have ordered : prior.round ≤ intent.data.round := by
      rcases advance_ok reserved.advanced with ⟨stay,_⟩ | ⟨moved,_⟩ <;> omega
    refine ⟨chunk,Nat.le_trans bound ordered,stored,?_,shape,carried⟩
    rw [reserved.intent_kept (fun both => prevote both.2.symm)]
    · exact row
    · rintro (⟨left,_,unlocked⟩ | ⟨_,precommit,_⟩)
      · exact unlocked rfl lock chosen left
      · exact prevote precommit

theorem ValueReserved.keeps : Tracked spec voter.publicKey intent.data.chunkId
    (rowsOf after.journal voter.publicKey intent.data.chunkId) (watermark.reserve intent) (votes++[.value intent]) := by
  have round : watermark.round = intent.data.round := advance_round reserved.advanced
  have reserveRound : (watermark.reserve intent).round = intent.data.round := (reserve_bound watermark intent).2.2.2.trans round
  have earlier : ∀ vote ∈ votes, vote.round = intent.data.round → prior = watermark := by
    intro vote member placed
    rcases advance_ok reserved.advanced with ⟨_,same⟩ | ⟨moved,_⟩
    · exact same.symm
    · have := tracked.reached vote member; omega
  refine ⟨?_,?_,?_,?_,?_,?_,?_,?_⟩
  · obtain ⟨spec,identity,chunk,_⟩ := reserve_bound watermark intent
    rw [spec,identity,chunk]
    rcases advance_ok reserved.advanced with ⟨_,rfl⟩ | ⟨_,rfl⟩ <;> exact tracked.bound
  · intro vote member
    rw [reserveRound]
    rcases List.mem_append.mp member with old | new
    · exact (reserved.agrees tracked old).1
    · rw [List.mem_singleton.mp new]; exact Nat.le_refl _
  · intro entry member placed
    rw [reserveRound] at placed
    rw [reserve_entry]
    rcases List.mem_append.mp member with old | new
    · split
      · rename_i same
        have equal := (reserved.agrees tracked old).2 placed same
        cases equal
        rfl
      · have unmoved := earlier _ old placed
        subst unmoved
        exact tracked.value entry old (placed.trans round.symm)
    · cases List.mem_singleton.mp new
      rw [if_pos rfl]
  · intro data index member placed
    rw [reserveRound] at placed
    rcases List.mem_append.mp member with old | new
    · have unmoved := earlier _ old placed
      subst unmoved
      rw [reserved.nil_kept (by omega)]
      exact tracked.nilVote data index old (placed.trans round.symm)
    · cases List.mem_singleton.mp new
  · intro phase entry present
    rw [reserveRound]
    exact reserved.entries tracked present
  · rw [reserve_locked]
    split
    · rename_i precommit
      rw [lastPrecommit_precommit precommit]
      rfl
    · rename_i prevote
      rw [lastPrecommit_other (by simp [Payload.precommit?,prevote]),advance_locked reserved.advanced]
      exact tracked.lock
  · intro lock chosen
    rw [reserveRound]
    exact reserved.backed tracked chosen
  · intro entry present
    have atEntry : (watermark.reserve intent).entry .precommit = some entry := present
    rw [reserve_entry] at atEntry
    rw [reserve_locked]
    split at atEntry
    · rename_i precommit
      cases atEntry
      rw [if_pos precommit.symm]
    · rename_i prevote
      rw [if_neg (fun precommit => prevote precommit.symm)]
      rcases advance_ok reserved.advanced with ⟨_,rfl⟩ | ⟨_,rfl⟩
      · exact tracked.held entry atEntry
      · cases atEntry
end
section
variable {spec : Hash} {votes : List (Payload Hash Sig)} (reserved : NilReserved crypto engine voter data prior watermark after)
  (tracked : Tracked spec voter.publicKey data.chunkId (rowsOf engine.journal voter.publicKey data.chunkId) prior votes)
include reserved tracked

theorem NilReserved.backed (chosen : watermark.locked = some lock) : lock.data.chunkId = data.chunkId ∧ lock.data.round ≤ data.round ∧
      ∃ stored, (rowsOf after.journal voter.publicKey data.chunkId).intent lock.data.round .precommit = some stored ∧
        stored.data = precommitOf lock.data ∧ stored.unlockQuorum = some lock := by
  have before := chosen
  rw [advance_locked reserved.advanced] at before
  obtain ⟨chunk,bound,stored,row,shape,carried⟩ := tracked.backed lock before
  have ordered : prior.round ≤ data.round := by
    rcases advance_ok reserved.advanced with ⟨stay,_⟩ | ⟨moved,_⟩ <;> omega
  refine ⟨chunk,Nat.le_trans bound ordered,stored,?_,shape,carried⟩
  rw [reserved.intent_kept (fun same _ => ⟨rfl,lock,chosen,same⟩)]
  exact row

theorem NilReserved.keeps (chain : spec = engine.domain.chainSpecHash) : Tracked spec voter.publicKey data.chunkId
    (rowsOf after.journal voter.publicKey data.chunkId) watermark (votes++[.nilVote data voter.validatorIndex]) := by
  have round : watermark.round = data.round := advance_round reserved.advanced
  have earlier : ∀ vote ∈ votes, vote.round = data.round → prior = watermark := by
    intro vote member placed
    rcases advance_ok reserved.advanced with ⟨_,same⟩ | ⟨moved,_⟩
    · exact same.symm
    · have := tracked.reached vote member; omega
  refine ⟨?_,?_,?_,?_,?_,?_,?_,?_⟩
  · rcases advance_ok reserved.advanced with ⟨_,rfl⟩ | ⟨_,rfl⟩ <;> exact tracked.bound
  · intro vote member
    rw [round]
    rcases List.mem_append.mp member with old | new
    · exact (reserved.agrees tracked old).1
    · rw [List.mem_singleton.mp new]; exact Nat.le_refl _
  · intro entry member placed
    rcases List.mem_append.mp member with old | new
    · have unmoved := earlier _ old (placed.trans round)
      subst unmoved
      exact tracked.value entry old placed
    · cases List.mem_singleton.mp new
  · intro other index member placed
    rw [round] at placed
    rcases List.mem_append.mp member with old | new
    · by_cases same : other.phase = data.phase
      · cases (reserved.agrees tracked old).2 placed same
        rw [reserved.nil_row,chain]
      · have unmoved := earlier _ old placed
        subst unmoved
        rw [reserved.nil_kept (fun both => same both.2) (by omega)]
        exact tracked.nilVote other index old (placed.trans round.symm)
    · cases List.mem_singleton.mp new
      rw [reserved.nil_row,chain]
  · intro phase entry present
    rcases advance_ok reserved.advanced with ⟨stay,rfl⟩ | ⟨_,rfl⟩
    · obtain ⟨chunk,placed,phase,stored⟩ := tracked.entries _ _ present
      refine ⟨chunk,placed,phase,?_⟩
      rw [reserved.intent_kept (fun _ moved => by omega)]
      exact stored
    · cases phase <;> cases present
  · rw [lastPrecommit_other rfl,advance_locked reserved.advanced]
    exact tracked.lock
  · intro lock chosen
    rw [round]
    exact reserved.backed tracked chosen
  · intro entry present
    rcases advance_ok reserved.advanced with ⟨_,rfl⟩ | ⟨_,rfl⟩
    · exact tracked.held entry present
    · cases present
end

theorem Recorded.floor_mono (recorded : Recorded spec identity chunkId floor rows votes)
    (grown : floor ≤ later) : Recorded spec identity chunkId later rows votes := by
  cases present : rows.watermark with
  | none =>
    simp only [Recorded,present] at recorded ⊢
    rcases recorded with empty | below
    · exact .inl empty
    · exact .inr (Nat.lt_of_lt_of_le below grown)
  | some watermark => simpa only [Recorded,present] using recorded

def Journaled (labels : List (Label Hash Key Sig)) (engine : Engine Hash Key Sig) : Prop :=
  ∀ identity chunkId, Recorded engine.domain.chainSpecHash identity chunkId engine.floor
    (rowsOf engine.journal identity chunkId) (votesOf (history labels) identity chunkId)

theorem initial_journaled (fresh : engine.journal = empty) : Journaled [] engine := by
  intro identity chunkId
  unfold Recorded rowsOf
  rw [fresh]
  exact .inl rfl

theorem votes_snoc (reservations : List (Reservation Hash Key Sig)) (owner : Key) (payload : Payload Hash Sig) :
    votesOf (reservations++[⟨owner,payload⟩]) identity chunkId =
      votesOf reservations identity chunkId ++ if owner = identity ∧ payload.chunkId = chunkId then [payload] else [] := by
  by_cases here : owner = identity ∧ payload.chunkId = chunkId <;> simp [votesOf,here]

theorem history_reserved (made : label.reservation = some reservation) : history (labels++[label]) = history labels ++ [reservation] := by
  simp [history,made]

theorem history_silent (silent : label.reservation = none) : history (labels++[label]) = history labels := by
  simp [history,silent]

theorem Journaled.tracked (journaled : Journaled labels engine)
    (loaded : Loaded crypto engine identity chunkId round prior) (above : engine.floor ≤ chunkId) :
    Tracked engine.domain.chainSpecHash identity chunkId (rowsOf engine.journal identity chunkId) prior
      (votesOf (history labels) identity chunkId) :=
  loaded.tracked above (journaled identity chunkId) rfl

theorem reservation_journaled {payload : Payload Hash Sig} (journaled : Journaled labels engine)
    (made : label.reservation = some ⟨owner,payload⟩) (written : after = engine.write ops)
    (elsewhere : ∀ identity chunkId, ¬(identity = owner ∧ chunkId = payload.chunkId) →
      rowsOf after.journal identity chunkId = rowsOf engine.journal identity chunkId)
    (mark : (rowsOf after.journal owner payload.chunkId).watermark = some watermark)
    (tracked : Tracked engine.domain.chainSpecHash owner payload.chunkId (rowsOf after.journal owner payload.chunkId) watermark
      (votesOf (history labels) owner payload.chunkId ++ [payload])) : Journaled (labels++[label]) after := by
  have chain : after.domain = engine.domain := by rw [written]; rfl
  have floor : after.floor = engine.floor := by rw [written]; rfl
  intro identity chunkId
  rw [chain,floor,history_reserved made]
  by_cases here : owner = identity ∧ payload.chunkId = chunkId
  · obtain ⟨rfl,rfl⟩ := here
    rw [votes_snoc,if_pos ⟨rfl,rfl⟩]
    simp only [Recorded,mark]
    exact tracked
  · rw [votes_snoc,if_neg here,List.append_nil,elsewhere identity chunkId fun same => here ⟨same.1.symm,same.2.symm⟩]
    exact journaled identity chunkId

theorem value_journaled (journaled : Journaled labels engine) (reserved : ValueReserved crypto engine voter intent prior watermark after)
    (made : label.reservation = some ⟨voter.publicKey,.value intent⟩) : Journaled (labels++[label]) after := by
  have tracked := journaled.tracked reserved.loaded reserved.above
  refine reservation_journaled journaled made reserved.written (fun identity chunkId => ?_) reserved.watermark_row (reserved.keeps tracked)
  exact reserved.elsewhere fun lock held => (tracked.backed lock held).1

theorem framed_journaled (journaled : Journaled labels engine) (silent : label.reservation = none)
    (chain : after.domain = engine.domain) (grown : engine.floor ≤ after.floor)
    (framed : ∀ identity chunkId, rowsOf after.journal identity chunkId = rowsOf engine.journal identity chunkId) :
    Journaled (labels++[label]) after := by
  intro identity chunkId
  rw [chain,history_silent silent,framed]
  exact (journaled identity chunkId).floor_mono grown

theorem performed_journaled (journaled : Journaled labels engine) (performed : Performed crypto engine request after)
    (made : label.reservation = request.reservation) : Journaled (labels++[label]) after := by
  cases performed with
  | value reserved => exact value_journaled journaled reserved made
  | nilVote reserved =>
    exact reservation_journaled journaled made reserved.written (fun _ _ => reserved.elsewhere) reserved.watermark_row
      (reserved.keeps (journaled.tracked reserved.loaded reserved.above) rfl)
  | bftProposal reserved | roundChange reserved | blockProposal reserved =>
    refine framed_journaled journaled made ?_ ?_ (fun _ _ => reserved.rows) <;> rw [reserved.written]
    · rfl
    · exact Nat.le_refl _

theorem cleanup_journaled (journaled : Journaled labels engine) (expired : engine.expiredSigningEntries = .ok after)
    (silent : label.reservation = none) : Journaled (labels++[label]) after := by
  simp only [Engine.expiredSigningEntries,bind_ok,pure_ok] at expired
  obtain ⟨floor,read,rfl⟩ := expired
  cases floor_ok read
  intro identity chunkId
  rw [history_silent silent]
  by_cases below : chunkId < engine.floor
  · simp only [Recorded,rowsOf,prune,JournalKey.chunk,Option.all_some,decide_eq_true_eq,Nat.not_le.mpr below,if_false]
    exact .inr below
  · have kept : rowsOf (prune (fun key => key.chunk.all (fun chunk => decide (engine.floor ≤ chunk))) engine.journal)
        identity chunkId = rowsOf engine.journal identity chunkId := by
      simp [rowsOf,prune,JournalKey.chunk,Nat.not_lt.mp below]
    have same := journaled identity chunkId
    rw [← kept] at same
    exact same

theorem step_journaled (journaled : Journaled labels engine) (step : Step crypto engine label after) :
    Journaled (labels++[label]) after := by
  cases step with
  | performed accepted | interrupted accepted => exact performed_journaled journaled (perform_ok accepted) rfl
  | refused _ => exact framed_journaled journaled rfl rfl (Nat.le_refl _) (fun _ _ => rfl)
  | cleanup expired => exact cleanup_journaled journaled expired rfl
  | environment chain _ journal grown =>
    exact framed_journaled journaled rfl chain grown (fun _ _ => by rw [journal])

theorem runs_journaled (fresh : start.journal = empty) (path : Runs (Step crypto) start labels engine) : Journaled labels engine :=
  path.invariant Journaled (initial_journaled fresh) (fun _ _ _ _ _ journaled step => step_journaled journaled step)
end Neutrino.Signing
