import Neutrino.Signing.LockSafety

-- One message per kind, chunk and round, one header hash per slot, over whole runs.
namespace Neutrino.Signing
open Checks ColumnStore Consensus

structure RoundReservation (Hash Key Sig : Type) where
  kind : MessageKind
  identity : Key
  chunkId : Nat
  round : Nat
  message : SigningMessage Hash Sig

structure BlockReservation (Hash Key : Type) where
  identity : Key
  slot : Nat
  hash : Hash

def RoundReservation.SameRound (one two : RoundReservation Hash Key Sig) : Prop :=
  one.kind = two.kind ∧ one.identity = two.identity ∧ one.chunkId = two.chunkId ∧ one.round = two.round

def BlockReservation.SameSlot (one two : BlockReservation Hash Key) : Prop := one.identity = two.identity ∧ one.slot = two.slot

variable {Hash Key Sig : Type} {round : Nat}

def Request.roundReservation (domain : ConsensusDomain Hash) : Request Hash Key Sig → Option (RoundReservation Hash Key Sig)
  | .bftProposal voter proposal =>
    some ⟨.proposal,voter.publicKey,proposal.chunk.chunkId,proposal.round,proposal.signingMessage domain⟩
  | .roundChange voter report =>
    some ⟨.roundChange,voter.publicKey,report.chunkId,report.round,report.signingMessage domain⟩
  | _ => none

def Request.blockReservation (crypto : Crypto Hash Key Sig) : Request Hash Key Sig → Option (BlockReservation Hash Key)
  | .blockProposal voter header => some ⟨voter.publicKey,header.slot,crypto.headerHash header⟩
  | _ => none

def Label.reserved : Label Hash Key Sig → Option (Request Hash Key Sig)
  | .performed request _ _ | .interrupted request _ => some request
  | _ => none

def rounds (domain : ConsensusDomain Hash) (labels : List (Label Hash Key Sig)) : List (RoundReservation Hash Key Sig) :=
  (labels.filterMap Label.reserved).filterMap (Request.roundReservation domain)

def blocks (crypto : Crypto Hash Key Sig) (labels : List (Label Hash Key Sig)) : List (BlockReservation Hash Key) :=
  (labels.filterMap Label.reserved).filterMap (Request.blockReservation crypto)

def VotePassed (engine : Engine Hash Key Sig) (identity : Key) (chunkId round : Nat) : Prop :=
  ∃ row, engine.journal (.voteWatermark identity chunkId) = some row ∧ round < row.round

def MessagePassed (engine : Engine Hash Key Sig) (kind : MessageKind) (identity : Key) (chunkId round : Nat) : Prop :=
  ∃ row, engine.journal (.messageWatermark kind identity chunkId) = some row ∧ round < row.round

-- Why a reserved round message can never be contradicted.
inductive RoundKept (engine : Engine Hash Key Sig) (entry : RoundReservation Hash Key Sig) : Prop where
  | final : entry.chunkId < engine.floor → RoundKept engine entry
  | stored : engine.journal (.roundMessage entry.kind entry.identity entry.chunkId entry.round) =
      some ⟨engine.domain.chainSpecHash,entry.identity,entry.message⟩ → RoundKept engine entry
  | superseded : MessagePassed engine entry.kind entry.identity entry.chunkId entry.round → RoundKept engine entry
  | passed : VotePassed engine entry.identity entry.chunkId entry.round → RoundKept engine entry

def BlockKept (engine : Engine Hash Key Sig) (entry : BlockReservation Hash Key) : Prop :=
  ∃ row, engine.journal (.proposerWatermark entry.identity) = some row ∧ entry.slot ≤ row.slot ∧
    (entry.slot = row.slot → entry.hash = row.hash)

theorem round_message_compacted (gone : JournalKey.roundMessage kind owner chunk round ∈ compactRoundIntents identity chunkId oldRound newRound lock) :
    owner = identity ∧ chunk = chunkId ∧ round < newRound := by
  unfold compactRoundIntents at gone
  by_cases moved : newRound ≤ oldRound
  · simp [moved] at gone
  · by_cases skipped : oldRound+1 < newRound <;> cases kind <;> simp [moved,skipped] at gone <;> grind

theorem unrelated_not_compacted (gone : key ∈ compactRoundIntents identity chunkId oldRound newRound lock) :
    (∀ kind owner chunk, key ≠ JournalKey.messageWatermark kind owner chunk) ∧ ∀ owner, key ≠ JournalKey.proposerWatermark owner := by
  unfold compactRoundIntents at gone
  split at gone
  · cases gone
  · constructor
    · rintro kind owner chunk rfl
      simp at gone
    · rintro owner rfl
      simp at gone

variable [DecidableEq Hash] [DecidableEq Key] [DecidableEq Sig] {start engine after : Engine Hash Key Sig}

-- What one performed request may do to the rows that bound round messages.
structure Advanced (engine after : Engine Hash Key Sig) : Prop where
  vote : ∀ identity chunkId round, VotePassed engine identity chunkId round → VotePassed after identity chunkId round
  message : ∀ kind identity chunkId round, MessagePassed engine kind identity chunkId round →
    MessagePassed after kind identity chunkId round
  row : ∀ kind identity chunkId round stored, engine.journal (.roundMessage kind identity chunkId round) = some stored →
    after.journal (.roundMessage kind identity chunkId round) = some stored ∨
      MessagePassed after kind identity chunkId round ∨ VotePassed after identity chunkId round

def JournalKey.isIntent : JournalKey Key → Bool
  | .voteIntent _ _ _ _ | .nilIntent _ _ _ _ => true
  | _ => false

theorem vote_advanced {dropped : List (JournalKey Key)} (intent : key.isIntent = true) (keptMark : ∀ owner chunk, JournalKey.voteWatermark owner chunk ∉ dropped)
    (keptMessage : ∀ kind owner chunk, JournalKey.messageWatermark kind owner chunk ∉ dropped)
    (stale : ∀ kind owner chunk round, JournalKey.roundMessage kind owner chunk round ∈ dropped →
      owner = identity ∧ chunk = chunkId ∧ round < next.round)
    (forward : ∀ prior, engine.journal (.voteWatermark identity chunkId) = some prior → prior.round ≤ next.round)
    (written : after = engine.write (dropped.map .delete ++ [.put (.voteWatermark identity chunkId) next,.put key intentRow])) :
    Advanced engine after := by
  have plain : ∀ other : JournalKey Key, other.isIntent = false → other ≠ key := by
    rintro other notIntent rfl
    rw [intent] at notIntent
    cases notIntent
  have mark : after.journal (.voteWatermark identity chunkId) = some next := by
    rw [written]
    exact write_first (plain _ rfl)
  refine ⟨?_,?_,?_⟩
  · rintro owner chunk round ⟨prior,present,later⟩
    by_cases same : JournalKey.voteWatermark owner chunk = .voteWatermark identity chunkId
    · cases same
      exact ⟨next,mark,Nat.lt_of_lt_of_le later (forward prior present)⟩
    · refine ⟨prior,?_,later⟩
      rw [written]
      exact (write_kept same (plain _ rfl) (keptMark _ _)).trans present
  · rintro kind owner chunk round ⟨prior,present,later⟩
    refine ⟨prior,?_,later⟩
    rw [written]
    exact (write_kept (by simp) (plain _ rfl) (keptMessage _ _ _)).trans present
  · intro kind owner chunk round stored present
    by_cases gone : JournalKey.roundMessage kind owner chunk round ∈ dropped
    · obtain ⟨rfl,rfl,earlier⟩ := stale _ _ _ _ gone
      exact .inr (.inr ⟨next,mark,earlier⟩)
    · left
      rw [written]
      exact (write_kept (by simp) (plain _ rfl) gone).trans present

theorem Loaded.forward (loaded : Loaded crypto engine identity chunkId round prior) (advanced : prior.advance round = .ok watermark)
    (present : engine.journal (.voteWatermark identity chunkId) = some row) : row.round ≤ round := by
  have reached : prior.round ≤ round := by
    rcases advance_ok advanced with ⟨same,_⟩ | ⟨moved,_⟩ <;> omega
  cases loaded with
  | fresh absent => rw [absent] at present; cases present
  | stored found _ _ _ => cases found.symm.trans present; exact reached

theorem ValueReserved.advances {intent : VoteIntent Hash Sig}
    (reserved : ValueReserved crypto engine voter intent prior watermark after) : Advanced engine after := by
  have round : (watermark.reserve intent).round = intent.data.round :=
    (reserve_bound watermark intent).2.2.2.trans (advance_round reserved.advanced)
  have compacted : ∀ key, key ∈ droppedByVote voter intent prior → key.isIntent = false →
      key ∈ compactRoundIntents voter.publicKey intent.data.chunkId prior.round intent.data.round prior.locked := by
    intro key gone plain
    rcases List.mem_append.mp gone with stale | replaced
    · exact stale
    · obtain ⟨_,_,_,_,rfl⟩ := superseded_mem.mp replaced
      cases plain
  refine vote_advanced rfl (fun _ _ => watermark_not_dropped) ?_ ?_ ?_ reserved.written
  · exact fun _ _ _ gone => (unrelated_not_compacted (compacted _ gone rfl)).1 _ _ _ rfl
  · intro kind owner chunk old gone
    rw [round]
    exact round_message_compacted (compacted _ gone rfl)
  · intro row present
    rw [round]
    exact reserved.loaded.forward reserved.advanced present

theorem NilReserved.advances {data : NilVoteData} (reserved : NilReserved crypto engine voter data prior watermark after) :
    Advanced engine after := by
  have round : watermark.round = data.round := advance_round reserved.advanced
  refine vote_advanced rfl (fun _ _ => watermark_not_compacted) ?_ ?_ ?_ reserved.written
  · exact fun _ _ _ gone => (unrelated_not_compacted gone).1 _ _ _ rfl
  · intro kind owner chunk old gone
    rw [round]
    exact round_message_compacted gone
  · intro row present
    rw [round]
    exact reserved.loaded.forward reserved.advanced present

theorem message_dropped_below (gone : key ∈ droppedByMessage engine kind identity chunkId round) :
    ∃ old, key = .roundMessage kind identity chunkId old ∧ old < round := by
  unfold droppedByMessage at gone
  split at gone
  · cases gone
  · split at gone
    · exact ⟨_,List.mem_singleton.mp gone,‹_›⟩
    · cases gone

theorem MessageReserved.advances (reserved : MessageReserved engine voter kind chunkId round message after) : Advanced engine after := by
  have mark : after.journal (.messageWatermark kind voter.publicKey chunkId) =
      some ⟨engine.domain.chainSpecHash,voter.publicKey,chunkId,round⟩ := by
    rw [reserved.written]
    exact write_first (by simp)
  have kept : ∀ key, (∀ old, key ≠ JournalKey.roundMessage kind voter.publicKey chunkId old) →
      key ∉ droppedByMessage engine kind voter.publicKey chunkId round := by
    intro key different gone
    obtain ⟨old,same⟩ := message_dropped gone
    exact different old same
  refine ⟨?_,?_,?_⟩
  · rintro owner chunk old ⟨prior,present,later⟩
    refine ⟨prior,?_,later⟩
    rw [reserved.written]
    exact (write_kept (by simp) (by simp) (kept _ (by simp))).trans present
  · rintro other owner chunk old ⟨prior,present,later⟩
    by_cases same : JournalKey.messageWatermark other owner chunk = .messageWatermark kind voter.publicKey chunkId
    · cases same
      exact ⟨_,mark,Nat.lt_of_lt_of_le later (reserved.notBelow prior present)⟩
    · refine ⟨prior,?_,later⟩
      rw [reserved.written]
      exact (write_kept same (by simp) (kept _ (by simp))).trans present
  · intro other owner chunk old stored present
    by_cases same : JournalKey.roundMessage other owner chunk old = .roundMessage kind voter.publicKey chunkId round
    · -- Writing the position again writes the same message.
      cases same
      left
      rw [reserved.written,reserved.free stored present]
      exact write_second
    · by_cases gone : JournalKey.roundMessage other owner chunk old ∈ droppedByMessage engine kind voter.publicKey chunkId round
      · obtain ⟨_,equal,earlier⟩ := message_dropped_below gone
        cases equal
        exact .inr (.inl ⟨_,mark,earlier⟩)
      · left
        rw [reserved.written]
        exact (write_kept (by simp) same gone).trans present

theorem BlockReserved.advances {hash : Hash} (reserved : BlockReserved engine voter slot hash after) : Advanced engine after := by
  refine ⟨?_,?_,?_⟩
  · rintro owner chunk round ⟨row,present,later⟩
    exact ⟨row,(reserved.other_key (by simp)).trans present,later⟩
  · rintro kind owner chunk round ⟨row,present,later⟩
    exact ⟨row,(reserved.other_key (by simp)).trans present,later⟩
  · intro kind owner chunk round stored present
    exact .inl ((reserved.other_key (by simp)).trans present)

theorem performed_advanced (performed : Performed crypto engine request after) : Advanced engine after := by
  cases performed with
  | value reserved | nilVote reserved | bftProposal reserved | roundChange reserved | blockProposal reserved =>
    exact reserved.advances

theorem RoundKept.carried (kept : RoundKept engine entry) (advanced : Advanced engine after)
    (chain : after.domain = engine.domain) (floor : engine.floor ≤ after.floor) : RoundKept after entry := by
  cases kept with
  | final below => exact .final (Nat.lt_of_lt_of_le below floor)
  | superseded passed => exact .superseded (advanced.message _ _ _ _ passed)
  | passed passed => exact .passed (advanced.vote _ _ _ passed)
  | stored present =>
    rcases advanced.row _ _ _ _ _ present with same | superseded | passed
    · exact .stored (chain ▸ same)
    · exact .superseded superseded
    · exact .passed passed

theorem MessageReserved.agrees (reserved : MessageReserved engine voter kind chunkId round message after) (kept : RoundKept engine entry)
    (same : entry.SameRound ⟨kind,voter.publicKey,chunkId,round,message⟩) : entry.message = message := by
  obtain ⟨sameKind,identity,chunk,placed⟩ := same
  simp only at sameKind identity chunk placed
  subst sameKind chunk placed
  cases kept with
  | final below => have := reserved.above; omega
  | superseded passed =>
    obtain ⟨row,present,later⟩ := passed
    rw [identity] at present
    have := reserved.notBelow row present
    omega
  | passed passed =>
    obtain ⟨row,present,later⟩ := passed
    rw [identity] at present
    have := reserved.notBehind row present
    omega
  | stored present =>
    rw [identity] at present
    exact congrArg MessageIntent.message (reserved.free _ present)

theorem MessageReserved.kept (reserved : MessageReserved engine voter kind chunkId round message after) :
    RoundKept after ⟨kind,voter.publicKey,chunkId,round,message⟩ := by
  refine .stored ?_
  rw [reserved.written]
  exact write_second

theorem BlockReserved.agrees {hash : Hash} (reserved : BlockReserved engine voter slot hash after) (kept : BlockKept engine entry)
    (position : entry.SameSlot ⟨voter.publicKey,slot,hash⟩) : entry.hash = hash := by
  obtain ⟨identity,placed⟩ := position
  simp only at identity placed
  obtain ⟨row,present,bound,same⟩ := kept
  rw [identity] at present
  obtain ⟨ordered,equal⟩ := reserved.free row present
  have top : slot = row.slot := by omega
  rw [same (placed.trans top),equal top]

theorem BlockReserved.row {hash : Hash} (reserved : BlockReserved engine voter slot hash after) :
    after.journal (.proposerWatermark voter.publicKey) = some ⟨engine.domain.chainSpecHash,voter.publicKey,slot,hash⟩ := by
  rw [reserved.written]
  exact put_apply_self ..

theorem BlockReserved.carries {hash : Hash} (reserved : BlockReserved engine voter slot hash after)
    (kept : BlockKept engine entry) : BlockKept after entry := by
  by_cases same : JournalKey.proposerWatermark entry.identity = .proposerWatermark voter.publicKey
  · have identity : entry.identity = voter.publicKey := by simpa using same
    have agreed : entry.slot = slot → entry.hash = hash := fun placed => reserved.agrees kept ⟨identity,placed⟩
    obtain ⟨row,present,bound,_⟩ := kept
    rw [identity] at present
    have ordered := (reserved.free row present).1
    exact ⟨_,identity ▸ reserved.row,Nat.le_trans bound ordered,agreed⟩
  · obtain ⟨row,present,rest⟩ := kept
    exact ⟨row,(reserved.other_key same).trans present,rest⟩

theorem performed_proposer (performed : Performed crypto engine request after) (other : request.blockReservation crypto = none) :
    after.journal (.proposerWatermark identity) = engine.journal (.proposerWatermark identity) := by
  cases performed with
  | value reserved =>
    rw [reserved.written]
    refine write_kept (by simp) (by simp) ?_
    intro gone
    rcases List.mem_append.mp gone with compacted | replaced
    · exact (unrelated_not_compacted compacted).2 _ rfl
    · obtain ⟨_,_,_,_,impossible⟩ := superseded_mem.mp replaced
      cases impossible
  | nilVote reserved =>
    rw [reserved.written]
    exact write_kept (by simp) (by simp) (fun gone => (unrelated_not_compacted gone).2 _ rfl)
  | bftProposal reserved | roundChange reserved =>
    rw [reserved.written]
    refine write_kept (by simp) (by simp) ?_
    intro gone
    obtain ⟨_,impossible⟩ := message_dropped gone
    cases impossible
  | blockProposal _ => cases other

theorem performed_round (performed : Performed crypto engine request after)
    (made : request.roundReservation engine.domain = some entry) : RoundKept after entry ∧
      ∀ old, RoundKept engine old → old.SameRound entry → old.message = entry.message := by
  cases performed with
  | value _ | nilVote _ | blockProposal _ => cases made
  | bftProposal reserved | roundChange reserved => cases made; exact ⟨reserved.kept,fun _ kept => reserved.agrees kept⟩

theorem performed_block (performed : Performed crypto engine request after)
    (made : request.blockReservation crypto = some entry) : BlockKept after entry ∧
      ∀ old, BlockKept engine old → old.SameSlot entry → old.hash = entry.hash := by
  cases performed with
  | value _ | nilVote _ | bftProposal _ | roundChange _ => cases made
  | blockProposal reserved =>
    cases made
    exact ⟨⟨_,reserved.row,Nat.le_refl _,fun _ => rfl⟩,fun _ kept => reserved.agrees kept⟩

theorem performed_block_kept (performed : Performed crypto engine request after) (kept : BlockKept engine entry) :
    BlockKept after entry := by
  cases made : request.blockReservation crypto with
  | none =>
    obtain ⟨row,present,rest⟩ := kept
    exact ⟨row,(performed_proposer performed made).trans present,rest⟩
  | some _ =>
    cases performed with
    | value _ | nilVote _ | bftProposal _ | roundChange _ => cases made
    | blockProposal reserved => exact reserved.carries kept

-- Entries at one position carry one content; a new entry joins if it agrees.
def OnePer (same : α → α → Prop) (content : α → β) (entries : List α) : Prop :=
  ∀ one ∈ entries, ∀ two ∈ entries, same one two → content one = content two

theorem OnePer.join (unique : OnePer same content entries) (symmetric : ∀ one two, same one two → same two one)
    (agrees : ∀ entry, newest = some entry → ∀ old ∈ entries, same old entry → content old = content entry) :
    OnePer same content (entries++newest.toList) := by
  intro one first two second position
  rcases List.mem_append.mp first with old | new <;> rcases List.mem_append.mp second with old' | new'
  · exact unique one old two old' position
  · exact agrees two (Option.mem_toList.mp new') one old position
  · exact (agrees one (Option.mem_toList.mp new) two old' (symmetric _ _ position)).symm
  · cases (Option.mem_toList.mp new).symm.trans (Option.mem_toList.mp new')
    rfl

theorem RoundReservation.SameRound.symm {one two : RoundReservation Hash Key Sig} (same : one.SameRound two) :
    two.SameRound one := ⟨same.1.symm,same.2.1.symm,same.2.2.1.symm,same.2.2.2.symm⟩

theorem BlockReservation.SameSlot.symm {one two : BlockReservation Hash Key} (same : one.SameSlot two) :
    two.SameSlot one := ⟨same.1.symm,same.2.symm⟩

-- Round messages and blocks of a whole history against the journal.
structure MessagesJournaled (crypto : Crypto Hash Key Sig) (labels : List (Label Hash Key Sig)) (engine : Engine Hash Key Sig) : Prop where
  kept : ∀ entry ∈ rounds engine.domain labels, RoundKept engine entry
  single : OnePer RoundReservation.SameRound RoundReservation.message (rounds engine.domain labels)
  blockKept : ∀ entry ∈ blocks crypto labels, BlockKept engine entry
  oneHash : OnePer BlockReservation.SameSlot BlockReservation.hash (blocks crypto labels)

theorem rounds_append (domain : ConsensusDomain Hash) (labels : List (Label Hash Key Sig)) (label : Label Hash Key Sig) :
    rounds domain (labels++[label]) = rounds domain labels ++ (label.reserved.bind (Request.roundReservation domain)).toList := by
  unfold rounds
  cases made : label.reserved with
  | none => simp [made]
  | some request => cases request <;> simp [made,Request.roundReservation]

theorem blocks_append (labels : List (Label Hash Key Sig)) (label : Label Hash Key Sig) :
    blocks crypto (labels++[label]) = blocks crypto labels ++ (label.reserved.bind (Request.blockReservation crypto)).toList := by
  unfold blocks
  cases made : label.reserved with
  | none => simp [made]
  | some request => cases request <;> simp [made,Request.blockReservation]

theorem performed_floor (performed : Performed crypto engine request after) : after.floor = engine.floor := by
  cases performed with
  | value reserved | nilVote reserved | bftProposal reserved | roundChange reserved | blockProposal reserved =>
    rw [reserved.written]; rfl

theorem performed_messages (journaled : MessagesJournaled crypto labels engine)
    (performed : Performed crypto engine request after) (made : label.reserved = some request) :
    MessagesJournaled crypto (labels++[label]) after := by
  have chain := (performed_context performed).1
  have floor := Nat.le_of_eq (performed_floor performed).symm
  refine ⟨?_,?_,?_,?_⟩
  · intro entry member
    rw [rounds_append,made,chain] at member
    rcases List.mem_append.mp member with old | new
    · exact (journaled.kept entry old).carried (performed_advanced performed) chain floor
    · exact (performed_round performed (Option.mem_toList.mp new)).1
  · rw [rounds_append,made,chain]
    refine journaled.single.join (fun _ _ same => same.symm) ?_
    intro entry reserves old member same
    exact (performed_round performed reserves).2 old (journaled.kept old member) same
  · intro entry member
    rw [blocks_append,made] at member
    rcases List.mem_append.mp member with old | new
    · exact performed_block_kept performed (journaled.blockKept entry old)
    · exact (performed_block performed (Option.mem_toList.mp new)).1
  · rw [blocks_append,made]
    refine journaled.oneHash.join (fun _ _ same => same.symm) ?_
    intro entry reserves old member same
    exact (performed_block performed reserves).2 old (journaled.blockKept old member) same

theorem framed_messages (journaled : MessagesJournaled crypto labels engine) (silent : label.reserved = none)
    (chain : after.domain = engine.domain) (rounds : ∀ entry, RoundKept engine entry → RoundKept after entry)
    (blocks : ∀ identity, after.journal (.proposerWatermark identity) = engine.journal (.proposerWatermark identity)) :
    MessagesJournaled crypto (labels++[label]) after := by
  refine ⟨?_,?_,?_,?_⟩
  · rw [rounds_append,silent,chain,Option.bind_none,Option.toList_none,List.append_nil]
    exact fun entry member => rounds entry (journaled.kept entry member)
  · rw [rounds_append,silent,chain,Option.bind_none,Option.toList_none,List.append_nil]
    exact journaled.single
  · rw [blocks_append,silent,Option.bind_none,Option.toList_none,List.append_nil]
    intro entry member
    unfold BlockKept
    rw [blocks]
    exact journaled.blockKept entry member
  · rw [blocks_append,silent,Option.bind_none,Option.toList_none,List.append_nil]
    exact journaled.oneHash

theorem cleanup_rounds (expired : engine.expiredSigningEntries = .ok after) (kept : RoundKept engine entry) : RoundKept after entry := by
  simp only [Engine.expiredSigningEntries,bind_ok,pure_ok] at expired
  obtain ⟨floor,read,rfl⟩ := expired
  cases floor_ok read
  by_cases below : entry.chunkId < engine.floor
  · exact .final below
  · have above : decide (engine.floor ≤ entry.chunkId) = true := decide_eq_true (Nat.not_lt.mp below)
    have same : ∀ key : JournalKey Key, key.chunk = some entry.chunkId →
        prune (fun key => key.chunk.all (fun chunkId => decide (engine.floor ≤ chunkId))) engine.journal key = engine.journal key := by
      intro key inChunk
      simp only [prune,inChunk,Option.all_some,above,if_true]
    cases kept with
    | final below => exact .final below
    | stored present => exact .stored ((same _ rfl).trans present)
    | superseded passed =>
      obtain ⟨row,present,later⟩ := passed
      exact .superseded ⟨row,(same _ rfl).trans present,later⟩
    | passed passed =>
      obtain ⟨row,present,later⟩ := passed
      exact .passed ⟨row,(same _ rfl).trans present,later⟩

theorem step_messages (journaled : MessagesJournaled crypto labels engine) (step : Step crypto engine label after) :
    MessagesJournaled crypto (labels++[label]) after := by
  cases step with
  | performed accepted | interrupted accepted => exact performed_messages journaled (perform_ok accepted) rfl
  | refused _ => exact framed_messages journaled rfl rfl (fun _ kept => kept) (fun _ => rfl)
  | cleanup expired =>
    refine framed_messages journaled rfl ?_ (fun _ kept => cleanup_rounds expired kept) ?_ <;>
      simp only [Engine.expiredSigningEntries,bind_ok,pure_ok] at expired <;> obtain ⟨_,_,rfl⟩ := expired
    · rfl
    · exact fun _ => rfl
  | environment chain _ journal grown =>
    refine framed_messages journaled rfl chain (fun entry kept => kept.carried ⟨?_,?_,?_⟩ chain grown) (fun _ => by rw [journal])
    · exact fun _ _ _ passed => by unfold VotePassed; rw [journal]; exact passed
    · exact fun _ _ _ _ passed => by unfold MessagePassed; rw [journal]; exact passed
    · exact fun _ _ _ _ _ present => .inl (by rw [journal]; exact present)

theorem runs_messages (path : Runs (Step crypto) start labels engine) : MessagesJournaled crypto labels engine := by
  refine path.invariant (MessagesJournaled crypto) ⟨?_,?_,?_,?_⟩ (fun _ _ _ _ _ journaled step => step_messages journaled step)
  all_goals
    intro _ member
    cases member
end Neutrino.Signing
