import Neutrino.Proving.Convictions
import Neutrino.Signing.Messages

-- The accountability rules against the journal: what the durable API signed over a
-- whole run, and the evidence it could be turned into.
namespace Neutrino.Signing
open Checks ColumnStore Consensus
open Chain (ConsensusConstants)
open Proving (SlashingEvidence HistoricalChunk EvidenceHost FactRequest EvidenceVerdict Answers DoubleVote authorizeEvidenceWith authorize_ok)
variable {Hash Key Sig : Type} {round : Nat} {crypto : Crypto Hash Key Sig}

def signedLog (crypto : Crypto Hash Key Sig) (domain : ConsensusDomain Hash) (labels : List (Label Hash Key Sig)) :
    List (Key × SigningMessage Hash Sig) := labels.flatMap (Label.signed crypto domain)

theorem signed_request (logged : (key,message) ∈ signedLog crypto domain labels) :
    ∃ request floor artifact, .performed request floor artifact ∈ labels ∧ request.identity = key ∧
      message ∈ request.messages crypto domain := by
  obtain ⟨label,member,signed⟩ := List.mem_flatMap.mp logged
  cases label with
  | performed request floor artifact =>
    obtain ⟨message,sent,same⟩ := List.mem_map.mp signed
    cases same
    exact ⟨request,floor,artifact,member,rfl,sent⟩
  | interrupted _ _ | refused _ _ | cleanup | environment => cases signed

section
attribute [local simp] Request.messages FinalityVoteData.signingMessage NilVoteData.signingMessage
  BftProposal.signingMessage RoundChange.signingMessage

theorem reserved_of_performed (member : Label.performed request floor artifact ∈ labels)
    (made : request.reservation = some reservation) : reservation ∈ history labels :=
  List.mem_filterMap.mpr ⟨_,member,made⟩

theorem signed_vote (logged : (key,.vote domain data) ∈ signedLog crypto domain labels) :
    ∃ intent, ⟨key,.value intent⟩ ∈ history labels ∧ intent.data = data := by
  obtain ⟨request,floor,artifact,member,rfl,sent⟩ := signed_request logged
  cases request with
  | value voter data proofHashes unlockQuorum =>
    simp at sent
    exact ⟨_,reserved_of_performed member rfl,sent.symm⟩
  | nilVote _ _ | bftProposal _ _ | roundChange _ _ | blockProposal _ _ => simp at sent

theorem signed_attestation (logged : (key,.voteAttestation domain index vote signature proofs unlock) ∈ signedLog crypto domain labels) :
    ⟨key,.value ⟨vote,index,proofs,unlock⟩⟩ ∈ history labels := by
  obtain ⟨request,floor,artifact,member,rfl,sent⟩ := signed_request logged
  cases request with
  | value voter data proofHashes unlockQuorum =>
    simp at sent
    obtain ⟨rfl,rfl,_,rfl,rfl⟩ := sent
    exact reserved_of_performed member rfl
  | nilVote _ _ | bftProposal _ _ | roundChange _ _ | blockProposal _ _ => simp at sent

theorem signed_nil (logged : (key,.nilVote domain data) ∈ signedLog crypto domain labels) :
    ∃ index, ⟨key,.nilVote data index⟩ ∈ history labels := by
  obtain ⟨request,floor,artifact,member,rfl,sent⟩ := signed_request logged
  cases request with
  | nilVote voter data =>
    simp at sent
    exact ⟨_,sent ▸ reserved_of_performed member rfl⟩
  | value _ _ _ _ | bftProposal _ _ | roundChange _ _ | blockProposal _ _ => simp at sent

theorem signed_proposal {proposal : BftProposal Hash Sig} (logged : (key,proposal.signingMessage domain) ∈ signedLog crypto domain labels) :
    ⟨.proposal,key,proposal.chunk.chunkId,proposal.round,proposal.signingMessage domain⟩ ∈ rounds domain labels := by
  obtain ⟨request,floor,artifact,member,rfl,sent⟩ := signed_request logged
  cases request with
  | bftProposal voter other =>
    have same : proposal.signingMessage domain = other.signingMessage domain := by simpa [Request.messages] using sent
    have parts := same
    simp only [BftProposal.signingMessage,SigningMessage.bftProposal.injEq,true_and] at parts
    refine List.mem_filterMap.mpr ⟨_,List.mem_filterMap.mpr ⟨_,member,rfl⟩,?_⟩
    simp only [Request.roundReservation,Request.identity,same,parts.1,parts.2.1]
  | value _ _ _ _ | nilVote _ _ | roundChange _ _ | blockProposal _ _ => simp at sent

theorem signed_header {hash : Hash} (logged : (key,.proposer domain hash) ∈ signedLog crypto domain labels) :
    ∃ header, crypto.headerHash header = hash ∧ ⟨key,header.slot,hash⟩ ∈ blocks crypto labels := by
  obtain ⟨request,floor,artifact,member,rfl,sent⟩ := signed_request logged
  cases request with
  | blockProposal voter header =>
    have same : hash = crypto.headerHash header := by simpa [Request.messages] using sent
    refine ⟨header,same.symm,List.mem_filterMap.mpr ⟨_,List.mem_filterMap.mpr ⟨_,member,rfl⟩,?_⟩⟩
    simp only [Request.blockReservation,Request.identity,same]
  | value _ _ _ _ | nilVote _ _ | bftProposal _ _ | roundChange _ _ => simp at sent
end
variable [DecidableEq Hash] [DecidableEq Key] [DecidableEq Sig]

def AgreeAt (one two : Reservation Hash Key Sig) : Prop :=
  one.identity = two.identity → one.payload.chunkId = two.payload.chunkId → one.payload.round = two.payload.round →
    one.payload.phase = two.payload.phase → one.payload = two.payload

theorem one_payload (compatible : (history labels).Pairwise Compatible) {one two : Reservation Hash Key Sig}
    (first : one ∈ history labels) (second : two ∈ history labels) : AgreeAt one two := by
  have symmetric : Std.Symm (@AgreeAt Hash Key Sig) :=
    ⟨fun _ _ agree identity chunk round phase => (agree identity.symm chunk.symm round.symm phase.symm).symm⟩
  have pairs : (history labels).Pairwise AgreeAt :=
    compatible.imp fun agree identity chunk round phase => (agree identity chunk).2 round phase
  exact List.Pairwise.forall_of_forall (fun _ _ _ _ _ _ => rfl) pairs first second

theorem precommit_le_last {labels : List (Label Hash Key Sig)} (compatible : (history labels).Pairwise Compatible)
    (member : .value first ∈ votesOf (history labels) identity chunkId) (phase : first.data.phase = .precommit)
    (found : lastPrecommit (votesOf (history labels) identity chunkId) = some last) : first.data.round ≤ last.data.round := by
  have ordered : (votesOf (history labels) identity chunkId).Pairwise (fun one two => one.round ≤ two.round) := by
    refine compatible.filterMap _ ?_
    intro one two agree vote kept vote' kept'
    simp only [Option.ite_none_right_eq_some,Option.some.injEq] at kept kept'
    obtain ⟨⟨owner,chunk⟩,rfl⟩ := kept
    obtain ⟨⟨owner',chunk'⟩,rfl⟩ := kept'
    exact (agree (owner.trans owner'.symm) (chunk.trans chunk'.symm)).1
  have precommits : ((votesOf (history labels) identity chunkId).filterMap Payload.precommit?).Pairwise
      (fun one two => one.data.round ≤ two.data.round) := by
    refine ordered.filterMap _ ?_
    intro one two le intent kept intent' kept'
    cases one with
    | nilVote _ _ => cases kept
    | value one =>
      cases two with
      | nilVote _ _ => cases kept'
      | value two =>
        simp only [Payload.precommit?,Option.ite_none_right_eq_some,Option.some.injEq] at kept kept'
        rw [← kept.2,← kept'.2]
        exact le
  have inside : first ∈ (votesOf (history labels) identity chunkId).filterMap Payload.precommit? :=
    List.mem_filterMap.mpr ⟨_,member,by simp [Payload.precommit?,phase]⟩
  obtain ⟨earlier,split⟩ := List.getLast?_eq_some_iff.mp found
  rw [split] at precommits inside
  rcases List.mem_append.mp inside with old | new
  · exact (List.pairwise_append.mp precommits).2.2 _ old _ (List.mem_singleton_self _)
  · exact Nat.le_of_eq (congrArg (·.data.round) (List.mem_singleton.mp new))

-- A prevote for the locked target restates a quorum newer than every precommit for
-- another target.
def declaresUnlock (earlier : List (Label Hash Key Sig)) (label : Label Hash Key Sig) : Bool :=
  match label.reservation with
  | some ⟨identity,.value intent⟩ =>
    let precommits := (votesOf (history earlier) identity intent.data.chunkId).filterMap Payload.precommit?
    decide (intent.data.phase = .precommit) || precommits.getLast?.all (fun last => decide (last.data.chunkHash ≠ intent.data.chunkHash)) ||
      precommits.all (fun older => decide (older.data.chunkHash = intent.data.chunkHash) ||
        intent.unlockQuorum.any (fun unlock => decide (older.data.round < unlock.data.round)))
  | _ => true

def declaredAfter (earlier : List (Label Hash Key Sig)) : List (Label Hash Key Sig) → Bool
  | [] => true
  | label::rest => declaresUnlock earlier label && declaredAfter (earlier++[label]) rest

theorem declared_snoc (earlier labels : List (Label Hash Key Sig)) (label : Label Hash Key Sig) :
    declaredAfter earlier (labels++[label]) = (declaredAfter earlier labels && declaresUnlock (earlier++labels) label) := by
  induction labels generalizing earlier with
  | nil => simp [declaredAfter]
  | cons head rest ih => simp [declaredAfter,ih,Bool.and_assoc]

def JudgedStep (crypto : Crypto Hash Key Sig) (judged : Nat → List (Validator Hash Key)) (engine : Engine Hash Key Sig)
    (label : Label Hash Key Sig) (after : Engine Hash Key Sig) : Prop :=
  Step crypto engine label after ∧ ∀ identity intent, label.reservation = some ⟨identity,.value intent⟩ →
    engine.activeValidatorSet = judged intent.data.chunkId

-- The later vote carries an unlock that the lock rule accepts as honest.
def Excused (crypto : Crypto Hash Key Sig) (domain : ConsensusDomain Hash) (params : ConsensusParams)
    (judged : Nat → List (Validator Hash Key)) (older newer : Reservation Hash Key Sig) : Prop :=
  ∀ first later, older.payload = .value first → newer.payload = .value later → older.identity = newer.identity →
    first.data.chunkId = later.data.chunkId → first.data.phase = .precommit →
    first.data.chunkHash ≠ later.data.chunkHash → first.data.round < later.data.round →
    ∃ unlock, later.unlockQuorum = some unlock ∧ first.data.round < unlock.data.round ∧
      verifyUnlockUsing crypto domain (judged later.data.chunkId) later.data unlock params.prevoteFraction = .ok ()

theorem ValueReserved.newer_unlock {first later : VoteIntent Hash Sig} (journaled : Journaled labels engine)
    (justified : Justified crypto context labels) (compatible : (history labels).Pairwise Compatible)
    (reserved : ValueReserved crypto engine voter later prior watermark after)
    (made : label.reservation = some ⟨voter.publicKey,.value later⟩) (declared : declaresUnlock labels label = true)
    (member : ⟨voter.publicKey,.value first⟩ ∈ history labels) (chunk : first.data.chunkId = later.data.chunkId)
    (phase : first.data.phase = .precommit) (conflict : first.data.chunkHash ≠ later.data.chunkHash)
    (round : first.data.round < later.data.round) : ∃ unlock, later.unlockQuorum = some unlock ∧ first.data.round < unlock.data.round := by
  have vote : .value first ∈ votesOf (history labels) voter.publicKey later.data.chunkId :=
    List.mem_filterMap.mpr ⟨_,member,by simp [Payload.chunkId,chunk]⟩
  have precommit : first ∈ (votesOf (history labels) voter.publicKey later.data.chunkId).filterMap Payload.precommit? :=
    List.mem_filterMap.mpr ⟨_,vote,by simp [Payload.precommit?,phase]⟩
  by_cases own : later.data.phase = .precommit
  · obtain ⟨unlock,carried,same⟩ := reserved.unlock.current own
    exact ⟨unlock,carried,by omega⟩
  · obtain ⟨last,found⟩ : ∃ last, lastPrecommit (votesOf (history labels) voter.publicKey later.data.chunkId) = some last := by
      rw [← Option.isSome_iff_exists,lastPrecommit,List.getLast?_isSome]
      exact List.ne_nil_of_mem precommit
    by_cases locked : later.data.chunkHash = last.data.chunkHash
    · -- The journal's lock is on the vote's own target and asks for nothing.
      unfold lastPrecommit at found
      simp only [declaresUnlock,made,own,found,Option.all_some,locked,decide_false,Bool.false_or,ne_eq,not_true_eq_false,
        List.all_eq_true,Bool.or_eq_true,decide_eq_true_eq,Option.any_eq_true] at declared
      rcases declared first precommit with same | ⟨unlock,carried,newer⟩
      · exact absurd (same.trans locked.symm) conflict
      · exact ⟨unlock,carried,newer⟩
    · obtain ⟨unlock,carried,newer,_⟩ := reserved.lock_rule journaled justified found locked
      exact ⟨unlock,carried,Nat.lt_of_le_of_lt (precommit_le_last compatible vote phase found) newer⟩

theorem step_excused (fresh : start.journal = empty) (path : Runs (JudgedStep crypto judged) start labels engine)
    (excused : (history labels).Pairwise (Excused crypto start.domain start.params judged))
    (declared : declaresUnlock labels label = true) (step : JudgedStep crypto judged engine label after) :
    (history (labels++[label])).Pairwise (Excused crypto start.domain start.params judged) := by
  have run : Runs (Step crypto) start labels engine := path.mono (fun _ _ _ step => step.1)
  have context : engine.domain = start.domain ∧ engine.params = start.params :=
    run.invariant (fun _ engine => engine.domain = start.domain ∧ engine.params = start.params) ⟨rfl,rfl⟩
      fun _ _ _ _ _ same step => ⟨(step_context step).1.trans same.1,(step_context step).2.trans same.2⟩
  cases made : label.reservation with
  | none => rw [history_silent made]; exact excused
  | some newer =>
    rw [history_reserved made]
    refine List.pairwise_append.mpr ⟨excused,List.pairwise_singleton ..,?_⟩
    rintro ⟨identity,payload⟩ member last same first later rfl value owner chunk phase conflict round
    cases List.mem_singleton.mp same
    obtain ⟨request,performed,made',_⟩ := step_reserved step.1 made
    cases performed with
    | nilVote _ => cases made'; cases value
    | bftProposal _ | roundChange _ | blockProposal _ => cases made'
    | value reserved =>
      cases made'
      cases value
      cases owner
      have justified : Justified crypto (fun _ => True) labels :=
        (runs_justified trivial (fun _ _ _ _ _ => trivial) (fun _ _ _ step => step) run).2
      obtain ⟨unlock,carried,newer⟩ := reserved.newer_unlock (runs_journaled fresh run) justified
        (runs_compatible fresh run) made declared member chunk phase conflict round
      have verified := reserved.unlock.verified unlock carried
      rw [Engine.verifyBftUnlockQuorum,context.1,context.2,step.2 _ _ made] at verified
      exact ⟨unlock,carried,newer,verified⟩

theorem runs_excused (fresh : start.journal = empty) (path : Runs (JudgedStep crypto judged) start labels engine)
    (declared : declaredAfter [] labels = true) : (history labels).Pairwise (Excused crypto start.domain start.params judged) := by
  refine path.invariant (fun labels _ => declaredAfter [] labels = true →
    (history labels).Pairwise (Excused crypto start.domain start.params judged)) (fun _ => List.Pairwise.nil) ?_ declared
  intro labels middle label next prior excused step whole
  rw [declared_snoc,List.nil_append,Bool.and_eq_true] at whole
  exact step_excused fresh prior (excused whole.1) whole.2 step

theorem excused_later (compatible : (history labels).Pairwise Compatible)
    (excused : (history labels).Pairwise (Excused crypto domain params judged))
    (first : one ∈ history labels) (second : two ∈ history labels)
    (identity : one.identity = two.identity) (chunk : one.payload.chunkId = two.payload.chunkId)
    (round : one.payload.round < two.payload.round) : Excused crypto domain params judged one two := by
  have both := compatible.and excused
  obtain ⟨before,after,split⟩ := List.append_of_mem second
  rw [split] at both first
  rcases List.mem_append.mp first with old | rest
  · exact ((List.pairwise_append.mp both).2.2 _ old _ List.mem_cons_self).2
  · rcases List.mem_cons.mp rest with rfl | late
    · omega
    · have order := ((List.pairwise_cons.mp (List.pairwise_append.mp both).2.1).1 _ late).1 identity.symm chunk.symm
      omega

theorem authored (authentic : Authentic crypto (· = key) log signature)
    (valid : crypto.verify key message signature = true) : (key,message) ∈ log :=
  authentic.single key message rfl valid

theorem no_double_vote (compatible : (history labels).Pairwise Compatible) (double : DoubleVote crypto domain key voteA voteB)
    (authenticA : Authentic crypto (· = key) (signedLog crypto domain labels) voteA.signature)
    (authenticB : Authentic crypto (· = key) (signedLog crypto domain labels) voteB.signature) : False := by
  obtain ⟨one,first,same⟩ := signed_vote (authored authenticA double.first)
  obtain ⟨two,second,same'⟩ := signed_vote (authored authenticB double.second)
  obtain ⟨chunk,round,phase⟩ := double.position
  rw [← same,← same'] at chunk round phase
  cases one_payload compatible first second rfl chunk round phase
  exact double.conflict (by rw [← same,← same'])

theorem one_proposal {a b : BftProposal Hash Sig} (messages : MessagesJournaled crypto labels engine)
    (chain : engine.domain = domain) (first : (key,a.signingMessage domain) ∈ signedLog crypto domain labels)
    (second : (key,b.signingMessage domain) ∈ signedLog crypto domain labels)
    (chunk : a.chunk.chunkId = b.chunk.chunkId) (round : a.round = b.round) : a.chunk = b.chunk := by
  subst chain
  have equal := messages.single _ (signed_proposal first) _ (signed_proposal second) ⟨rfl,rfl,chunk,round⟩
  simp only [BftProposal.signingMessage,SigningMessage.bftProposal.injEq] at equal
  exact equal.2.1

theorem no_honest_conviction {host : EvidenceHost Hash Key Sig} {start : Engine Hash Key Sig} (fresh : start.journal = empty)
    (path : Runs (JudgedStep host.toCrypto judged) start labels final) (declared : declaredAfter [] labels = true)
    (slots : ∀ a b, host.headerHash a = host.headerHash b → a.slot = b.slot)
    {facts : (request : FactRequest Hash Key Sig) → EvidenceVerdict request}
    (answers : Answers host.toCrypto fun request => facts (.signed request)) (shared : params.toConsensusParams = start.params)
    (record : source.validators = judged source.chunk.chunkId) (classed : evidence.conflicting = some signatures)
    (authentic : ∀ signature ∈ signatures, Authentic host.toCrypto (· = key) (signedLog host.toCrypto start.domain labels) signature)
    (accused : validator.pubkey = key) :
    (authorizeEvidenceWith host params start.domain source root blockKey evidence).eval facts ≠ .ok (validator,penalty) := by
  intro accepted
  have run : Runs (Step host.toCrypto) start labels final := path.mono (fun _ _ _ step => step.1)
  have compatible := runs_compatible fresh run
  have messages := runs_messages run
  have chain : final.domain = start.domain :=
    run.invariant (fun _ engine => engine.domain = start.domain) rfl fun _ _ _ _ _ same step => (step_context step).1.trans same
  have proven := authorize_ok answers classed accepted
  rw [accused,shared] at proven
  cases proven with
  | proposals chunk round conflict first second =>
    cases classed
    simp only [List.forall_mem_cons] at authentic
    exact conflict (congrArg _ (one_proposal messages chain (authored authentic.1 first) (authored authentic.2.1 second) chunk round))
  | nilConflict chunk round phase first second =>
    cases classed
    simp only [List.forall_mem_cons] at authentic
    obtain ⟨intent,one,same⟩ := signed_vote (authored authentic.1 first)
    rw [← same] at chunk round phase
    obtain ⟨index,two⟩ := signed_nil (authored authentic.2.1 second)
    cases one_payload compatible one two rfl chunk round phase
  | headers slot conflict first second =>
    cases classed
    simp only [List.forall_mem_cons] at authentic
    obtain ⟨signedA,sameA,one⟩ := signed_header (authored authentic.1 first)
    obtain ⟨signedB,sameB,two⟩ := signed_header (authored authentic.2.1 second)
    exact conflict (messages.oneHash _ one _ two ⟨rfl,((slots _ _ sameA).trans slot).trans (slots _ _ sameB).symm⟩)
  | prevotes double | precommits double | forks double =>
    cases classed
    simp only [List.forall_mem_cons] at authentic
    exact no_double_vote compatible double authentic.1 authentic.2.1
  | lock phase chunk round conflict about signed vote attested dishonest =>
    cases classed
    simp only [List.forall_mem_cons] at authentic
    obtain ⟨first,one,same⟩ := signed_vote (authored authentic.1 signed)
    have two := signed_attestation (authored authentic.2.2.2.1 attested)
    rw [← same,← vote] at chunk round conflict
    rw [← same] at phase
    obtain ⟨unlock,carried,newer,verified⟩ := excused_later compatible (runs_excused fresh path declared) one two rfl chunk
      round _ _ rfl rfl rfl chunk phase conflict round
    refine dishonest unlock carried (same ▸ newer) ?_
    rw [record,about,← vote]
    exact verified

-- The accused has a tenth of the stake; signatures are numbered by what they sign.
def duoVote (round target : Nat) (phase : FinalityVotePhase) : FinalityVoteData Nat := ⟨0,round,target,phase⟩
def duoQuorum (round target : Nat) : QuorumCertificate Nat Nat := ⟨duoVote round target .prevote,⟨⟨[false,true]⟩,100*round+target⟩⟩

def duoLedger (unlock : Option (QuorumCertificate Nat Nat)) : List (SigningMessage Nat Nat) :=
  [.vote ⟨1,9⟩ (duoVote 1 50 .precommit), .voteAttestation ⟨1,9⟩ 0 (duoVote 1 50 .precommit) 1 [4] (some (duoQuorum 1 50)),
    .vote ⟨1,9⟩ (duoVote 3 51 .precommit),
    .voteAttestation ⟨1,9⟩ 0 (duoVote 3 51 .precommit) 3 [4] (some (duoQuorum 3 51)),
    .vote ⟨1,9⟩ (duoVote 4 51 .prevote),
    .voteAttestation ⟨1,9⟩ 0 (duoVote 4 51 .prevote) 5 [] unlock]

def duoCrypto (unlock : Option (QuorumCertificate Nat Nat)) : Crypto Nat Nat Nat where
  verify := fun key message signature => decide (key = 7 ∧ 0 < signature ∧ (duoLedger unlock)[signature-1]? = some message)
  aggregate := fun keys message signature => match message with
    | .vote domain data => decide (keys = [7] ∧ 0 < signature ∧ (duoLedger unlock)[signature-1]? = some (.vote domain data)) ||
        decide (keys = [8] ∧ domain = ⟨1,9⟩ ∧ data.chunkId = 0 ∧ data.phase = .prevote ∧ signature = 100*data.round+data.chunkHash)
    | _ => false
  sign := fun _ message => (duoLedger unlock).idxOf message + 1
  chunkHash := fun chunk => chunk.daRoot
  headerHash := fun header => header.slot
  commitment := fun _ => 0
  leaderOffset := fun _ _ _ => 0

def duoEngine : Engine Nat Nat Nat :=
  ⟨⟨1,9⟩,⟨1,2,3,2,3⟩,[⟨7,0,10,false,0,100,0⟩,⟨8,0,90,false,0,100,0⟩],none,none,empty⟩

-- Lock on 50 in round one, relock on 51 in round three, prevote 51 again.
def duoRequests (unlock : Option (QuorumCertificate Nat Nat)) : List (Request Nat Nat Nat) :=
  [.value ⟨7,0⟩ (duoVote 1 50 .precommit) [4] (some (duoQuorum 1 50)), .value ⟨7,0⟩ (duoVote 3 51 .precommit) [4] (some (duoQuorum 3 51)),
    .value ⟨7,0⟩ (duoVote 4 51 .prevote) [] unlock]

def duoLabels (unlock : Option (QuorumCertificate Nat Nat)) : List (Label Nat Nat Nat) :=
  (duoEngine.attempts (duoCrypto unlock) (duoRequests unlock)).2

def duoEvidence (unlock : Option (QuorumCertificate Nat Nat)) : SlashingEvidence Nat Nat :=
  .lockViolation 0 ⟨duoVote 1 50 .precommit,1⟩ ⟨duoVote 4 51 .prevote,5⟩ ⟨duoQuorum 1 50,⟨5,0,duoVote 4 51 .prevote,[],unlock,6⟩⟩

def duoChunk : Chunk Nat := ⟨0,1,1,0,0,0,0,0,0,0,0,0,50⟩
def duoRecord : HistoricalChunk Nat Nat Nat := ⟨duoChunk,duoEngine.activeValidatorSet,0,0,0,
  ⟨⟨duoChunk,0,0,none,none,0⟩,[],[],0,0,50,⟨⟨[]⟩,0⟩,⟨⟨[]⟩,0⟩,0⟩⟩

def duoParams : ConsensusConstants := ⟨duoEngine.params,1,1,1,1,1,0,1,1,1,1,1,1,1,1,1⟩

def duoHost (unlock : Option (QuorumCertificate Nat Nat)) : EvidenceHost Nat Nat Nat :=
  ⟨duoCrypto unlock,fun _ => 9,fun kind _ _ scope attempt => 100*kind+10*scope+attempt,fun _ => 4,fun _ => 0,fun _ => 0,fun _ => 0,
    fun _ => none,fun _ _ _ _ => true⟩

def duoFacts (unlock : Option (QuorumCertificate Nat Nat)) : (request : FactRequest Nat Nat Nat) → EvidenceVerdict request
  | .signed request => Proving.directly (duoCrypto unlock) request
  | .block _ _ => .ok false

theorem duo_authentic (made : (duoLedger unlock)[signature-1]? = some message) (logged : (7,message) ∈ log) :
    Authentic (duoCrypto unlock) (· = 7) log signature := by
  constructor
  · rintro key other rfl valid
    obtain ⟨_,_,same⟩ := of_decide_eq_true valid
    cases made.symm.trans same
    exact logged
  · rintro keys other key valid member rfl
    cases other with
    | vote =>
      rcases (Bool.or_eq_true _ _).mp valid with own | foreign
      · obtain ⟨_,_,same⟩ := of_decide_eq_true own
        cases made.symm.trans same
        exact logged
      · obtain ⟨rfl,_⟩ := of_decide_eq_true foreign
        simp at member
    | _ => cases valid

theorem duo_evidence_authentic (unlock : Option (QuorumCertificate Nat Nat)) (logged : ∀ message ∈ duoLedger unlock, (7,message) ∈ log) :
    ∀ signature ∈ [1,5,5,6], Authentic (duoCrypto unlock) (· = 7) log signature := by
  simp only [List.forall_mem_cons]
  refine ⟨?_,?_,?_,?_,fun _ none => by cases none⟩ <;> refine duo_authentic rfl (logged _ ?_) <;> simp [duoLedger]

def duoSources : Sources Nat Nat Nat := ⟨fun _ => some duoEngine.activeValidatorSet,fun _ => .ok ()⟩

-- The calls succeed, publication included, and what they signed convicts.
theorem relocked_prevote_convicts : Runs (FixedStep (duoCrypto none)) duoEngine (duoLabels none)
      (duoEngine.attempts (duoCrypto none) (duoRequests none)).1 ∧
    ((duoRequests none).foldlM (fun (engine : Engine Nat Nat Nat) request => (engine.call (duoCrypto none) duoSources request).map Prod.fst) duoEngine).isOk = true ∧
    (duoEvidence none).conflicting = some [1,5,5,6] ∧ (∀ signature ∈ [1,5,5,6],
      Authentic (duoCrypto none) (· = 7) (signedLog (duoCrypto none) duoEngine.domain (duoLabels none)) signature) ∧
    (authorizeEvidenceWith (duoHost none) duoParams duoEngine.domain duoRecord 0 0 (duoEvidence none)).eval (duoFacts none) =
      .ok (⟨7,0,10,false,0,100,0⟩,404) :=
  ⟨attempts_fixed ..,by decide +kernel,rfl,duo_evidence_authentic none (by decide +kernel),by decide +kernel⟩

theorem fixed_judged (path : Runs (FixedStep crypto) start labels engine) :
    Runs (JudgedStep crypto fun _ => start.activeValidatorSet) start labels engine ∧
      engine.activeValidatorSet = start.activeValidatorSet := by
  refine path.invariant (fun labels engine => Runs (JudgedStep crypto fun _ => start.activeValidatorSet) start labels engine ∧
    engine.activeValidatorSet = start.activeValidatorSet) ⟨.nil,rfl⟩ ?_
  rintro labels middle label next _ ⟨prior,set⟩ ⟨step,kept⟩
  exact ⟨.snoc prior ⟨step,fun _ _ _ => set⟩,kept.trans set⟩

theorem declared_prevote_safe : (history (duoLabels (some (duoQuorum 3 51)))).length = 3 ∧
    (authorizeEvidenceWith (duoHost (some (duoQuorum 3 51))) duoParams duoEngine.domain duoRecord 0 0
      (duoEvidence (some (duoQuorum 3 51)))).eval (duoFacts (some (duoQuorum 3 51))) ≠ .ok (⟨7,0,10,false,0,100,0⟩,404) :=
  ⟨by decide +kernel,no_honest_conviction rfl (fixed_judged (attempts_fixed duoEngine (duoRequests (some (duoQuorum 3 51))))).1
    (by decide +kernel) (fun _ _ same => same) (Proving.directly_answers _) rfl rfl rfl (duo_evidence_authentic _ (by decide +kernel)) rfl⟩
end Neutrino.Signing
