import Neutrino.Library.LockedVoting
import Neutrino.Consensus.Electorate
import Neutrino.Consensus.Finality
import Neutrino.Signing.LockSafety

-- Agreement of finality certificates over any interleaving of honest nodes.
namespace Neutrino.Signing
open Checks ColumnStore Consensus WeightedQuorum LockedVoting

-- Every honest key has its own engine; the log is what honest keys have signed.
structure Network (Hash Key Sig : Type) where
  nodes : Key → Engine Hash Key Sig
  log : List (Key × SigningMessage Hash Sig)

structure Network.Initial (domain : ConsensusDomain Hash) (params : ConsensusParams) (network : Network Hash Key Sig) : Prop where
  chain : ∀ key, (network.nodes key).domain = domain ∧ (network.nodes key).params = params
  fresh : ∀ key, (network.nodes key).journal = empty
  silent : network.log = []

variable {Hash Key Sig : Type} {round : Nat} [DecidableEq Hash] [DecidableEq Key] [DecidableEq Sig] (crypto : Crypto Hash Key Sig)
  (honest : Key → Prop) (chunkId : Nat) (validators : List (Validator Hash Key))

-- One node takes a step of its signing API, voting under the chunk's set, with a
-- justification made of signatures that exist by then.
inductive NetworkStep : Network Hash Key Sig → Key × Label Hash Key Sig → Network Hash Key Sig → Prop where
  | moves : honest key → Step crypto (network.nodes key) label after →
      (∀ request, label.request = some request → request.identity = key) →
      (∀ intent, label.reservation = some ⟨key,.value intent⟩ → intent.data.chunkId = chunkId →
        (network.nodes key).activeValidatorSet = validators ∧
        ∀ unlock, intent.unlockQuorum = some unlock → Authentic crypto honest network.log unlock.aggregate.signature) →
      NetworkStep network (key,label) ⟨Function.update network.nodes key after,network.log++label.signed crypto (network.nodes key).domain⟩

def labelsOf (key : Key) (labels : List (Key × Label Hash Key Sig)) : List (Label Hash Key Sig) :=
  labels.filterMap fun entry => if entry.1 = key then some entry.2 else none

def ballotOf (data : FinalityVoteData Hash) : Ballot Hash := ⟨data.round,decide (data.phase = .precommit),data.chunkHash⟩

def Payload.ballot? : Payload Hash Sig → Option (Ballot Hash)
  | .value intent => some (ballotOf intent.data)
  | .nilVote _ _ => none

def castBallot (entry : Key × Label Hash Key Sig) : Option (Key × Ballot Hash) := entry.2.reservation.bind fun reservation =>
    if reservation.identity = entry.1 ∧ reservation.payload.chunkId = chunkId then
      reservation.payload.ballot?.map (entry.1,·)
    else none

-- The value votes for the chunk, reserved by honest nodes, as abstract ballots.
def ballots (labels : List (Key × Label Hash Key Sig)) : List (Key × Ballot Hash) := labels.filterMap (castBallot chunkId)

variable {crypto honest chunkId validators} {start network final : Network Hash Key Sig} {labels : List (Key × Label Hash Key Sig)}

theorem labels_of_append (entry : Key × Label Hash Key Sig) : labelsOf key (labels++[entry]) =
    labelsOf key labels ++ (if entry.1 = key then [entry.2] else []) := by
  unfold labelsOf
  rw [List.filterMap_append]
  by_cases own : entry.1 = key <;> simp [own]

theorem node_runs (path : Runs (NetworkStep crypto honest chunkId validators) start labels network) (key : Key) :
    Runs (Step crypto) (start.nodes key) (labelsOf key labels) (network.nodes key) := by
  refine path.invariant (fun labels network => Runs (Step crypto) (start.nodes key) (labelsOf key labels) (network.nodes key)) .nil ?_
  rintro labels before ⟨mover,label⟩ _ _ prior (⟨correct,step,_,_⟩)
  rw [labels_of_append]
  by_cases own : mover = key
  · subst own
    simpa using Runs.snoc prior step
  · simpa [own,Function.update_of_ne (Ne.symm own)] using prior

theorem mem_ballots : (key,ballot) ∈ ballots chunkId labels ↔
    ∃ intent, .value intent ∈ votesOf (history (labelsOf key labels)) key chunkId ∧ ballotOf intent.data = ballot := by
  simp only [ballots,castBallot,votesOf,history,labelsOf,List.mem_filterMap,Option.bind_eq_some_iff,Option.ite_none_right_eq_some,
    Option.map_eq_some_iff,Prod.mk.injEq,Option.some.injEq]
  constructor
  · rintro ⟨⟨_,label⟩,member,⟨identity,payload⟩,made,⟨rfl,chunk⟩,_,shown,rfl,rfl⟩
    cases payload with
    | nilVote _ _ => cases shown
    | value intent =>
      cases shown
      exact ⟨intent,⟨_,⟨_,⟨_,member,rfl,rfl⟩,made⟩,⟨rfl,chunk⟩,rfl⟩,rfl⟩
  · rintro ⟨intent,⟨⟨identity,_⟩,⟨label,⟨⟨_,_⟩,member,rfl,rfl⟩,made⟩,⟨rfl,chunk⟩,rfl⟩,rfl⟩
    exact ⟨_,member,_,made,⟨rfl,chunk⟩,_,rfl,rfl,rfl⟩

theorem commits_ballots : commits (ballots chunkId labels) key =
    ((votesOf (history (labelsOf key labels)) key chunkId).filterMap Payload.precommit?).map (ballotOf ·.data) := by
  simp only [commits,ballots,castBallot,votesOf,history,labelsOf,List.filterMap_filterMap,List.map_filterMap]
  congr 1
  funext entry
  obtain ⟨mover,label⟩ := entry
  by_cases own : mover = key
  · subst own
    cases made : label.reservation with
    | none => simp [made]
    | some reservation =>
      obtain ⟨identity,payload⟩ := reservation
      by_cases counted : identity = mover ∧ payload.chunkId = chunkId
      · cases payload with
        | nilVote _ _ => simp [made,counted,Payload.ballot?,Payload.precommit?]
        | value intent =>
          by_cases phase : intent.data.phase = .precommit <;>
            simp [made,counted,Payload.ballot?,Payload.precommit?,ballotOf,phase]
      · simp [made,counted]
  · rcases label.reservation with _ | ⟨identity,payload⟩
    · simp [own]
    · by_cases counted : identity = mover ∧ payload.chunkId = chunkId
      · cases payload <;> simp [own,counted,Payload.ballot?]
      · simp [own,counted]

theorem cast_ballot_some {label : Label Hash Key Sig} : castBallot chunkId (key,label) = some entry ↔
    ∃ intent, label.reservation = some ⟨key,.value intent⟩ ∧ intent.data.chunkId = chunkId ∧ entry = (key,ballotOf intent.data) := by
  simp only [castBallot,Option.bind_eq_some_iff,Option.ite_none_right_eq_some,Option.map_eq_some_iff]
  constructor
  · rintro ⟨⟨identity,payload⟩,made,⟨rfl,chunk⟩,_,shown,rfl⟩
    cases payload with
    | nilVote _ _ => cases shown
    | value intent => cases shown; exact ⟨intent,made,chunk,rfl⟩
  · rintro ⟨intent,made,chunk,rfl⟩
    exact ⟨_,made,⟨rfl,chunk⟩,_,rfl,rfl⟩

theorem phase_of_commit {left right : FinalityVotePhase}
    (same : decide (left = .precommit) = decide (right = .precommit)) : left = right := by
  cases left <;> cases right <;> simp_all

theorem ValueReserved.allowed {engine after : Engine Hash Key Sig} {intent : VoteIntent Hash Sig}
    (journaled : Journaled (labelsOf voter.publicKey labels) engine)
    (justified : Justified crypto context (labelsOf voter.publicKey labels))
    (reserved : ValueReserved crypto engine voter intent prior watermark after) (chunk : intent.data.chunkId = chunkId)
    (set : engine.activeValidatorSet = validators) (chain : engine.domain = domain)
    (authentic : ∀ unlock, intent.unlockQuorum = some unlock → Authentic crypto honest log unlock.aggregate.signature)
    (logged : ∀ key data, (key,.vote domain data) ∈ log → data.chunkId = chunkId → (key,ballotOf data) ∈ ballots chunkId labels) :
    Allowed (seatStake validators) (unslashedSeats validators) (seatKey validators) honest (ballots chunkId labels)
      voter.publicKey (ballotOf intent.data) := by
  subst chunk
  have tracked := journaled.tracked reserved.loaded reserved.above
  refine ⟨?_,?_,?_⟩
  · intro older member
    obtain ⟨other,vote,rfl⟩ := mem_ballots.mp member
    exact (reserved.agrees tracked vote).1
  · intro older member round phase
    obtain ⟨other,vote,rfl⟩ := mem_ballots.mp member
    have same := (reserved.agrees tracked vote).2 round (phase_of_commit phase)
    cases same
    rfl
  · intro last found different
    rw [commits_ballots,List.getLast?_map] at found
    obtain ⟨precommit,last,rfl⟩ := Option.map_eq_some_iff.mp found
    obtain ⟨unlock,carried,newer,verified⟩ := reserved.lock_rule journaled justified last different
    obtain ⟨⟨sameChunk,target,_⟩,quorum⟩ := (verify_unlock_ok crypto).mp verified
    obtain ⟨phase,signed⟩ := verify_quorum_signed crypto quorum
    rw [set,chain] at signed
    obtain ⟨supermajority,backed⟩ := signed.supermajority (authentic unlock carried)
    refine ⟨unlock.data.round,newer,_,supermajority,?_⟩
    intro seat marked correct
    have cast := logged _ _ (backed seat marked correct) sameChunk
    simpa [ballotOf,phase,target] using cast

structure Mirrored (crypto : Crypto Hash Key Sig) (honest : Key → Prop) (chunkId : Nat)
    (validators : List (Validator Hash Key)) (domain : ConsensusDomain Hash) (labels : List (Key × Label Hash Key Sig))
    (network : Network Hash Key Sig) : Prop where
  logged : ∀ key data, (key,.vote domain data) ∈ network.log → data.chunkId = chunkId → (key,ballotOf data) ∈ ballots chunkId labels
  disciplined : Disciplined (seatStake validators) (unslashedSeats validators) (seatKey validators) honest (ballots chunkId labels)

theorem signed_reserved {label : Label Hash Key Sig} (own : ∀ request, label.request = some request → request.identity = key)
    (signed : (caster,.vote domain data) ∈ label.signed crypto domain) :
    caster = key ∧ ∃ intent, label.reservation = some ⟨key,.value intent⟩ ∧ intent.data = data := by
  cases label with
  | performed request floor artifact =>
    have owner := own request rfl
    simp only [Label.signed,List.mem_map,Prod.mk.injEq] at signed
    obtain ⟨message,member,rfl,rfl⟩ := signed
    refine ⟨owner,?_⟩
    cases request with
    | value voter data proofHashes unlockQuorum =>
      simp only [Request.messages,FinalityVoteData.signingMessage,List.mem_cons,SigningMessage.vote.injEq,true_and,
        reduceCtorEq,List.not_mem_nil,or_false] at member
      cases owner
      exact ⟨_,rfl,member.symm⟩
    | nilVote _ _ => simp [Request.messages,NilVoteData.signingMessage] at member
    | bftProposal _ _ => simp [Request.messages,BftProposal.signingMessage] at member
    | roundChange _ _ => simp [Request.messages,RoundChange.signingMessage] at member
    | blockProposal _ _ => simp [Request.messages] at member
  | interrupted _ _ | refused _ _ | cleanup | environment => cases signed

theorem ballots_snoc (entry : Key × Label Hash Key Sig) :
    ballots chunkId (labels++[entry]) = ballots chunkId labels ++ (castBallot chunkId entry).toList := by
  unfold ballots
  rw [List.filterMap_append]
  cases cast : castBallot chunkId entry <;> simp [cast]

theorem step_mirrored (initial : start.Initial domain params)
    (path : Runs (NetworkStep crypto honest chunkId validators) start labels network)
    (mirrored : Mirrored crypto honest chunkId validators domain labels network)
    (step : NetworkStep crypto honest chunkId validators network entry final) :
    Mirrored crypto honest chunkId validators domain (labels++[entry]) final := by
  obtain ⟨correct,step,own,counted⟩ := step
  rename_i key label after
  have chain := (node_runs path key).invariant (fun _ engine => engine.domain = domain) (initial.chain key).1
    fun _ _ _ _ _ same step => (step_context step).1.trans same
  constructor
  · intro caster data member chunk
    rw [ballots_snoc]
    rcases List.mem_append.mp member with old | new
    · exact List.mem_append_left _ (mirrored.logged caster data old chunk)
    · rw [chain] at new
      obtain ⟨rfl,intent,made,rfl⟩ := signed_reserved own new
      rw [cast_ballot_some.mpr ⟨intent,made,chunk,rfl⟩]
      simp
  · rw [ballots_snoc]
    cases cast : castBallot chunkId (key,label) with
    | none => simpa using mirrored.disciplined
    | some ballot =>
      obtain ⟨intent,made,chunk,rfl⟩ := cast_ballot_some.mp cast
      obtain ⟨set,authentic⟩ := counted intent made chunk
      have run := node_runs path key
      have justified : Justified crypto (fun _ => True) (labelsOf key labels) :=
        (runs_justified trivial (fun _ _ _ _ _ => trivial) (fun _ _ _ step => step) run).2
      obtain ⟨request,performed,made',_⟩ := step_reserved step made
      refine mirrored.disciplined.snoc ?_
      cases performed with
      | value reserved =>
        cases made'
        exact reserved.allowed (runs_journaled (initial.fresh _) run) justified chunk set chain authentic mirrored.logged
      | nilVote _ => cases made'
      | bftProposal _ | roundChange _ | blockProposal _ => cases made'

theorem runs_mirrored (initial : start.Initial domain params)
    (path : Runs (NetworkStep crypto honest chunkId validators) start labels final) :
    Mirrored crypto honest chunkId validators domain labels final := by
  refine path.invariant (Mirrored crypto honest chunkId validators domain) ⟨?_,.nil⟩
    (fun _ _ _ _ prior mirrored step => step_mirrored initial prior mirrored step)
  intro key data member
  rw [initial.silent] at member
  cases member

section
variable [DecidablePred honest] [LT Hash] [DecidableLT Hash]

theorem finality_backed {certificate : FinalityCert Hash Sig} (mirrored : Mirrored crypto honest chunkId validators domain labels network)
    (accepted : verifyFinalityWithRoot crypto domain params validators root chunk certificate = .ok ())
    (about : certificate.chunkId = chunkId) (authentic : Authentic crypto honest network.log certificate.precommit.signature) :
    Backed (seatStake validators) (unslashedSeats validators) (seatKey validators) honest (ballots chunkId labels)
      ⟨certificate.round,true,certificate.chunkHash⟩ := by
  simp only [verifyFinalityWithRoot,verifyFinalityPhase,verifyPhaseWith,bind_ok,ensure_ok,required_ok] at accepted
  obtain ⟨_,_,_,_,total,summed,_,_,_,⟨_,_,_,_,_,_,_,⟨_,⟨valid,_⟩,⟨keys,stake⟩,marked,_,_,_,reached,verified⟩,_⟩,_⟩ := accepted
  have signed : QuorumSigned crypto domain validators params.precommitFraction (certificate.voteData .precommit) certificate.precommit :=
    ⟨keys,stake,total,marked,summed,valid,reached,verified⟩
  obtain ⟨supermajority,backed⟩ := signed.supermajority authentic
  exact ⟨_,supermajority,fun seat marked correct => mirrored.logged _ _ (backed seat marked correct) about⟩

theorem bft_agreement (initial : start.Initial domain params)
    (path : Runs (NetworkStep crypto honest chunkId validators) start labels final)
    (few : 3 * byzantineStake validators honest < unslashedStake validators) {certificate certificate' : FinalityCert Hash Sig}
    (accepted : verifyFinalityWithRoot crypto domain params validators root chunk certificate = .ok ())
    (accepted' : verifyFinalityWithRoot crypto domain params validators root' chunk' certificate' = .ok ())
    (about : certificate.chunkId = chunkId) (about' : certificate'.chunkId = chunkId)
    (authentic : Authentic crypto honest final.log certificate.precommit.signature)
    (authentic' : Authentic crypto honest final.log certificate'.precommit.signature) : certificate.chunkHash = certificate'.chunkHash := by
  have mirrored := runs_mirrored initial path
  have one := finality_backed mirrored accepted about authentic
  have two := finality_backed mirrored accepted' about' authentic'
  have minority : Minority (seatStake validators) (unslashedSeats validators) (byzantineSeats validators honest) := by
    unfold Minority
    rw [total_byzantine,total_unslashed]
    exact few
  have reliable : ∀ seat ∈ unslashedSeats validators, seat ∉ byzantineSeats validators honest → honest (seatKey validators seat) := by
    intro seat member outside
    by_contra dishonest
    exact outside (Finset.mem_filter.mpr ⟨member,dishonest⟩)
  rcases Nat.le_total certificate.round certificate'.round with ordered | ordered
  · exact mirrored.disciplined.agreement minority reliable one two ordered
  · exact (mirrored.disciplined.agreement minority reliable two one ordered).symm
end

def Network.attempt (crypto : Crypto Hash Key Sig) (network : Network Hash Key Sig) (key : Key)
    (request : Request Hash Key Sig) : Network Hash Key Sig × Key × Label Hash Key Sig :=
  let (after,label) := (network.nodes key).attempt crypto request
  (⟨Function.update network.nodes key after,network.log++label.signed crypto (network.nodes key).domain⟩,key,label)

theorem attempt_moves {key : Key} (correct : honest key) (own : request.identity = key)
    (counted : ∀ intent, request.reservation = some ⟨key,.value intent⟩ → intent.data.chunkId = chunkId →
      (network.nodes key).activeValidatorSet = validators ∧
      ∀ unlock, intent.unlockQuorum = some unlock → Authentic crypto honest network.log unlock.aggregate.signature) :
    NetworkStep crypto honest chunkId validators network (network.attempt crypto key request).2 (network.attempt crypto key request).1 := by
  refine .moves correct (attempt_step crypto (network.nodes key) request) ?_ ?_
  · intro tried
    split <;> (intro same; cases same; exact own)
  · intro intent
    split
    · exact counted intent
    · intro made; cases made

def soloStart : Network Nat Nat VoteSig := ⟨fun _ => soloEngine,[]⟩
def soloPrevote (round : Nat) : Request Nat Nat VoteSig := .value soloVoter ⟨0,round,50,.prevote⟩ [] none
def soloPrecommit (round : Nat) : Request Nat Nat VoteSig := .value soloVoter ⟨0,round,50,.precommit⟩ [4] (some (soloQuorum round 50))

def soloRound (network : Network Nat Nat VoteSig) (round : Nat) : Network Nat Nat VoteSig :=
  ((network.attempt symbolicCrypto 7 (soloPrevote round)).1.attempt symbolicCrypto 7 (soloPrecommit round)).1

def soloAttestation (round : Nat) (phase : FinalityVotePhase) (proofHashes : List Nat) : VoteAttestation Nat VoteSig :=
  ⟨.votes [7] ⟨1,9⟩ ⟨0,round,50,phase⟩,0,⟨0,round,50,phase⟩,proofHashes,none,.blank⟩

def soloChunk : Chunk Nat := ⟨0,0,0,0,0,0,0,0,0,0,0,0,50⟩

def soloProposal : Nat → BftProposal Nat VoteSig
  | 0 => ⟨soloChunk,0,0,none,none,.blank⟩
  | round+1 => ⟨soloChunk,round+1,0,none,some ⟨0,round+1,[⟨0,round+1,0,none,.blank⟩]⟩,.blank⟩

def soloCertificate (round : Nat) : FinalityCert Nat VoteSig :=
  ⟨soloProposal round,[soloAttestation round .prevote []],[soloAttestation round .precommit [4]],0,round,50,
    ⟨⟨[true]⟩,.votes [7] ⟨1,9⟩ ⟨0,round,50,.prevote⟩⟩,⟨⟨[true]⟩,.votes [7] ⟨1,9⟩ ⟨0,round,50,.precommit⟩⟩,0⟩

theorem votes_authentic (logged : (7,.vote domain data) ∈ log) : Authentic symbolicCrypto (· = 7) log (.votes [7] domain data) := by
  constructor
  · rintro key message rfl valid
    cases message <;> simp_all [symbolicCrypto]
  · rintro keys message key valid _ rfl
    cases message <;> simp_all [symbolicCrypto]

theorem solo_round_moves (network : Network Nat Nat VoteSig) (round : Nat)
    (set : (network.nodes 7).activeValidatorSet = soloEngine.activeValidatorSet)
    (next : ((network.attempt symbolicCrypto 7 (soloPrevote round)).1.nodes 7).activeValidatorSet = soloEngine.activeValidatorSet)
    (logged : (7,.vote ⟨1,9⟩ ⟨0,round,50,.prevote⟩) ∈ (network.attempt symbolicCrypto 7 (soloPrevote round)).1.log) :
    ∃ labels, Runs (NetworkStep symbolicCrypto (· = 7) 0 soloEngine.activeValidatorSet) network labels (soloRound network round) := by
  refine ⟨_,.snoc (.snoc .nil (attempt_moves rfl rfl ?_)) (attempt_moves rfl rfl ?_)⟩
  · intro intent made _
    cases made
    exact ⟨set,fun _ carried => by cases carried⟩
  · intro intent made _
    cases made
    refine ⟨next,?_⟩
    intro unlock carried
    cases carried
    exact votes_authentic logged

theorem solo_certificates_agree : verifyFinalityWithRoot symbolicCrypto ⟨1,9⟩ soloEngine.params soloEngine.activeValidatorSet 0 soloChunk
      (soloCertificate 0) = .ok () ∧ verifyFinalityWithRoot symbolicCrypto ⟨1,9⟩ soloEngine.params soloEngine.activeValidatorSet 0 soloChunk
      (soloCertificate 1) = .ok () ∧ (soloCertificate 0).chunkHash = (soloCertificate 1).chunkHash := by
  have accepted : verifyFinalityWithRoot symbolicCrypto ⟨1,9⟩ soloEngine.params soloEngine.activeValidatorSet 0 soloChunk
      (soloCertificate 0) = .ok () := by decide +kernel
  have accepted' : verifyFinalityWithRoot symbolicCrypto ⟨1,9⟩ soloEngine.params soloEngine.activeValidatorSet 0 soloChunk
      (soloCertificate 1) = .ok () := by decide +kernel
  obtain ⟨labels,first⟩ := solo_round_moves soloStart 0 rfl (by decide +kernel) (by decide +kernel)
  obtain ⟨labels',second⟩ := solo_round_moves (soloRound soloStart 0) 1 (by decide +kernel) (by decide +kernel) (by decide +kernel)
  exact ⟨accepted,accepted',bft_agreement ⟨fun _ => ⟨rfl,rfl⟩,fun _ => rfl,rfl⟩ (first.append second) (by decide) accepted
    accepted' rfl rfl (votes_authentic (by decide +kernel)) (votes_authentic (by decide +kernel))⟩
end Neutrino.Signing
