import Neutrino.Signing.Invariant

-- One payload per position, rounds that never go back, no finalized chunk: over any
-- requests, interruptions, cleanups and changes of the set.
namespace Neutrino.Signing
open Checks ColumnStore Consensus
variable {Hash Key Sig : Type} [DecidableEq Hash] [DecidableEq Key] [DecidableEq Sig] {crypto : Crypto Hash Key Sig}

-- How two reservations of one history, the older first, may relate.
def Compatible (older newer : Reservation Hash Key Sig) : Prop :=
  older.identity = newer.identity → older.payload.chunkId = newer.payload.chunkId → older.payload.round ≤ newer.payload.round ∧
    (older.payload.round = newer.payload.round → older.payload.phase = newer.payload.phase → older.payload = newer.payload)

theorem performed_compatible (journaled : Journaled labels engine) (performed : Performed crypto engine request after)
    (made : request.reservation = some newer) (member : older ∈ history labels) : Compatible older newer := by
  intro sameIdentity sameChunk
  have vote : older.payload ∈ votesOf (history labels) newer.identity newer.payload.chunkId :=
    List.mem_filterMap.mpr ⟨older,member,by simp [sameIdentity,sameChunk]⟩
  cases performed with
  | value reserved | nilVote reserved =>
    cases made
    exact reserved.agrees (journaled.tracked reserved.loaded reserved.above) vote
  | bftProposal _ | roundChange _ | blockProposal _ => cases made

theorem performed_above (performed : Performed crypto engine request after)
    (made : request.reservation = some newer) : engine.floor ≤ newer.payload.chunkId := by
  cases performed with
  | value reserved | nilVote reserved => cases made; exact reserved.above
  | bftProposal _ | roundChange _ | blockProposal _ => cases made

theorem step_reserved (step : Step crypto engine label after) (made : label.reservation = some newer) :
    ∃ request, Performed crypto engine request after ∧ request.reservation = some newer ∧ label.floor = some engine.floor := by
  cases step with
  | performed accepted | interrupted accepted => exact ⟨_,perform_ok accepted,made,rfl⟩
  | refused _ | cleanup _ | environment _ _ _ _ => cases made

theorem step_compatible (journaled : Journaled labels engine) (compatible : (history labels).Pairwise Compatible)
    (step : Step crypto engine label after) : (history (labels++[label])).Pairwise Compatible := by
  cases made : label.reservation with
  | none => rw [history_silent made]; exact compatible
  | some newer =>
    obtain ⟨request,performed,made',_⟩ := step_reserved step made
    rw [history_reserved made]
    refine List.pairwise_append.mpr ⟨compatible,List.pairwise_singleton ..,?_⟩
    intro older member last same
    cases List.mem_singleton.mp same
    exact performed_compatible journaled performed made' member

theorem runs_compatible (fresh : start.journal = empty)
    (path : Runs (Step crypto) start labels final) : (history labels).Pairwise Compatible := by
  refine path.invariant (fun labels _ => (history labels).Pairwise Compatible) List.Pairwise.nil ?_
  intro labels middle label next prior compatible step
  exact step_compatible (runs_journaled fresh prior) compatible step

-- Every reservation was made at or above the finalized floor of its moment.
def AboveFloor (labels : List (Label Hash Key Sig)) : Prop :=
  ∀ label ∈ labels, ∀ reservation floor, label.reservation = some reservation → label.floor = some floor →
    floor ≤ reservation.payload.chunkId

theorem step_above_floor (above : AboveFloor labels) (step : Step crypto engine label after) : AboveFloor (labels++[label]) := by
  intro other member reservation floor made seen
  rcases List.mem_append.mp member with old | new
  · exact above other old reservation floor made seen
  · cases List.mem_singleton.mp new
    obtain ⟨request,performed,made',placed⟩ := step_reserved step made
    cases placed.symm.trans seen
    exact performed_above performed made'

def NeverEquivocates (labels : List (Label Hash Key Sig)) : Prop := (history labels).Pairwise Compatible ∧ AboveFloor labels

theorem journal_never_equivocates {start : Engine Hash Key Sig} (fresh : start.journal = empty)
    (path : Runs (Step crypto) start labels final) : NeverEquivocates labels := by
  refine ⟨runs_compatible fresh path,path.invariant (fun labels _ => AboveFloor labels) ?_ ?_⟩
  · intro label member
    cases member
  · exact fun _ _ _ _ _ above step => step_above_floor above step

-- One validator; a vote signature is the keys behind it and the payload.
inductive VoteSig where
  | votes (keys : List Nat) (domain : ConsensusDomain Nat) (data : FinalityVoteData Nat)
  | blank
deriving DecidableEq

def symbolicCrypto : Crypto Nat Nat VoteSig where
  verify := fun key message signature => match message,signature with
    | .vote domain data,.votes keys chain signed => decide (keys = [key] ∧ chain = domain ∧ signed = data)
    | .vote _ _,.blank => false
    | _,.blank => true
    | _,.votes _ _ _ => false
  aggregate := fun keys message signature => match message,signature with
    | .vote domain data,.votes signers chain signed =>
      decide (signers = keys ∧ keys ≠ [] ∧ chain = domain ∧ signed = data)
    | _,_ => false
  sign := fun key message => match message with
    | .vote domain data => .votes [key] domain data
    | _ => .blank
  chunkHash := fun chunk => chunk.daRoot
  headerHash := fun header => header.slot
  commitment := fun _ => 0
  leaderOffset := fun _ _ _ => 0

def soloEngine : Engine Nat Nat VoteSig :=
  ⟨⟨1,9⟩,⟨1,2,3,2,3⟩,[⟨7,0,10,false,0,100,0⟩],none,none,empty⟩

def soloVoter : ProposerKey Nat := ⟨7,0⟩

def soloQuorum (round target : Nat) : QuorumCertificate Nat VoteSig :=
  ⟨⟨0,round,target,.prevote⟩,⟨⟨[true]⟩,.votes [7] ⟨1,9⟩ ⟨0,round,target,.prevote⟩⟩⟩

-- A prevote, its precommit, a conflict, nil over the prevote, nil later: two refused.
def conflictingRequests : List (Request Nat Nat VoteSig) := [.value soloVoter ⟨0,1,50,.prevote⟩ [] none,
    .value soloVoter ⟨0,1,50,.precommit⟩ [4] (some (soloQuorum 1 50)),
    .value soloVoter ⟨0,1,51,.precommit⟩ [4] (some (soloQuorum 1 51)),
    .nilVote soloVoter ⟨0,1,.prevote⟩,
    .nilVote soloVoter ⟨0,2,.prevote⟩]

theorem conflicting_requests_safe : (history (soloEngine.attempts symbolicCrypto conflictingRequests).2).length = 3 ∧
    NeverEquivocates (soloEngine.attempts symbolicCrypto conflictingRequests).2 :=
  ⟨by decide +kernel,journal_never_equivocates rfl (attempts_runs ..)⟩
end Neutrino.Signing
