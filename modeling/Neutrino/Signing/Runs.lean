import Neutrino.Library.Runs
import Neutrino.Signing.Journal

-- Runs of the signing API: a request is refused, reserved and signed, or reserved and
-- loses the process before the secret key is used.
namespace Neutrino.Signing
open Checks ColumnStore Consensus

inductive Request (Hash Key Sig : Type) where
  | value (voter : ProposerKey Key) (data : FinalityVoteData Hash) (proofHashes : List Hash)
      (unlockQuorum : Option (QuorumCertificate Hash Sig))
  | nilVote (voter : ProposerKey Key) (data : NilVoteData)
  | bftProposal (voter : ProposerKey Key) (proposal : BftProposal Hash Sig)
  | roundChange (voter : ProposerKey Key) (report : RoundChange Hash Sig)
  -- Block production signs the slot and hash of the header it just sealed.
  | blockProposal (voter : ProposerKey Key) (header : HeaderHashPayload Hash Sig)

variable {Hash Key Sig : Type}

inductive Label (Hash Key Sig : Type) where
  | performed (request : Request Hash Key Sig) (floor : Nat) (artifact : Artifact Hash Sig)
  | interrupted (request : Request Hash Key Sig) (floor : Nat)
  | refused (request : Request Hash Key Sig) (reason : EngineError)
  | cleanup
  | environment

-- What one vote request reserves: an exact value intent, or nil.
inductive Payload (Hash Sig : Type) where
  | value (intent : VoteIntent Hash Sig)
  | nilVote (data : NilVoteData) (validatorIndex : Nat)
deriving DecidableEq

def Payload.chunkId : Payload Hash Sig → Nat
  | .value intent => intent.data.chunkId
  | .nilVote data _ => data.chunkId

def Payload.round : Payload Hash Sig → Nat
  | .value intent => intent.data.round
  | .nilVote data _ => data.round

def Payload.phase : Payload Hash Sig → FinalityVotePhase
  | .value intent => intent.data.phase
  | .nilVote data _ => data.phase

structure Reservation (Hash Key Sig : Type) where
  identity : Key
  payload : Payload Hash Sig

def Request.reservation : Request Hash Key Sig → Option (Reservation Hash Key Sig)
  | .value voter data proofHashes unlockQuorum =>
    some ⟨voter.publicKey,.value ⟨data,voter.validatorIndex,proofHashes,unlockQuorum⟩⟩
  | .nilVote voter data => some ⟨voter.publicKey,.nilVote data voter.validatorIndex⟩
  | _ => none

-- An interrupted request has reserved its position although nothing was signed.
def Label.reservation : Label Hash Key Sig → Option (Reservation Hash Key Sig)
  | .performed request _ _ | .interrupted request _ => request.reservation
  | _ => none

def Label.floor : Label Hash Key Sig → Option Nat
  | .performed _ floor _ | .interrupted _ floor => some floor
  | _ => none

def history (labels : List (Label Hash Key Sig)) : List (Reservation Hash Key Sig) := labels.filterMap Label.reservation

def votesOf [DecidableEq Key] (reservations : List (Reservation Hash Key Sig)) (identity : Key) (chunkId : Nat) : List (Payload Hash Sig) :=
  reservations.filterMap fun reservation =>
    if reservation.identity = identity ∧ reservation.payload.chunkId = chunkId then some reservation.payload else none

def Payload.precommit? : Payload Hash Sig → Option (VoteIntent Hash Sig)
  | .value intent => if intent.data.phase = .precommit then some intent else none
  | .nilVote _ _ => none

def lastPrecommit (votes : List (Payload Hash Sig)) : Option (VoteIntent Hash Sig) := (votes.filterMap Payload.precommit?).getLast?

def Request.identity : Request Hash Key Sig → Key
  | .value voter _ _ _ | .nilVote voter _ | .bftProposal voter _ | .roundChange voter _ | .blockProposal voter _ =>
    voter.publicKey

def Label.request : Label Hash Key Sig → Option (Request Hash Key Sig)
  | .performed request _ _ | .interrupted request _ | .refused request _ => some request
  | _ => none

section
variable (crypto : Crypto Hash Key Sig) (domain : ConsensusDomain Hash)

def Request.messages : Request Hash Key Sig → List (SigningMessage Hash Sig)
  | .value voter data proofHashes unlockQuorum =>
    [data.signingMessage domain,.voteAttestation domain voter.validatorIndex data
      (crypto.sign voter.publicKey (data.signingMessage domain)) proofHashes unlockQuorum]
  | .nilVote voter data =>
    [data.signingMessage domain,.nilAttestation domain voter.validatorIndex data (crypto.sign voter.publicKey (data.signingMessage domain))]
  | .bftProposal _ proposal => [proposal.signingMessage domain]
  | .roundChange _ report => [report.signingMessage domain]
  | .blockProposal _ header => [.proposer domain (crypto.headerHash header)]

def Label.signed : Label Hash Key Sig → List (Key × SigningMessage Hash Sig)
  | .performed request _ _ => (request.messages crypto domain).map (request.identity,·)
  | _ => []
end
variable [DecidableEq Hash] [DecidableEq Key] [DecidableEq Sig] (crypto : Crypto Hash Key Sig)

-- Reservation and signature. A failed publication comes after both, so that runs of
-- this part sign whatever runs of the whole calls do.
def Engine.perform (engine : Engine Hash Key Sig) : Request Hash Key Sig → Except EngineError (Engine Hash Key Sig × Artifact Hash Sig)
  | .value voter data proofHashes unlockQuorum => do
    let reserved ← engine.reserveVote crypto voter data proofHashes unlockQuorum
    pure (reserved,.value (reserved.signReservedValueVote crypto voter ⟨data,voter.validatorIndex,proofHashes,unlockQuorum⟩))
  | .nilVote voter data => do
    let reserved ← engine.reserveNilVote crypto voter data
    pure (reserved,.nilVote (reserved.signReservedNilVote crypto voter data))
  | .bftProposal voter proposal => do
    let message := proposal.signingMessage engine.domain
    let reserved ← engine.reserveRoundMessage crypto voter .proposal proposal.chunk.chunkId proposal.round message
    pure (reserved,.bftProposal {proposal with signature := crypto.sign voter.publicKey message})
  | .roundChange voter report => do
    let message := report.signingMessage engine.domain
    let reserved ← engine.reserveRoundMessage crypto voter .roundChange report.chunkId report.round message
    pure (reserved,.roundChange {report with signature := crypto.sign voter.publicKey message})
  | .blockProposal voter header => do
    let reserved ← engine.reserveProposal voter header.slot (crypto.headerHash header)
    pure (reserved,.blockProposal (crypto.sign voter.publicKey (.proposer engine.domain (crypto.headerHash header))))

def Engine.call (engine : Engine Hash Key Sig) (sources : Sources Hash Key Sig) :
    Request Hash Key Sig → Except EngineError (Engine Hash Key Sig × Artifact Hash Sig)
  | .value voter data proofHashes unlockQuorum =>
    (engine.signVoteDurable crypto voter sources data proofHashes unlockQuorum).map fun (after,vote) => (after,.value vote)
  | .nilVote voter data => (engine.signNilVoteDurable crypto voter sources data).map fun (after,vote) => (after,.nilVote vote)
  | .bftProposal voter proposal =>
    (engine.signBftProposalDurable crypto sources voter proposal).map fun (after,signed) => (after,.bftProposal signed)
  | .roundChange voter report =>
    (engine.signRoundChangeDurable crypto sources voter report).map fun (after,signed) => (after,.roundChange signed)
  | .blockProposal voter header =>
    (engine.signProposalDurable crypto voter header.slot (crypto.headerHash header)).map fun (after,signature) => (after,.blockProposal signature)

theorem call_performs (engine : Engine Hash Key Sig) (sources : Sources Hash Key Sig) (request : Request Hash Key Sig) :
    engine.call crypto sources request = (do
      let (after,artifact) ← engine.perform crypto request
      after.retainSignedArtifact crypto sources artifact
      pure (after,artifact)) := by
  cases request <;>
    simp only [Engine.call,Engine.perform,Engine.signVoteDurable,Engine.signNilVoteDurable,Engine.signBftProposalDurable,
      Engine.signRoundChangeDurable,Engine.signProposalDurable,bind_map,bind_assoc,pure_bind] <;> rfl

-- The floor without its overflow check: no chunk below it may be signed.
def Engine.floor (engine : Engine Hash Key Sig) : Nat := max (engine.storedFinalizedChunkId.elim 0 (·+1)) engine.finalizedNextChunkId

inductive Step : Engine Hash Key Sig → Label Hash Key Sig → Engine Hash Key Sig → Prop where
  | performed : engine.perform crypto request = .ok (after,artifact) →
      Step engine (.performed request engine.floor artifact) after
  | interrupted : engine.perform crypto request = .ok (after,artifact) →
      Step engine (.interrupted request engine.floor) after
  | refused : engine.perform crypto request = .error reason → Step engine (.refused request reason) engine
  | cleanup : engine.expiredSigningEntries = .ok after → Step engine .cleanup after
  -- Specification and journal are durable, and the finality floor never regresses.
  | environment : after.domain = engine.domain → after.params = engine.params → after.journal = engine.journal →
      engine.floor ≤ after.floor → Step engine .environment after

-- The deterministic part of a run: requests tried one after another.
def Engine.attempt (engine : Engine Hash Key Sig) (request : Request Hash Key Sig) : Engine Hash Key Sig × Label Hash Key Sig :=
  match engine.perform crypto request with
  | .ok (after,artifact) => (after,.performed request engine.floor artifact)
  | .error reason => (engine,.refused request reason)

theorem attempt_step (engine : Engine Hash Key Sig) (request : Request Hash Key Sig) :
    Step crypto engine (engine.attempt crypto request).2 (engine.attempt crypto request).1 := by
  unfold Engine.attempt
  split
  · exact .performed ‹_›
  · exact .refused ‹_›

def Engine.attempts (engine : Engine Hash Key Sig) : List (Request Hash Key Sig) → Engine Hash Key Sig × List (Label Hash Key Sig)
  | [] => (engine,[])
  | request::rest =>
    let (next,label) := engine.attempt crypto request
    let (final,labels) := next.attempts rest
    (final,label::labels)

theorem attempts_runs (engine : Engine Hash Key Sig) (requests : List (Request Hash Key Sig)) :
    Runs (Step crypto) engine (engine.attempts crypto requests).2 (engine.attempts crypto requests).1 := by
  induction requests generalizing engine with
  | nil => exact .nil
  | cons request rest ih =>
    exact (Runs.snoc .nil (attempt_step crypto engine request)).append (ih _)
end Neutrino.Signing
