import Neutrino.Library.ColumnStore
import Neutrino.Consensus.Finality

-- Durable signing reservations, and the publication of what was signed
-- (consensus-engine, signing.rs and availability.rs).
namespace Neutrino.Signing
open Checks ColumnStore Consensus

inductive SigningViolation where
  | conflict
  | regression
  | finalizedChunk
  | keyNotActive
deriving DecidableEq

inductive EngineError where
  | signing (violation : SigningViolation)
  | corrupt (diagnostic : String)
deriving DecidableEq

structure VoteIntent (Hash Sig : Type) where
  data : FinalityVoteData Hash
  validatorIndex : Nat
  proofHashes : List Hash
  unlockQuorum : Option (QuorumCertificate Hash Sig)
deriving DecidableEq

structure VoteWatermark (Hash Key Sig : Type) where
  spec : Hash
  identity : Key
  chunkId : Nat
  round : Nat
  prevote : Option (VoteIntent Hash Sig)
  precommit : Option (VoteIntent Hash Sig)
  locked : Option (QuorumCertificate Hash Sig)
deriving DecidableEq

structure ProposalWatermark (Hash Key : Type) where
  spec : Hash
  identity : Key
  slot : Nat
  hash : Hash
deriving DecidableEq

structure NilIntent (Hash Key : Type) where
  spec : Hash
  identity : Key
  data : NilVoteData
  validatorIndex : Nat
deriving DecidableEq

structure MessageIntent (Hash Key Sig : Type) where
  spec : Hash
  identity : Key
  message : SigningMessage Hash Sig
deriving DecidableEq

structure MessageWatermark (Hash Key : Type) where
  spec : Hash
  identity : Key
  chunkId : Nat
  round : Nat
deriving DecidableEq

-- The two round messages, each with its own tag and watermark tag.
inductive MessageKind where
  | proposal
  | roundChange
deriving DecidableEq

inductive JournalKey (Key : Type) where
  | voteWatermark (identity : Key) (chunkId : Nat)
  | proposerWatermark (identity : Key)
  | voteIntent (identity : Key) (chunkId round : Nat) (phase : FinalityVotePhase)
  | nilIntent (identity : Key) (chunkId round : Nat) (phase : FinalityVotePhase)
  | roundMessage (kind : MessageKind) (identity : Key) (chunkId round : Nat)
  | messageWatermark (kind : MessageKind) (identity : Key) (chunkId : Nat)
deriving DecidableEq

def JournalKey.chunk : JournalKey Key → Option Nat
  | .voteWatermark _ chunkId | .voteIntent _ chunkId _ _ | .nilIntent _ chunkId _ _ |
    .roundMessage _ _ chunkId _ | .messageWatermark _ _ chunkId => some chunkId
  | .proposerWatermark _ => none

@[reducible] def Row (Hash Key Sig : Type) : JournalKey Key → Type
  | .voteWatermark _ _ => VoteWatermark Hash Key Sig
  | .proposerWatermark _ => ProposalWatermark Hash Key
  | .voteIntent _ _ _ _ => VoteIntent Hash Sig
  | .nilIntent _ _ _ _ => NilIntent Hash Key
  | .roundMessage _ _ _ _ => MessageIntent Hash Key Sig
  | .messageWatermark _ _ _ => MessageWatermark Hash Key

abbrev Journal (Hash Key Sig : Type) := Store (Row Hash Key Sig)
def intentKey (identity : Key) (data : FinalityVoteData Hash) : JournalKey Key := .voteIntent identity data.chunkId data.round data.phase
def precommitOf (data : FinalityVoteData Hash) : FinalityVoteData Hash := {data with phase := .precommit}

-- The key a validator holds, at its current position in the active set.
structure ProposerKey (Key : Type) where
  publicKey : Key
  validatorIndex : Nat
deriving DecidableEq

-- What signing reads: specification, active set, records of finality and journal.
structure Engine (Hash Key Sig : Type) where
  domain : ConsensusDomain Hash
  params : ConsensusParams
  activeValidatorSet : List (Validator Hash Key)
  storedFinalizedChunkId : Option Nat
  latestFinalizedChunkId : Option Nat
  journal : Journal Hash Key Sig

inductive Artifact (Hash Sig : Type) where
  | value (vote : FinalityVote Hash Sig)
  | nilVote (vote : NilVote Sig)
  | bftProposal (proposal : BftProposal Hash Sig)
  | roundChange (report : RoundChange Hash Sig)
  | blockProposal (signature : Sig)

-- The chunk a signed source belongs to; block proposals are not kept as sources.
def Artifact.chunkId : Artifact Hash Sig → Option Nat
  | .value vote => some vote.data.chunkId
  | .nilVote vote => some vote.data.chunkId
  | .bftProposal proposal => some proposal.chunk.chunkId
  | .roundChange report => some report.chunkId
  | .blockProposal _ => none

-- The set a chunk's sources are judged by, and the store with its pruning and capacity.
structure Sources (Hash Key Sig : Type) where
  forensicValidators : Nat → Option (List (Validator Hash Key))
  publish : Artifact Hash Sig → Except EngineError Unit

def VoteWatermark.advance (watermark : VoteWatermark Hash Key Sig) (round : Nat) : Except SigningViolation (VoteWatermark Hash Key Sig) :=
  if round < watermark.round then .error .regression
  else if watermark.round < round then .ok {watermark with round,prevote := none,precommit := none}
  else .ok watermark

def VoteWatermark.entry (watermark : VoteWatermark Hash Key Sig) : FinalityVotePhase → Option (VoteIntent Hash Sig)
  | .prevote => watermark.prevote
  | .precommit => watermark.precommit

def VoteWatermark.reserve (watermark : VoteWatermark Hash Key Sig) (intent : VoteIntent Hash Sig) : VoteWatermark Hash Key Sig :=
  match intent.data.phase with
  | .prevote => {watermark with prevote := some intent}
  | .precommit => {watermark with precommit := some intent,locked := intent.unlockQuorum}

-- Rows a moved watermark makes unsignable, but for the lock's own precommit intent.
def compactRoundIntents (identity : Key) (chunkId oldRound newRound : Nat)
    (lock : Option (QuorumCertificate Hash Sig)) : List (JournalKey Key) :=
  if newRound ≤ oldRound then []
  else
    [.voteIntent identity chunkId oldRound .prevote,.nilIntent identity chunkId oldRound .prevote] ++
    (if lock.any (·.data.round = oldRound) then [] else [.voteIntent identity chunkId oldRound .precommit]) ++
    [.nilIntent identity chunkId oldRound .precommit,
      .roundMessage .proposal identity chunkId oldRound,.roundMessage .roundChange identity chunkId oldRound] ++
    (if oldRound+1 < newRound then [.roundMessage .roundChange identity chunkId (oldRound+1)] else [])

def supersededLock (identity : Key) (data : FinalityVoteData Hash) : Option (QuorumCertificate Hash Sig) → List (JournalKey Key)
  | none => []
  | some lock =>
    if data.phase = .precommit ∧ lock.data.round < data.round then
      [intentKey identity (precommitOf lock.data)]
    else []

namespace Engine
variable {Hash Key Sig : Type}

def finalizedNextChunkId (engine : Engine Hash Key Sig) : Nat := engine.latestFinalizedChunkId.elim 0 (·+1)

def signingFinalizedFloor (engine : Engine Hash Key Sig) : Except EngineError Nat := do
  let persisted ← match engine.storedFinalizedChunkId with
    | none => pure 0
    | some id => do
      ensure (id+1 < 2^64) (.corrupt "signing finality floor overflow")
      pure (id+1)
  pure (max persisted engine.finalizedNextChunkId)

variable [DecidableEq Key]

def validateSigningKey (engine : Engine Hash Key Sig) (voter : ProposerKey Key) : Except EngineError Unit :=
  ensure (engine.activeValidatorSet[voter.validatorIndex]?.any (fun validator =>
    decide (validator.pubkey = voter.publicKey) && isActive validator) = true) (.signing .keyNotActive)

def ensureSignable (engine : Engine Hash Key Sig) (voter : ProposerKey Key) (chunkId : Nat) : Except EngineError Unit := do
  engine.validateSigningKey voter
  let floor ← engine.signingFinalizedFloor
  ensure (floor ≤ chunkId) (.signing .finalizedChunk)

def write (engine : Engine Hash Key Sig) (batch : Batch (Row Hash Key Sig)) : Engine Hash Key Sig :=
  {engine with journal := ColumnStore.write engine.journal batch}

variable [DecidableEq Hash] [DecidableEq Sig] (crypto : Crypto Hash Key Sig)

section
variable (engine : Engine Hash Key Sig)

def verifyBftUnlockQuorum (validators : List (Validator Hash Key))
    (vote : FinalityVoteData Hash) (quorum : QuorumCertificate Hash Sig) : Except EvidenceError Unit :=
  verifyUnlockUsing crypto engine.domain validators vote quorum engine.params.prevoteFraction

def validateWatermarkIntent (watermark : VoteWatermark Hash Key Sig) (phase : FinalityVotePhase) : Except EngineError Unit :=
  match watermark.entry phase with
  | none => pure ()
  | some intent => do
    ensure (intent.data.chunkId = watermark.chunkId ∧ intent.data.round = watermark.round ∧ intent.data.phase = phase)
      (.corrupt "signing watermark intent target mismatch")
    let stored ← required (engine.journal (.voteIntent watermark.identity intent.data.chunkId intent.data.round
      intent.data.phase)) (.corrupt "signing watermark intent missing")
    ensure (stored = intent) (.corrupt "signing watermark intent changed")

def validateWatermarkLock (watermark : VoteWatermark Hash Key Sig) : Except EngineError Unit :=
  match watermark.locked with
  | none => pure ()
  | some lock => do
    let precommit := precommitOf lock.data
    let intent ← required (engine.journal (.voteIntent watermark.identity precommit.chunkId precommit.round
      precommit.phase)) (.corrupt "journal lock has no signed precommit")
    ensure (intent.data = precommit ∧ intent.unlockQuorum = some lock ∧ lock.data.round ≤ watermark.round ∧
      (engine.verifyBftUnlockQuorum crypto engine.activeValidatorSet precommit lock).isOk = true)
      (.corrupt "invalid durable signing lock")

def validateVoteWatermark (watermark : VoteWatermark Hash Key Sig) : Except EngineError Unit := do
  ensure (watermark.spec = engine.domain.chainSpecHash) (.corrupt "invalid signing watermark context")
  engine.validateWatermarkIntent watermark .prevote
  engine.validateWatermarkIntent watermark .precommit
  engine.validateWatermarkLock crypto watermark
  ensure (watermark.precommit.all (fun intent => decide (intent.unlockQuorum = watermark.locked)) = true)
    (.corrupt "journal precommit lock mismatch")

def readVoteWatermark (identity : Key) (chunkId : Nat) (mismatch : String)
    (bindSpec : Bool) : Except EngineError (Option (VoteWatermark Hash Key Sig)) :=
  match engine.journal (.voteWatermark identity chunkId) with
  | none => .ok none
  | some watermark => do
    ensure ((bindSpec = true → watermark.spec = engine.domain.chainSpecHash) ∧ watermark.identity = identity ∧
      watermark.chunkId = chunkId) (.corrupt mismatch)
    engine.validateVoteWatermark crypto watermark
    pure (some watermark)

def loadVoteWatermark (voter : ProposerKey Key) (chunkId round : Nat) : Except EngineError (VoteWatermark Hash Key Sig) := do
  let saved ← engine.readVoteWatermark crypto voter.publicKey chunkId "signing journal identity mismatch" false
  pure (saved.getD ⟨engine.domain.chainSpecHash,voter.publicKey,chunkId,round,none,none,none⟩)

def validateVoteUnlock (intent : VoteIntent Hash Sig) (locked : Option (QuorumCertificate Hash Sig)) : Except EngineError Unit := do
  ensure (intent.data.phase = .prevote → intent.proofHashes = []) (.signing .conflict)
  ensure (intent.unlockQuorum.all (fun unlock =>
    (engine.verifyBftUnlockQuorum crypto engine.activeValidatorSet intent.data unlock).isOk) = true) (.signing .conflict)
  -- Leaving the locked target needs a quorum from a round after the lock.
  ensure (locked.all (fun lock => decide (intent.data.chunkHash = lock.data.chunkHash) ||
    intent.unlockQuorum.any (fun unlock => decide (lock.data.round < unlock.data.round))) = true) (.signing .conflict)
  ensure (intent.data.phase = .precommit →
    intent.unlockQuorum.any (fun unlock => decide (unlock.data.round = intent.data.round)) = true) (.signing .conflict)

-- Every check and the synchronized batch, before the secret key is used.
def reserveVote (voter : ProposerKey Key) (data : FinalityVoteData Hash)
    (proofHashes : List Hash) (unlockQuorum : Option (QuorumCertificate Hash Sig)) : Except EngineError (Engine Hash Key Sig) := do
  engine.ensureSignable voter data.chunkId
  ensure ((engine.journal (.nilIntent voter.publicKey data.chunkId data.round data.phase)).isNone = true) (.signing .conflict)
  let intent : VoteIntent Hash Sig := ⟨data,voter.validatorIndex,proofHashes,unlockQuorum⟩
  let prior ← engine.loadVoteWatermark crypto voter data.chunkId data.round
  engine.validateVoteUnlock crypto intent prior.locked
  let watermark ← (prior.advance data.round).mapError .signing
  ensure ((watermark.entry data.phase).all (fun reserved => decide (reserved = intent)) = true) (.signing .conflict)
  pure (engine.write ( ((compactRoundIntents voter.publicKey data.chunkId prior.round data.round prior.locked ++
      supersededLock voter.publicKey data prior.locked).map .delete) ++
    [.put (.voteWatermark voter.publicKey data.chunkId) (watermark.reserve intent),
      .put (.voteIntent voter.publicKey data.chunkId data.round data.phase) intent]))
end

def singleSignerBits (length signer : Nat) : Consensus.BitVec := ⟨(List.range length).map (fun index => decide (index = signer))⟩

def attestVote (voter : ProposerKey Key) (domain : ConsensusDomain Hash) (vote : FinalityVoteData Hash)
    (proofHashes : List Hash) (unlockQuorum : Option (QuorumCertificate Hash Sig)) : VoteAttestation Hash Sig :=
  let voteSignature := crypto.sign voter.publicKey (vote.signingMessage domain)
  ⟨voteSignature,voter.validatorIndex,vote,proofHashes,unlockQuorum,crypto.sign voter.publicKey
    (.voteAttestation domain voter.validatorIndex vote voteSignature proofHashes unlockQuorum)⟩

section
variable (engine : Engine Hash Key Sig) (voter : ProposerKey Key)

def signReservedValueVote (intent : VoteIntent Hash Sig) : FinalityVote Hash Sig :=
  ⟨singleSignerBits engine.activeValidatorSet.length voter.validatorIndex,intent.data,
    crypto.sign voter.publicKey (intent.data.signingMessage engine.domain),
    [attestVote crypto voter engine.domain intent.data intent.proofHashes intent.unlockQuorum]⟩

-- Unlocks of a vote and the valid quorum of a proposal are not looked at.
def validateSignedArtifact (validators : List (Validator Hash Key)) : Artifact Hash Sig → Bool
  | .value vote => (verifyVoteSignaturesUsing crypto engine.domain validators vote engine.params).isOk
  | .nilVote vote => (verifyNilVoteUsing crypto engine.domain validators vote).isOk
  | .bftProposal proposal =>
    decide (bftLeaderWithRoot crypto engine.domain.chainId proposal.chunk.chunkId proposal.round validators (crypto.commitment validators) =
      some proposal.proposerIndex ∧ proposal.chunk.activeValidatorSetRoot = crypto.commitment validators) &&
    validators[proposal.proposerIndex]?.any fun validator => crypto.verify validator.pubkey (proposal.signingMessage engine.domain) proposal.signature
  | .roundChange report => (verifyRoundChangeWith crypto engine.domain validators report engine.params.prevoteFraction
      ⟨engine.params.prevoteFraction,[]⟩).isOk
  | .blockProposal _ => true

variable (sources : Sources Hash Key Sig)

def retainSignedArtifact (artifact : Artifact Hash Sig) : Except EngineError Unit :=
  match artifact.chunkId with
  | none => .ok ()
  | some chunkId => do
    ensure ((sources.forensicValidators chunkId).any (engine.validateSignedArtifact crypto · artifact) = true)
      (.corrupt "signed source authentication")
    sources.publish artifact

-- The reservation is durable by then: a publication that fails refuses the vote alone.
def signVoteDurable (data : FinalityVoteData Hash) (proofHashes : List Hash) (unlockQuorum : Option (QuorumCertificate Hash Sig)) :
    Except EngineError (Engine Hash Key Sig × FinalityVote Hash Sig) := do
  let reserved ← engine.reserveVote crypto voter data proofHashes unlockQuorum
  let vote := reserved.signReservedValueVote crypto voter ⟨data,voter.validatorIndex,proofHashes,unlockQuorum⟩
  reserved.retainSignedArtifact crypto sources (.value vote)
  pure (reserved,vote)

def reserveNilVote (data : NilVoteData) : Except EngineError (Engine Hash Key Sig) := do
  engine.ensureSignable voter data.chunkId
  ensure ((engine.journal (.voteIntent voter.publicKey data.chunkId data.round data.phase)).isNone = true) (.signing .conflict)
  let prior ← engine.loadVoteWatermark crypto voter data.chunkId data.round
  let watermark ← (prior.advance data.round).mapError .signing
  let intent : NilIntent Hash Key := ⟨engine.domain.chainSpecHash,voter.publicKey,data,voter.validatorIndex⟩
  ensure ((engine.journal (.nilIntent voter.publicKey data.chunkId data.round data.phase)).all
    (fun reserved => decide (reserved = intent)) = true) (.signing .conflict)
  pure (engine.write ( ((compactRoundIntents voter.publicKey data.chunkId prior.round data.round watermark.locked).map .delete) ++
    [.put (.voteWatermark voter.publicKey data.chunkId) watermark,
      .put (.nilIntent voter.publicKey data.chunkId data.round data.phase) intent]))

def signReservedNilVote (data : NilVoteData) : NilVote Sig :=
  let signature := crypto.sign voter.publicKey (data.signingMessage engine.domain)
  ⟨data,singleSignerBits engine.activeValidatorSet.length voter.validatorIndex,signature,
    [⟨voter.validatorIndex,data,signature,crypto.sign voter.publicKey (.nilAttestation engine.domain voter.validatorIndex data signature)⟩]⟩

def signNilVoteDurable (data : NilVoteData) : Except EngineError (Engine Hash Key Sig × NilVote Sig) := do
  let reserved ← engine.reserveNilVote crypto voter data
  let vote := reserved.signReservedNilVote crypto voter data
  reserved.retainSignedArtifact crypto sources (.nilVote vote)
  pure (reserved,vote)
end

def signingRoundFor (engine : Engine Hash Key Sig) (identity : Key) (chunkId : Nat) : Except EngineError (Option Nat) := do
  let watermark ← engine.readVoteWatermark crypto identity chunkId "signing watermark identity mismatch" true
  pure (watermark.map (·.round))

section
variable (engine : Engine Hash Key Sig)
omit [DecidableEq Sig] in
-- Each message kind keeps its own watermark, so abandoned rounds stay bounded.
def compactMessageIntents (kind : MessageKind) (identity : Key) (chunkId round : Nat) : Except EngineError (Batch (Row Hash Key Sig)) := do
  let superseded ← match engine.journal (.messageWatermark kind identity chunkId) with
    | none => pure []
    | some prior => do
      ensure (prior.spec = engine.domain.chainSpecHash ∧ prior.identity = identity ∧ prior.chunkId = chunkId)
        (.corrupt "message signing watermark identity mismatch")
      ensure (prior.round ≤ round) (.signing .regression)
      pure (if prior.round < round then [.delete (.roundMessage kind identity chunkId prior.round)] else [])
  pure (superseded ++ [.put (.messageWatermark kind identity chunkId) ⟨engine.domain.chainSpecHash,identity,chunkId,round⟩])

def reserveRoundMessage (voter : ProposerKey Key) (kind : MessageKind)
    (chunkId round : Nat) (message : SigningMessage Hash Sig) : Except EngineError (Engine Hash Key Sig) := do
  engine.ensureSignable voter chunkId
  let signedRound ← engine.signingRoundFor crypto voter.publicKey chunkId
  ensure (signedRound.all (fun signed => decide (signed ≤ round)) = true) (.signing .regression)
  let intent : MessageIntent Hash Key Sig := ⟨engine.domain.chainSpecHash,voter.publicKey,message⟩
  ensure ((engine.journal (.roundMessage kind voter.publicKey chunkId round)).all
    (fun reserved => decide (reserved = intent)) = true) (.signing .conflict)
  let compacted ← engine.compactMessageIntents kind voter.publicKey chunkId round
  pure (engine.write (compacted ++ [.put (.roundMessage kind voter.publicKey chunkId round) intent]))

def signBftProposalDurable (sources : Sources Hash Key Sig) (voter : ProposerKey Key) (proposal : BftProposal Hash Sig) :
    Except EngineError (Engine Hash Key Sig × BftProposal Hash Sig) := do
  let message := proposal.signingMessage engine.domain
  let reserved ← engine.reserveRoundMessage crypto voter .proposal proposal.chunk.chunkId proposal.round message
  let signed := {proposal with signature := crypto.sign voter.publicKey message}
  reserved.retainSignedArtifact crypto sources (.bftProposal signed)
  pure (reserved,signed)

def signRoundChangeDurable (sources : Sources Hash Key Sig) (voter : ProposerKey Key) (report : RoundChange Hash Sig) :
    Except EngineError (Engine Hash Key Sig × RoundChange Hash Sig) := do
  let message := report.signingMessage engine.domain
  let reserved ← engine.reserveRoundMessage crypto voter .roundChange report.chunkId report.round message
  let signed := {report with signature := crypto.sign voter.publicKey message}
  reserved.retainSignedArtifact crypto sources (.roundChange signed)
  pure (reserved,signed)
end
section
variable (engine : Engine Hash Key Sig) (voter : ProposerKey Key) (slot : Nat) (hash : Hash)
omit [DecidableEq Sig] in
def reserveProposal : Except EngineError (Engine Hash Key Sig) := do
  engine.validateSigningKey voter
  match engine.journal (.proposerWatermark voter.publicKey) with
  | none => pure ()
  | some prior => do
    ensure (prior.spec = engine.domain.chainSpecHash ∧ prior.identity = voter.publicKey) (.corrupt "proposal journal identity mismatch")
    ensure (prior.slot ≤ slot) (.signing .regression)
    ensure (slot = prior.slot → hash = prior.hash) (.signing .conflict)
  pure (engine.write [.put (.proposerWatermark voter.publicKey) ⟨engine.domain.chainSpecHash,voter.publicKey,slot,hash⟩])

def signProposalDurable : Except EngineError (Engine Hash Key Sig × Sig) := do
  let reserved ← engine.reserveProposal voter slot hash
  pure (reserved,crypto.sign voter.publicKey (.proposer engine.domain hash))
end

omit [DecidableEq Key] [DecidableEq Hash] [DecidableEq Sig] in
-- Chunk-scoped rows below the floor go together; proposer watermarks never expire.
def expiredSigningEntries (engine : Engine Hash Key Sig) : Except EngineError (Engine Hash Key Sig) := do
  let floor ← engine.signingFinalizedFloor
  pure {engine with journal := prune (fun key => key.chunk.all (fun chunkId => decide (floor ≤ chunkId))) engine.journal}
end Engine
end Neutrino.Signing
