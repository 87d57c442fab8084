import Neutrino.Runtime.Staking

-- Stake-weighted governance of upgrades and policy (neutrino-default, governance.rs).
namespace Neutrino.Runtime
open Checks Consensus Chain Effects Ledger

structure ProposeUpgradeTx (Hash Sig : Type) where
  proposer : Hash
  programs : ProgramSet Hash
  artifacts : ProgramArtifacts Hash
  activateAtChunk : Nat
  nonce : Nat
  signature : Sig
deriving DecidableEq

structure ProposePolicyTx (Hash Sig : Type) where
  proposer : Hash
  policy : RuntimePolicy
  nonce : Nat
  signature : Sig
deriving DecidableEq

structure VoteUpgradeTx (Hash Sig : Type) where
  voter : Hash
  proposalId : Hash
  nonce : Nat
  signature : Sig
deriving DecidableEq

def upgradeMinLeadChunks : Nat := 1
def upgradeMaxLeadChunks : Nat := 1024
def upgradeVotingPeriodChunks : Nat := 64
def activationInTime (activateAtChunk currentChunk : Nat) : Bool := (checkedAdd currentChunk upgradeMinLeadChunks).any (· ≤ activateAtChunk)

def proposalShapeOk (activateAtChunk currentChunk : Nat) : Bool := activationInTime activateAtChunk currentChunk &&
    (checkedAdd currentChunk upgradeMaxLeadChunks).any (activateAtChunk ≤ ·)

-- The ceiling of two thirds of the total, computed without overflow.
def upgradeQuorum (stake total : Nat) : Bool := decide (total - mulDivFloor total 1 3 ≤ stake)

variable {Hash Key Sig : Type} [LinearOrder Hash] [DecidableEq Key]

def totalStake (entries : List (ValidatorSetEntry Hash)) : Nat := entries.foldl (fun total entry => saturatingAdd128 total entry.stake) 0

def UpgradeProposal.votedStake (proposal : UpgradeProposal Hash) (entries : List (ValidatorSetEntry Hash)) : Nat :=
  totalStake (entries.filter fun entry => proposal.voters.contains entry.address)

def UpgradeProposal.quorumReached (proposal : UpgradeProposal Hash) (entries : List (ValidatorSetEntry Hash)) : Bool :=
  decide (0 < totalStake entries) && upgradeQuorum (proposal.votedStake entries) (totalStake entries)

def UpgradeProposal.isLive (proposal : UpgradeProposal Hash) (currentChunk : Nat) : Bool :=
  (checkedAdd proposal.proposedAtChunk upgradeVotingPeriodChunks).any (currentChunk ≤ ·) &&
    match proposal.action with
    | .programs _ _ activateAtChunk => activationInTime activateAtChunk currentChunk
    | .policy _ => true

structure BlockContext (Hash : Type) where
  chunk : Nat
  height : Nat
  anchor : EvidenceAnchor Hash
  pendingSanctions : Nat

abbrev PolicyEnactable (block : BlockContext Hash) (policy : RuntimePolicy) : Prop := block.pendingSanctions ≤ policy.evidenceMaxPending

variable (verifySignature : Hash → SigMessage Hash Key → Sig → Bool) (proposalId : Hash → ProposalAction Hash → Hash)
variable (state : State Hash Key Sig)

-- A schedule whose chunk is reached was consumed; a dead proposal frees the slot.
def expireScheduled (currentChunk : Nat) : State Hash Key Sig :=
  if (loadScheduled state).any (·.activateAtChunk ≤ currentChunk) then state.erase .upgrade else state

def expireProposal (currentChunk : Nat) : State Hash Key Sig :=
  if (loadProposal state).any (!·.isLive currentChunk) then state.erase .upgradeProposal else state

def expire (currentChunk : Nat) : State Hash Key Sig := expireProposal (expireScheduled state currentChunk) currentChunk

-- Nothing counts before the registration has aged, nor stake added since.
def governanceWeight (address : Hash) (bonded height : Nat) : Nat :=
  if (loadValidatorRegistration state address).any (!aged ·.registeredAtHeight height) then 0
  else ((loadBonding state address).filter (!aged ·.sinceHeight height)).elim bonded fun bonding => bonded - bonding.amount

def governanceSet (height : Nat) : List (ValidatorSetEntry Hash) := (loadValidatorSet state).items.filterMap fun entry =>
    let weight := governanceWeight state entry.address entry.stake height
    if 0 < weight then some {entry with stake := weight} else none

def authorizeSigner (signer : Hash) (nonce height fee : Nat) (message : SigMessage Hash Key) (signature : Sig) :
    Except (Failure Hash) (Account × List (ValidatorSetEntry Hash)) := do
  authenticate verifySignature signer message signature
  let account ← authorize state signer nonce fee
  let entries := governanceSet state height
  ensure (entries.any (·.address = signer) = true) (charged signer .unauthorized)
  pure (account,entries)

-- A live proposal gives way only to more stake than votes for it, a switch never.
def checkNewProposal (block : BlockContext Hash) (fee : Nat) (proposer : Hash) (nonce : Nat) (message : SigMessage Hash Key)
    (signature : Sig) : Except (Failure Hash) (Account × List (ValidatorSetEntry Hash)) := do
  let (account,entries) ← authorizeSigner verifySignature state proposer nonce block.height fee message signature
  ensure ((loadScheduled state).any (block.chunk < ·.activateAtChunk) = false) (charged proposer .upgradeConflict)
  let stake := ((entries.find? (·.address = proposer)).map (·.stake)).getD 0
  ensure (((loadProposal state).filter (·.isLive block.chunk)).any (stake ≤ ·.votedStake entries) = false)
    (charged proposer .upgradeConflict)
  pure (account,entries)

def checkPropose (chainId : Nat) (block : BlockContext Hash) (fee : Nat) (tx : ProposeUpgradeTx Hash Sig) :
    Except (Failure Hash) (Account × List (ValidatorSetEntry Hash)) := do
  let id := proposalId tx.proposer (.programs tx.programs tx.artifacts tx.activateAtChunk)
  let authorized ← checkNewProposal verifySignature state block fee tx.proposer tx.nonce
    (.proposeUpgrade chainId tx.proposer id tx.nonce) tx.signature
  ensure (tx.programs.isComplete = true ∧ proposalShapeOk tx.activateAtChunk block.chunk = true) (charged tx.proposer .invalidUpgrade)
  pure authorized

def checkProposePolicy (chainId : Nat) (block : BlockContext Hash) (fee : Nat) (tx : ProposePolicyTx Hash Sig) :
    Except (Failure Hash) (Account × List (ValidatorSetEntry Hash)) := do
  let authorized ← checkNewProposal verifySignature state block fee tx.proposer tx.nonce
    (.proposePolicy chainId tx.proposer (proposalId tx.proposer (.policy tx.policy)) tx.nonce) tx.signature
  ensure (tx.policy.IsValidFor block.anchor ∧ PolicyEnactable block tx.policy) (charged tx.proposer .invalidUpgrade)
  pure authorized

def checkVote (chainId : Nat) (block : BlockContext Hash) (fee : Nat) (tx : VoteUpgradeTx Hash Sig) :
    Except (Failure Hash) (Account × List (ValidatorSetEntry Hash) × UpgradeProposal Hash) := do
  let (account,entries) ← authorizeSigner verifySignature state tx.voter tx.nonce block.height fee
    (.voteUpgrade chainId tx.voter tx.proposalId tx.nonce) tx.signature
  let named := (loadProposal state).filter fun proposal =>
    decide (proposalId proposal.proposer proposal.action = tx.proposalId) && proposal.isLive block.chunk
  let proposal ← required named (charged tx.voter .invalidUpgrade)
  ensure (proposal.voters.contains tx.voter = false) (charged tx.voter .alreadyVoted)
  pure (account,entries,proposal)

def enact (action : ProposalAction Hash) : State Hash Key Sig :=
  match action with
  | .programs programs artifacts activateAtChunk => state.insert .upgrade ⟨activateAtChunk,programs,artifacts⟩
  | .policy policy => state.insert .runtimePolicy policy

def settle (proposal : UpgradeProposal Hash) (entries : List (ValidatorSetEntry Hash)) : State Hash Key Sig :=
  if proposal.quorumReached entries then (enact state proposal.action).erase .upgradeProposal
  else state.insert .upgradeProposal proposal

def openProposal (proposer : Hash) (action : ProposalAction Hash) (chunk : Nat) : UpgradeProposal Hash :=
  ⟨proposer,action,chunk,SortedTable.empty.upsert proposer⟩

def applyPropose (chainId : Nat) (block : BlockContext Hash) (fee : Nat) (tx : ProposeUpgradeTx Hash Sig) : Handler Hash Key Sig := do
  let (account,entries) ← attempt (checkPropose verifySignature proposalId (← get) chainId block fee tx)
  modify (storeAccount · tx.proposer (spend account fee))
  modify (settle · (openProposal tx.proposer (.programs tx.programs tx.artifacts tx.activateAtChunk) block.chunk) entries)

def applyProposePolicy (chainId : Nat) (block : BlockContext Hash) (fee : Nat) (tx : ProposePolicyTx Hash Sig) : Handler Hash Key Sig := do
  let (account,entries) ← attempt (checkProposePolicy verifySignature proposalId (← get) chainId block fee tx)
  modify (storeAccount · tx.proposer (spend account fee))
  modify (settle · (openProposal tx.proposer (.policy tx.policy) block.chunk) entries)

-- The vote that would enact a policy the live queue no longer fits fails.
def blocksQueue (block : BlockContext Hash) (proposal : UpgradeProposal Hash) (entries : List (ValidatorSetEntry Hash)) : Bool :=
  match proposal.action with
  | .policy policy => proposal.quorumReached entries && !decide (PolicyEnactable block policy)
  | .programs _ _ _ => false

def applyVote (chainId : Nat) (block : BlockContext Hash) (fee : Nat) (tx : VoteUpgradeTx Hash Sig) : Handler Hash Key Sig := do
  let (account,entries,proposal) ← attempt (checkVote verifySignature proposalId (← get) chainId block fee tx)
  let voted := {proposal with voters := proposal.voters.upsert tx.voter}
  attempt (ensure (blocksQueue block voted entries = false) (charged tx.voter .invalidUpgrade))
  modify (storeAccount · tx.voter (spend account fee))
  modify (settle · voted entries)
end Neutrino.Runtime
