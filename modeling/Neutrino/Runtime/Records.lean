import Neutrino.Library.Ledger
import Neutrino.Library.SortedTable
import Neutrino.Chain.Rotation

-- Records of the runtime's state, their keys and typed accessors (neutrino-default,
-- state.rs, tx.rs and governance.rs), rows decoded.
namespace Neutrino.Runtime
open Checks Consensus Chain Ledger

def maxU128 : Nat := 2^128-1
def checkedAdd128 (left right : Nat) : Option Nat := if left + right ≤ maxU128 then some (left + right) else none
def saturatingAdd128 (left right : Nat) : Nat := min (left + right) maxU128

-- floor (value * numerator / denominator) without forming the product.
def mulDivFloor (value numerator denominator : Nat) : Nat := value / denominator * numerator + value % denominator * numerator / denominator
def basisPoints : Nat := 10000
def defaultReporterRewardBps : Nat := 1000
def maxPending : Nat := 4096

inductive SanctionKind where
  | slash
  | inactivity
deriving DecidableEq

structure EvidenceAnchor (Hash : Type) where
  factGuestVkDigest : VkDigest
  chainSpecHash : Hash
  chunkId : Nat
  historyRoot : Hash
  blockGuestVkDigest : VkDigest
  evidenceGuestVkDigest : VkDigest
  unbondingDelayBlocks : Nat
  chunkSize : Nat
deriving DecidableEq

abbrev EvidenceAnchor.IsWellFormed {Hash : Type} (anchor : EvidenceAnchor Hash) : Prop :=
  0 < anchor.chunkSize ∧ anchor.chunkSize < anchor.unbondingDelayBlocks

structure RuntimePolicy where
  gasPrice : Nat
  minValidatorStake : Nat
  evidenceMaxAgeBlocks : Nat
  evidenceMaxPending : Nat
  evidenceAdmissionsPerBlock : Nat
  evidenceExecutionsPerBlock : Nat
  slashAmount : Nat
  inactivityLeakAmount : Nat
  reporterRewardBps : Nat
deriving DecidableEq

def RuntimePolicy.fromParams (params : RuntimeParams) : RuntimePolicy where
  gasPrice := params.gasPrice
  minValidatorStake := params.minValidatorStake
  evidenceMaxAgeBlocks := params.evidenceMaxAgeBlocks
  evidenceMaxPending := params.evidenceMaxPending
  evidenceAdmissionsPerBlock := params.evidenceAdmissionsPerBlock
  evidenceExecutionsPerBlock := params.evidenceExecutionsPerBlock
  slashAmount := params.slashAmount
  inactivityLeakAmount := params.inactivityLeakAmount
  reporterRewardBps := defaultReporterRewardBps

def defaultRuntimeParams : RuntimeParams where
  evidenceMaxAgeBlocks := 1024
  evidenceMaxPending := 1024
  evidenceAdmissionsPerBlock := 16
  evidenceExecutionsPerBlock := 16
  gasPrice := 1
  minValidatorStake := 32000000000
  unbondingDelayBlocks := 14*24*60*60/4
  slashAmount := maxU128
  inactivityLeakAmount := 1

abbrev RuntimePolicy.IsWellFormed (policy : RuntimePolicy) : Prop :=
  0 < policy.gasPrice ∧ 0 < policy.minValidatorStake ∧ 0 < policy.evidenceMaxAgeBlocks ∧ 0 < policy.evidenceMaxPending ∧
  policy.evidenceMaxPending ≤ maxPending ∧ 0 < policy.evidenceAdmissionsPerBlock ∧
  policy.evidenceAdmissionsPerBlock ≤ policy.evidenceMaxPending ∧ 0 < policy.evidenceExecutionsPerBlock ∧
  policy.evidenceExecutionsPerBlock ≤ policy.evidenceMaxPending ∧ policy.reporterRewardBps ≤ basisPoints

-- The governable liveness window ends strictly before the unbonding delay.
abbrev RuntimePolicy.IsValidFor {Hash : Type} (policy : RuntimePolicy) (anchor : EvidenceAnchor Hash) : Prop :=
  policy.IsWellFormed ∧ anchor.IsWellFormed ∧ policy.evidenceMaxAgeBlocks < anchor.unbondingDelayBlocks

structure Account where
  nonce : Nat
  balance : Nat
deriving DecidableEq

structure RuntimeValidator where
  stake : Nat
  active : Bool
deriving DecidableEq

structure Bonding where
  amount : Nat
  sinceHeight : Nat
deriving DecidableEq

structure Withdrawal where
  amount : Nat
  matureAtHeight : Nat
deriving DecidableEq

structure ProgramArtifacts (Hash : Type) where
  runtime : Hash
  fact : Hash
  evidence : Hash
  block : Hash
deriving DecidableEq

structure ScheduledUpgrade (Hash : Type) where
  activateAtChunk : Nat
  programs : ProgramSet Hash
  artifacts : ProgramArtifacts Hash
deriving DecidableEq

inductive ProposalAction (Hash : Type) where
  | programs (programs : ProgramSet Hash) (artifacts : ProgramArtifacts Hash) (activateAtChunk : Nat)
  | policy (policy : RuntimePolicy)
deriving DecidableEq

structure ParticipationReport (Hash : Type) where
  chunkId : Nat
  present : List Hash
  absent : List Hash
deriving DecidableEq

structure ValidatorRegistration (Hash Key Sig : Type) where
  address : Hash
  blsPubkey : Key
  popSignature : Sig
  registeredAtHeight : Nat
deriving DecidableEq

structure ValidatorSetEntry (Hash : Type) where
  address : Hash
  stake : Nat
deriving DecidableEq

-- The runtime's side of a candidate: its stake is a u128.
structure CandidateEntry (Hash Key Sig : Type) where
  address : Hash
  stake : Nat
  identity : Option (BlsIdentity Key Sig)
deriving DecidableEq

structure Sanction (Hash Key : Type) where
  offenceId : Hash
  offender : Validator Hash Key
  kind : SanctionKind
deriving DecidableEq

structure PendingSanction (Hash Key : Type) where
  sanction : Sanction Hash Key
  amount : Nat
  reporter : Option Hash
  reporterRewardBps : Nat
deriving DecidableEq

-- Exact until overflow, then the representable maximum with the flag set.
structure SettlementCounter where
  value : Nat := 0
  overflowed : Bool := false
deriving DecidableEq

def SettlementCounter.add (counter : SettlementCounter) (amount : Nat) : SettlementCounter :=
  match checkedAdd128 counter.value amount with
  | some value => {counter with value}
  | none => ⟨maxU128,true⟩

structure SettlementKindTotals where
  admitted : SettlementCounter := {}
  executed : SettlementCounter := {}
  zeroDeductions : SettlementCounter := {}
  deducted : SettlementCounter := {}
  rewarded : SettlementCounter := {}
  burned : SettlementCounter := {}
deriving DecidableEq

structure SettlementTotals where
  slash : SettlementKindTotals := {}
  inactivity : SettlementKindTotals := {}
deriving DecidableEq

def SettlementTotals.ofKind (totals : SettlementTotals) : SanctionKind → SettlementKindTotals
  | .slash => totals.slash
  | .inactivity => totals.inactivity

def SettlementTotals.update (totals : SettlementTotals) (change : SettlementKindTotals → SettlementKindTotals) :
    SanctionKind → SettlementTotals
  | .slash => {totals with slash := change totals.slash}
  | .inactivity => {totals with inactivity := change totals.inactivity}

section
variable (Hash Key Sig : Type) [LinearOrder Hash]

abbrev ValidatorSet := SortedTable (A := ValidatorSetEntry Hash) (·.address)
abbrev CandidateRecord := SortedTable (A := CandidateEntry Hash Key Sig) (·.address)
abbrev AddressIndex := SortedTable (id : Hash → Hash)

structure UpgradeProposal where
  proposer : Hash
  action : ProposalAction Hash
  proposedAtChunk : Nat
  voters : AddressIndex Hash
deriving DecidableEq
end

inductive StateKey (Hash Key : Type) where
  | account (address : Hash)
  | validator (address : Hash)
  | withdrawal (address : Hash)
  | registration (address : Hash)
  | bonding (address : Hash)
  | validatorSet
  | validatorRegistrations
  | upgrade
  | upgradeProposal
  | runtimePolicy
  | consensusCandidates
  | participation
  | absent (chunkId : Nat)
  | queue
  | offence (id : Hash)
  | slashed (pubkey : Key)
  | expiry (height : Nat)
  | settlementTotals
deriving DecidableEq

variable {Hash Key Sig : Type} [LinearOrder Hash] [DecidableEq Key]

-- A bucket lists raw keys; a marker is 0 from admission and 1 from execution.
abbrev Row (Hash Key Sig : Type) [LinearOrder Hash] : StateKey Hash Key → Type
  | .account _ => Account
  | .validator _ => RuntimeValidator
  | .withdrawal _ => List Withdrawal
  | .registration _ => ValidatorRegistration Hash Key Sig
  | .bonding _ => Bonding
  | .validatorSet => ValidatorSet Hash
  | .validatorRegistrations => AddressIndex Hash
  | .upgrade => ScheduledUpgrade Hash
  | .upgradeProposal => UpgradeProposal Hash
  | .runtimePolicy => RuntimePolicy
  | .consensusCandidates => CandidateRecord Hash Key Sig
  | .participation => ParticipationReport Hash
  | .absent _ => List Hash
  | .queue => List (PendingSanction Hash Key)
  | .offence _ => Nat
  | .slashed _ => Nat
  | .expiry _ => List (StateKey Hash Key)
  | .settlementTotals => SettlementTotals

abbrev State (Hash Key Sig : Type) [LinearOrder Hash] := Table (Row Hash Key Sig)

variable (state : State Hash Key Sig)

def loadAccount (address : Hash) : Account := (state.lookup (.account address) : Option Account).getD ⟨0,0⟩
def storeAccount (address : Hash) (account : Account) : State Hash Key Sig := state.insert (.account address) account
def loadValidatorRecord (address : Hash) : Option RuntimeValidator := state.lookup (.validator address)
def loadValidator (address : Hash) : RuntimeValidator := (loadValidatorRecord state address).getD ⟨0,false⟩
def storeValidator (address : Hash) (validator : RuntimeValidator) : State Hash Key Sig := state.insert (.validator address) validator
def loadWithdrawalQueue (address : Hash) : List Withdrawal := (state.lookup (.withdrawal address) : Option (List Withdrawal)).getD []
def storeWithdrawalQueue (address : Hash) (queue : List Withdrawal) : State Hash Key Sig := state.insert (.withdrawal address) queue
def loadValidatorSet : ValidatorSet Hash := (state.lookup .validatorSet : Option (ValidatorSet Hash)).getD SortedTable.empty
def storeValidatorSet (set : ValidatorSet Hash) : State Hash Key Sig := state.insert .validatorSet set

def loadConsensusCandidates : CandidateRecord Hash Key Sig :=
  (state.lookup .consensusCandidates : Option (CandidateRecord Hash Key Sig)).getD SortedTable.empty

def storeConsensusCandidates (candidates : CandidateRecord Hash Key Sig) : State Hash Key Sig :=
  state.insert .consensusCandidates candidates

def loadValidatorRegistrations : AddressIndex Hash :=
  (state.lookup .validatorRegistrations : Option (AddressIndex Hash)).getD SortedTable.empty

def storeValidatorRegistrations (index : AddressIndex Hash) : State Hash Key Sig :=
  if index.items = [] then state.erase .validatorRegistrations else state.insert .validatorRegistrations index

def loadValidatorRegistration (address : Hash) : Option (ValidatorRegistration Hash Key Sig) := state.lookup (.registration address)
def loadBonding (address : Hash) : Option Bonding := state.lookup (.bonding address)

def loadRuntimePolicy : RuntimePolicy :=
  (state.lookup .runtimePolicy : Option RuntimePolicy).getD (RuntimePolicy.fromParams defaultRuntimeParams)

def loadProposal : Option (UpgradeProposal Hash) := state.lookup .upgradeProposal
def loadScheduled : Option (ScheduledUpgrade Hash) := state.lookup .upgrade
def loadQueue : List (PendingSanction Hash Key) := (state.lookup .queue : Option (List (PendingSanction Hash Key))).getD []
def loadTotals : SettlementTotals := (state.lookup .settlementTotals : Option SettlementTotals).getD {}
def withdrawalTotal (queue : List Withdrawal) : Nat := queue.foldl (fun total entry => saturatingAdd128 total entry.amount) 0
end Neutrino.Runtime
