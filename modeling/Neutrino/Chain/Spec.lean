import Neutrino.Consensus.Verification

-- The chain specification's consistency checks (primitives, lib.rs) and what they read.
namespace Neutrino.Chain
open Checks Consensus

def maxU64 : Nat := 2^64-1

-- What decides a digest's membership in a list; opened where a definition needs it.
theorem lawful_equality [LinearOrder Hash] : LawfulBEq Hash := inferInstance

def checkedAdd (left right : Nat) : Option Nat := if left + right < 2^64 then some (left + right) else none
def checkedMul (left right : Nat) : Option Nat := if left * right < 2^64 then some (left * right) else none
def checkedSub (left right : Nat) : Option Nat := if right ≤ left then some (left - right) else none

theorem checked_add_some : checkedAdd left right = some sum ↔ left + right = sum ∧ sum < 2^64 := by
  unfold checkedAdd
  split <;> simp_all <;> omega

theorem checked_mul_some : checkedMul left right = some product ↔ left * right = product ∧ product < 2^64 := by
  unfold checkedMul
  split
  · simp only [Option.some.injEq]
    exact ⟨fun same => ⟨same,by omega⟩,fun facts => facts.1⟩
  · refine ⟨nofun,fun ⟨same,small⟩ => ?_⟩
    omega

theorem checked_sub_some : checkedSub left right = some difference ↔ left = right + difference := by
  unfold checkedSub
  split <;> simp_all <;> omega

-- Every timing and voting constant; the voting rules read the inherited ones.
structure ConsensusConstants extends ConsensusParams where
  slotDurationSecs : Nat
  epochLength : Nat
  chunkTimeoutSlots : Nat
  proofWindowSlots : Nat
  finalityStallThresholdSlots : Nat
  proposerBoostFraction : Nat
  expectedProposersPerSlot : Nat
  expectedAggregatorsPerRound : Nat
  voteSubnets : Nat
  validatorSubnetsPerChunk : Nat
  bftRoundTimeoutBaseSecs : Nat
  bftRoundTimeoutStepSecs : Nat
  epochLengthInChunks : Nat
  activationDelayEpochs : Nat
  exitDelayEpochs : Nat
deriving DecidableEq

structure StateParams where
  keepStateBlocks : Nat
  pruningDelayChunks : Nat
  witnessRetentionBlocks : Nat
  snapshotIntervalChunks : Nat
deriving DecidableEq

structure LightClientParams where
  weakSubjectivityPeriodSecs : Nat
  anchorIntervalChunks : Nat
  staleThresholdSecs : Nat
deriving DecidableEq

structure RuntimeParams where
  evidenceMaxAgeBlocks : Nat
  evidenceMaxPending : Nat
  evidenceAdmissionsPerBlock : Nat
  evidenceExecutionsPerBlock : Nat
  gasPrice : Nat
  minValidatorStake : Nat
  unbondingDelayBlocks : Nat
  slashAmount : Nat
  inactivityLeakAmount : Nat
deriving DecidableEq

structure ChainSpec (Hash Key : Type) where
  chainId : Nat
  genesisTime : Nat
  genesisGasLimit : Nat
  runtimeCodeHash : Hash
  genesisSeed : Hash
  genesisStateRoot : Hash
  genesisBlockHash : Hash
  genesisValidatorSetRoot : Hash
  consensus : ConsensusConstants
  slotBudgetPerChunk : Nat
  state : StateParams
  lightClient : LightClientParams
  runtime : RuntimeParams
  initialValidators : List (Validator Hash Key)
deriving DecidableEq

inductive ChainSpecError where
  | invalidEvidencePolicy
  | zeroGasPrice
  | zeroMinValidatorStake
  | zeroChainId
  | invalidGenesisValidatorRoot
  | zeroConsensusParameter
  | invalidQuorum
  | invalidFixedPointParameter
  | zeroProofParameter
  | slotBudgetDoesNotMatchChunkSize
  | zeroStateParameter
  | zeroLightClientParameter
  | weakSubjectivityOutlivesAccountability
  | emptyValidatorSet
  | zeroValidatorStake
  | validatorStakeOverflow
  | nonGenesisInitialValidator
deriving DecidableEq

def fixedU128One : Nat := 2^64

def ConsensusConstants.validate (params : ConsensusConstants) : Except ChainSpecError Unit := do
  ensure (params.slotDurationSecs ≠ 0 ∧ params.epochLength ≠ 0 ∧ params.chunkSize ≠ 0 ∧ params.chunkTimeoutSlots ≠ 0 ∧
    params.proofWindowSlots ≠ 0 ∧ params.finalityStallThresholdSlots ≠ 0 ∧ params.bftRoundTimeoutBaseSecs ≠ 0 ∧
    params.bftRoundTimeoutStepSecs ≠ 0) .zeroConsensusParameter
  ensure (quorumFractionValid params.bftPrevoteQuorumNumerator params.bftPrevoteQuorumDenominator = true) .invalidQuorum
  ensure (quorumFractionValid params.bftPrecommitQuorumNumerator params.bftPrecommitQuorumDenominator = true) .invalidQuorum
  ensure (params.voteSubnets ≠ 0 ∧ params.validatorSubnetsPerChunk ≠ 0) .zeroConsensusParameter
  ensure (params.expectedProposersPerSlot ≠ 0 ∧ params.expectedAggregatorsPerRound ≠ 0 ∧
    params.proposerBoostFraction ≤ fixedU128One) .invalidFixedPointParameter
  ensure (params.epochLengthInChunks ≠ 0 ∧ params.activationDelayEpochs ≠ 0 ∧ params.exitDelayEpochs ≠ 0) .zeroConsensusParameter

-- Initial validators are staked, born at genesis and sum within u64.
def validateInitial {Hash Key : Type} : Nat → List (Validator Hash Key) → Except ChainSpecError Nat
  | total,[] => .ok total
  | total,validator::rest => do
    ensure (validator.effectiveStake ≠ 0) .zeroValidatorStake
    ensure (validator.activationEpoch = 0 ∧ validator.exitEpoch = maxU64) .nonGenesisInitialValidator
    ensure (total + validator.effectiveStake < 2^64) .validatorStakeOverflow
    validateInitial (total + validator.effectiveStake) rest

-- The liveness window ends before unbonding and the queue bounds nest.
abbrev RuntimeParams.evidencePolicyValid (runtime : RuntimeParams) (chunkSize : Nat) : Prop :=
  runtime.evidenceMaxAgeBlocks ≠ 0 ∧ runtime.evidenceMaxAgeBlocks < runtime.unbondingDelayBlocks ∧
    chunkSize < runtime.unbondingDelayBlocks ∧ runtime.evidenceMaxPending ≠ 0 ∧ runtime.evidenceMaxPending ≤ 4096 ∧
    runtime.evidenceExecutionsPerBlock ≠ 0 ∧ runtime.evidenceExecutionsPerBlock ≤ runtime.evidenceMaxPending ∧
    runtime.evidenceAdmissionsPerBlock ≠ 0 ∧ runtime.evidenceAdmissionsPerBlock ≤ runtime.evidenceMaxPending

def ChainSpec.validate {Hash Key : Type} [DecidableEq Hash] (commitment : List (Validator Hash Key) → Hash)
    (spec : ChainSpec Hash Key) : Except ChainSpecError Unit := do
  ensure (spec.chainId ≠ 0) .zeroChainId
  spec.consensus.validate
  ensure (spec.slotBudgetPerChunk ≠ 0) .zeroProofParameter
  ensure (spec.slotBudgetPerChunk = spec.consensus.chunkSize) .slotBudgetDoesNotMatchChunkSize
  ensure (spec.state.keepStateBlocks ≠ 0 ∧ spec.state.pruningDelayChunks ≠ 0 ∧
    spec.state.witnessRetentionBlocks ≠ 0 ∧ spec.state.snapshotIntervalChunks ≠ 0) .zeroStateParameter
  ensure (spec.lightClient.weakSubjectivityPeriodSecs ≠ 0 ∧ spec.lightClient.anchorIntervalChunks ≠ 0 ∧
    spec.lightClient.staleThresholdSecs ≠ 0) .zeroLightClientParameter
  ensure (spec.runtime.evidencePolicyValid spec.consensus.chunkSize) .invalidEvidencePolicy
  ensure (spec.runtime.gasPrice ≠ 0) .zeroGasPrice
  ensure (spec.runtime.minValidatorStake ≠ 0) .zeroMinValidatorStake
  -- Trust may not outlast the time in which a signer can still be punished.
  ensure ((checkedMul spec.runtime.unbondingDelayBlocks spec.consensus.slotDurationSecs).any
    (fun seconds => decide (spec.lightClient.weakSubjectivityPeriodSecs ≤ seconds)) = true)
    .weakSubjectivityOutlivesAccountability
  ensure (spec.initialValidators ≠ []) .emptyValidatorSet
  ensure (spec.genesisValidatorSetRoot = commitment spec.initialValidators) .invalidGenesisValidatorRoot
  let _ ← validateInitial 0 spec.initialValidators
  pure ()
-- One validator, one block a chunk.
def soloSpec : ChainSpec Nat Nat where
  chainId := 7
  genesisTime := 100
  genesisGasLimit := 9
  runtimeCodeHash := 0
  genesisSeed := 0
  genesisStateRoot := 0
  genesisBlockHash := 0
  genesisValidatorSetRoot := 0
  consensus := ⟨⟨1,2,3,2,3⟩,1,1,1,1,1,0,1,1,1,1,1,1,1,1,1⟩
  slotBudgetPerChunk := 1
  state := ⟨1,1,1,1⟩
  lightClient := ⟨50,1,40⟩
  runtime := ⟨1,1,1,1,1,1,60,1,1⟩
  initialValidators := [⟨1,0,1,false,0,maxU64,0⟩]
end Neutrino.Chain
