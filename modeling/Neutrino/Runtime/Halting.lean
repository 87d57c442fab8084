import Neutrino.Runtime.Settlement

-- Genesis (node, genesis.rs), and whether its chain can always take one more block.
namespace Neutrino.Runtime
open Checks Consensus Chain Ledger

inductive GenesisError where
  | duplicateAccount
  | duplicateCredentials
deriving DecidableEq

section
variable {Hash Key Sig : Type} [LinearOrder Hash] [DecidableEq Key]

section
attribute [local instance] Chain.lawful_equality
def seedAccounts : List Hash → State Hash Key Sig → List (Hash × Nat) → Except GenesisError (State Hash Key Sig)
  | _,state,[] => .ok state
  | seen,state,(address,balance)::rest => do
    ensure (address ∉ seen) .duplicateAccount
    seedAccounts (address::seen) (storeAccount state address ⟨0,balance⟩) rest
end

def seedValidators (zeroHash : Hash) : State Hash Key Sig → ValidatorSet Hash → CandidateRecord Hash Key Sig →
    List (Validator Hash Key) → Except GenesisError (State Hash Key Sig × ValidatorSet Hash × CandidateRecord Hash Key Sig)
  | state,set,candidates,[] => .ok (state,set,candidates)
  | state,set,candidates,validator::rest =>
    let address := validator.withdrawalCredentials
    let stake := validator.effectiveStake
    if address = zeroHash then seedValidators zeroHash state set candidates rest
    else do
      ensure (set.contains address = false) .duplicateCredentials
      seedValidators zeroHash (storeValidator state address ⟨stake,decide (0 < stake)⟩)
        (if 0 < stake then set.upsert ⟨address,stake⟩ else set) (candidates.upsert ⟨address,stake,none⟩) rest

def buildGenesisState (zeroHash : Hash) (accounts : List (Hash × Nat)) (validators : List (Validator Hash Key))
    (runtime : RuntimeParams) : Except GenesisError (State Hash Key Sig) := do
  let seeded ← seedAccounts [] (∅ : AList (Row Hash Key Sig)) accounts
  let (state,set,candidates) ← seedValidators zeroHash seeded SortedTable.empty SortedTable.empty validators
  let listed := if set.items = [] then state else storeValidatorSet state set
  let known := if candidates.items = [] then listed else storeConsensusCandidates listed candidates
  pure (known.insert .runtimePolicy (RuntimePolicy.fromParams runtime))

variable {zeroHash : Hash} {state next : State Hash Key Sig}

def Seeded : StateKey Hash Key → Prop
  | .account _ | .validator _ => True
  | _ => False

theorem seeded_bonded (seeded : Seeded key) : Bonded key := by
  cases key <;> simp_all [Seeded,Bonded]

theorem seed_accounts_frame (seeded : seedAccounts seen state accounts = .ok next) : Frame Seeded state next := by
  induction accounts generalizing seen state with
  | nil =>
    cases seeded
    exact .refl _
  | cons entry rest ih =>
    simp only [seedAccounts,bind_ok,ensure_ok] at seeded
    obtain ⟨_,-,later⟩ := seeded
    exact ((Frame.refl state).insert (.account entry.1) trivial _).trans (ih later)

theorem seed_validators_frame {set finalSet : ValidatorSet Hash}
    (seeded : seedValidators zeroHash state set candidates validators = .ok (next,finalSet,finalCandidates)) : Frame Seeded state next := by
  induction validators generalizing state set candidates with
  | nil =>
    cases seeded
    exact .refl _
  | cons validator rest ih =>
    rw [seedValidators] at seeded
    split at seeded
    · exact ih seeded
    · simp only [bind_ok,ensure_ok] at seeded
      obtain ⟨_,-,later⟩ := seeded
      exact ((Frame.refl state).insert (.validator _) trivial _).trans (ih later)

theorem genesis_rows (built : buildGenesisState zeroHash accounts validators runtime = .ok state) :
    loadRuntimePolicy state = RuntimePolicy.fromParams runtime ∧ ∀ key, ¬Bonded key → key ≠ .runtimePolicy → state.lookup key = none := by
  simp only [buildGenesisState,bind_ok,pure_ok] at built
  obtain ⟨seeded,accounted,⟨validated,set,candidates⟩,staked,rfl⟩ := built
  refine ⟨by rw [loadRuntimePolicy,AList.lookup_insert]; rfl,fun key outside other => ?_⟩
  have frame : Frame Bonded (∅ : AList (Row Hash Key Sig)) validated :=
    ((seed_accounts_frame accounted).trans (seed_validators_frame staked)).widen fun _ => seeded_bonded
  have rows : Frame Bonded validated (if candidates.items = [] then
      (if set.items = [] then validated else storeValidatorSet validated set)
      else storeConsensusCandidates (if set.items = [] then validated else storeValidatorSet validated set) candidates) := by
    have listed : Frame Bonded validated (if set.items = [] then validated else storeValidatorSet validated set) := by
      split
      · exact .refl _
      · exact (Frame.refl validated).insert .validatorSet trivial set
    split
    · exact listed
    · exact listed.insert .consensusCandidates trivial candidates
  rw [AList.lookup_insert_ne other]
  exact (frame.trans rows key outside).trans (AList.lookup_empty key)

theorem genesis_unburdened (built : buildGenesisState zeroHash accounts validators runtime = .ok state) : Unburdened state := by
  have absent := (genesis_rows built).2
  refine ⟨?_,?_,fun height => absent (.expiry height) id (by simp)⟩
  · rw [loadQueue,absent .queue id (by simp)]
    rfl
  · rw [loadTotals,absent .settlementTotals id (by simp)]
    rfl
end
section
variable {Hash Key Sig : Type} [LinearOrder Hash] [DecidableEq Key]

theorem mul_div_floor_le (share : numerator ≤ denominator) : mulDivFloor value numerator denominator ≤ value := by
  have whole : value / denominator * numerator ≤ value / denominator * denominator := Nat.mul_le_mul_left _ share
  have part : value % denominator * numerator / denominator ≤ value % denominator := by
    rcases Nat.eq_zero_or_pos denominator with rfl | positive
    · simp
    · exact Nat.div_le_of_le_mul (by rw [Nat.mul_comm denominator]; exact Nat.mul_le_mul_left _ share)
  have split := Nat.div_add_mod value denominator
  rw [Nat.mul_comm] at split
  rw [mulDivFloor]
  omega

theorem deduct_total (state : State Hash Key Sig) (share : item.reporterRewardBps ≤ basisPoints) :
    ∃ done next, deduct state item = .ok (done,next) ∧ done.rewarded ≤ done.deducted := by
  unfold deduct
  split
  · rename_i deducted next _
    have paid : ∃ rewarded after, rewardReporter next item deducted = .ok (rewarded,after) ∧ rewarded ≤ deducted := by
      unfold rewardReporter
      split
      · rw [creditReporter,ensure_pos share]
        simp only [ok_bind]
        split
        · exact ⟨_,_,rfl,Nat.zero_le _⟩
        · exact ⟨_,_,rfl,Nat.le_trans (Nat.min_le_left _ _) (mul_div_floor_le share)⟩
      · exact ⟨_,_,rfl,Nat.zero_le _⟩
    obtain ⟨rewarded,after,credited,bound⟩ := paid
    rw [credited]
    exact ⟨_,_,rfl,bound⟩
  · exact ⟨_,_,rfl,Nat.le_refl _⟩
  · rename_i status other failed
    simp only [applyDeduction,bind_error,ensure_error] at failed
    rcases failed with ⟨-,rfl⟩ | ⟨_,-,wrong⟩
    · exact absurd rfl other
    · cases wrong

theorem execute_all_total {items : List (PendingSanction Hash Key)}
    (shares : ∀ item ∈ items, item.reporterRewardBps ≤ basisPoints) (state : State Hash Key Sig) (totals : SettlementTotals) :
    ∃ result, executeAll state totals items = .ok result := by
  induction items generalizing state totals with
  | nil => exact ⟨_,rfl⟩
  | cons item rest ih =>
    obtain ⟨done,next,deducted,bound⟩ := deduct_total state (shares item (by simp))
    have first : ∃ after, executePending state totals item = .ok (done,after) := by
      rw [executePending,deducted]
      simp only [ok_bind,SettlementTotals.noteExecuted,ensure_pos bound]
      exact ⟨_,rfl⟩
    obtain ⟨⟨after,middle⟩,one⟩ := first
    obtain ⟨result,later⟩ := ih (fun other member => shares other (List.mem_cons_of_mem _ member)) middle after
    rw [executeAll,one]
    simp only [ok_bind,later]
    exact ⟨_,rfl⟩
end
section
variable {Hash Key Sig : Type} [LinearOrder Hash] [DecidableEq Key]

structure Governed (spec : ChainSpec Hash Key) (input : StfInput Hash Key Sig) : Prop where
  delay : input.evidenceAnchor.unbondingDelayBlocks = spec.runtime.unbondingDelayBlocks
  chunk : input.evidenceAnchor.chunkSize = spec.consensus.chunkSize
  gas : input.blockGasLimit = spec.genesisGasLimit

structure Advances (host : Host Hash Key Sig) (spec : ChainSpec Hash Key) (before : State Hash Key Sig)
    (block : Executed Hash Key Sig) (after : State Hash Key Sig) : Prop extends Completes host before block after where
  governed : Governed spec block.input

def ValidUnder (spec : ChainSpec Hash Key) (policy : RuntimePolicy) : Prop :=
  policy.IsWellFormed ∧ policy.evidenceMaxAgeBlocks < spec.runtime.unbondingDelayBlocks

-- The policy in force and the one that may replace it are valid.
structure PoliciesValid (spec : ChainSpec Hash Key) (state : State Hash Key Sig) : Prop where
  current : ValidUnder spec (loadRuntimePolicy state)
  proposed : ∀ proposal policy, loadProposal state = some proposal → proposal.action = .policy policy → ValidUnder spec policy

variable {state next : State Hash Key Sig} {blocks : List (Executed Hash Key Sig)}

theorem execute_advances (done : execute host tip inputs = .ok (blocks,last))
    (governed : ∀ input ∈ inputs, Governed spec input) : Runs (Advances host spec) tip.state blocks last.state := by
  induction inputs generalizing tip blocks with
  | nil =>
    cases done
    exact .nil
  | cons input rest ih =>
    simp only [execute,bind_ok,pure_ok,Prod.mk.injEq] at done
    obtain ⟨output,first,⟨later,_⟩,tail,rfl,rfl⟩ := done
    have one : Runs (Advances host spec) tip.state [⟨tip.state,input,output⟩] output.state :=
      Runs.snoc .nil ⟨⟨rfl,first,rfl⟩,governed input (by simp)⟩
    exact one.append (ih tail fun other member => governed other (by simp [member]))

theorem PoliciesValid.congr (valid : PoliciesValid spec state) (policy : next.lookup .runtimePolicy = state.lookup .runtimePolicy)
    (proposal : next.lookup .upgradeProposal = none ∨ next.lookup .upgradeProposal = state.lookup .upgradeProposal) :
    PoliciesValid spec next := by
  refine ⟨?_,fun found wanted loaded action => ?_⟩
  · rw [loadRuntimePolicy,policy]
    exact valid.current
  · rw [loadProposal] at loaded
    rcases proposal with gone | same
    · rw [gone] at loaded
      cases loaded
    · rw [same] at loaded
      exact valid.proposed found wanted loaded action

theorem Outcome.policies (outcome : Outcome facts state next)
    (delay : facts.governance.anchor.unbondingDelayBlocks = spec.runtime.unbondingDelayBlocks)
    (valid : PoliciesValid spec state) : PoliciesValid spec next := by
  cases outcome with
  | staking frame => exact valid.congr (frame _ (by simp [Bonded])) (.inr (frame _ (by simp [Bonded])))
  | @governance proposal entries signer account sanctioned =>
    have checked : ∀ policy, proposal.action = .policy policy → ValidUnder spec policy := by
      intro policy action
      rcases sanctioned.origin policy action with ⟨formed,-,window⟩ | ⟨earlier,loaded,same⟩
      · exact ⟨formed,delay ▸ window⟩
      · exact valid.proposed earlier policy loaded same
    have paid := store_account_frame state signer account
    refine ⟨?_,fun found policy loaded action => ?_⟩
    · rcases settle_policy (storeAccount state signer account) proposal entries with same | ⟨-,action⟩
      · rw [same,loadRuntimePolicy,paid .runtimePolicy (by simp [Bonded])]
        exact valid.current
      · exact checked _ action
    · rw [settle] at loaded
      split at loaded
      · cases (AList.lookup_erase _ _).symm.trans loaded
      · cases (AList.lookup_insert _).symm.trans loaded
        exact checked policy action

theorem expire_proposal_row (chunk : Nat) : (expire state chunk).lookup .upgradeProposal = none ∨
      (expire state chunk).lookup .upgradeProposal = state.lookup .upgradeProposal := by
  have scheduled : (expireScheduled state chunk).lookup .upgradeProposal = state.lookup .upgradeProposal := by
    rw [expireScheduled]
    split
    · exact AList.lookup_erase_ne (by simp)
    · rfl
  rw [expire,expireProposal]
  split
  · exact .inl (AList.lookup_erase _ _)
  · exact .inr scheduled

theorem Advances.policies (step : Advances host spec state block next) (sound : BucketsSound state)
    (valid : PoliciesValid spec state) : PoliciesValid spec next := by
  obtain ⟨-,⟨totals,after,run⟩,ordinary⟩ := apply_block_ok step.completed
  have kept : ∀ key : StateKey Hash Key, key = .runtimePolicy ∨ key = .upgradeProposal →
      block.output.mandatory.state.lookup key = state.lookup key := by
    intro key row
    rw [phase_lookup run (by rcases row with rfl | rfl <;> simp) (by rcases row with rfl | rfl <;> simp)]
    rcases row with rfl | rfl <;>
      exact executions_lookup sound run ⟨by simp [IsMarker],by simp [Participates],by simp⟩ (by simp [Bonded])
  have final : PoliciesValid spec (applyOrdinary host block.input (loadRuntimePolicy state) block.output.mandatory).1 := by
    refine ordinary_induct (PoliciesValid spec) ?_ fun _ _ outcome => outcome.policies step.governed.delay
    refine valid.congr ?_ ?_
    · rw [expire_frame _ _ .runtimePolicy (by simp [Scheduling]),kept _ (.inl rfl)]
    · rw [← kept _ (.inr rfl)]
      exact expire_proposal_row _
  rw [ordinary] at final
  rw [step.result]
  exact final

theorem Advances.shares (step : Advances host spec state block next) (injective : Function.Injective host.queueCommitment)
    (sound : BucketsSound state) (shares : ∀ item ∈ loadQueue state, item.reporterRewardBps ≤ basisPoints) :
    ∀ item ∈ loadQueue next, item.reporterRewardBps ≤ basisPoints := by
  intro item member
  obtain ⟨-,⟨_,_,run⟩,-⟩ := apply_block_ok step.completed
  have listed : item ∈ loadQueue state ++ block.obligations := by
    rw [← step.fifo injective sound]
    exact List.mem_append_right _ member
  rcases List.mem_append.mp listed with old | new
  · exact shares item old
  · obtain ⟨claim,-,rfl⟩ := List.mem_map.mp new
    obtain ⟨⟨-,-,-,-,-,-,-,-,-,bps⟩,-⟩ := run.valid
    rw [← step.start] at bps
    unfold obligation
    split
    · exact bps
    · exact Nat.zero_le _

structure Steady (spec : ChainSpec Hash Key) (blocks : List (Executed Hash Key Sig)) (state : State Hash Key Sig) : Prop where
  settled : Settled blocks state
  policies : PoliciesValid spec state
  shares : ∀ item ∈ loadQueue state, item.reporterRewardBps ≤ basisPoints

def Affordable (spec : ChainSpec Hash Key) (state : State Hash Key Sig) : Prop :=
  (loadRuntimePolicy state).evidenceExecutionsPerBlock * gasSanction ≤ spec.genesisGasLimit

variable {commitment : List (Validator Hash Key) → Hash}

theorem spec_parts (valid : spec.validate commitment = .ok ()) :
    ValidUnder spec (RuntimePolicy.fromParams spec.runtime) ∧ 0 < spec.consensus.chunkSize ∧
    spec.consensus.chunkSize < spec.runtime.unbondingDelayBlocks := by
  simp only [ChainSpec.validate,ConsensusConstants.validate,bind_ok,ensure_ok] at valid
  obtain ⟨-,-,-,⟨-,⟨-,-,chunk,-⟩,-⟩,-,-,-,-,-,-,-,-,-,
    ⟨age,window,chunkWindow,pending,bound,executions,executionBound,admissions,admissionBound⟩,-,price,-,stake,-⟩ := valid
  refine ⟨⟨⟨?_,?_,?_,?_,?_,?_,?_,?_,?_,?_⟩,window⟩,Nat.pos_of_ne_zero chunk,chunkWindow⟩
  all_goals simp only [RuntimePolicy.fromParams,maxPending,defaultReporterRewardBps,basisPoints]
  all_goals omega

theorem steady_run {zeroHash : Hash} (injective : Function.Injective host.queueCommitment) (valid : spec.validate commitment = .ok ())
    (built : buildGenesisState zeroHash accounts spec.initialValidators spec.runtime = .ok start)
    (run : Runs (Advances host spec) start blocks state) : Steady spec blocks state := by
  obtain ⟨policy,absent⟩ := genesis_rows built
  have unburdened := genesis_unburdened built
  have settled : Settled [] start := settled_run injective unburdened .nil
  refine run.invariant (Steady spec) ⟨settled,⟨?_,fun proposal wanted loaded _ => ?_⟩,fun item member => ?_⟩
    fun _ _ _ _ _ steady step => ⟨settled_step injective step.toCompletes steady.settled,
      step.policies steady.settled.sound steady.policies,step.shares injective steady.settled.sound steady.shares⟩
  · rw [policy]
    exact (spec_parts valid).1
  · rw [loadProposal,absent .upgradeProposal id (by simp)] at loaded
    exact nomatch loaded
  · rw [unburdened.queue] at member
    exact nomatch member

theorem empty_block_completes (valid : spec.validate commitment = .ok ()) (steady : Steady spec blocks state)
    (affordable : Affordable spec state) (governed : Governed spec input) (empty : input.transactions = []) :
    ∃ output, applyBlock host input state = .ok output := by
  obtain ⟨-,chunk,delay⟩ := spec_parts valid
  obtain ⟨formed,window⟩ := steady.policies.current
  have anchor : input.evidenceAnchor.IsWellFormed := by
    rw [EvidenceAnchor.IsWellFormed,governed.delay,governed.chunk]
    exact ⟨chunk,delay⟩
  have policyValid : (loadRuntimePolicy state).IsValidFor input.evidenceAnchor := ⟨formed,anchor,by rw [governed.delay]; exact window⟩
  have checked : checkAdmissions host input = .ok () := by
    simp only [checkAdmissions,empty,ensure_pos anchor]
    rfl
  have policyChecked : checkPolicy input (loadRuntimePolicy state) = .ok () := by
    simp only [checkPolicy,empty,ensure_pos policyValid]
    rfl
  have queue := participation_queue state input.participation
  have bounded := steady.settled.bounded
  obtain ⟨-,-,-,-,pending,-,-,-,executions,-⟩ := formed
  have gas : (loadRuntimePolicy state).evidenceExecutionsPerBlock * gasSanction ≤ input.blockGasLimit := by
    rw [governed.gas]
    exact affordable
  have count : min (loadQueue state).length (loadRuntimePolicy state).evidenceExecutionsPerBlock * gasSanction ≤
      (loadRuntimePolicy state).evidenceExecutionsPerBlock * gasSanction := Nat.mul_le_mul_right _ (Nat.min_le_right _ _)
  have small : (loadRuntimePolicy state).evidenceExecutionsPerBlock * gasSanction < 2^64 := by
    simp only [maxPending] at pending
    simp only [gasSanction]
    omega
  have mandatory : ∃ result, applyMandatory host input (applyParticipation state input.participation) (loadRuntimePolicy state) =
      .ok result := by
    simp only [applyMandatory,policyChecked,ok_bind,collectAdmissions,empty,submissions,collectFrom,queue,List.length_nil,
      Nat.zero_mul,Nat.add_zero]
    rw [ensure_pos bounded,ensure_pos (by omega),ensure_pos (by decide),ensure_pos ⟨by omega,by omega⟩,ensure_pos (by omega)]
    simp only [ok_bind,enqueueAdmissions,List.map_nil,List.append_nil]
    obtain ⟨⟨executed,totals,after⟩,done⟩ := execute_all_total (fun item member => steady.shares item (List.mem_of_mem_take member)) _ _
    rw [done]
    exact ⟨_,rfl⟩
  obtain ⟨result,done⟩ := mandatory
  rw [applyBlock,checked]
  simp only [Except.mapError,ok_bind,done]
  exact ⟨_,rfl⟩

-- Every state whose enacted policies all fit the block gas takes the next empty block.
theorem chain_never_halts {zeroHash : Hash} {accounts : List (Hash × Nat)} {commitment : List (Validator Hash Key) → Hash}
    {start : State Hash Key Sig} {blocks : List (Executed Hash Key Sig)}
    (injective : Function.Injective host.queueCommitment) (valid : spec.validate commitment = .ok ())
    (covers : spec.runtime.evidenceExecutionsPerBlock * gasSanction ≤ spec.genesisGasLimit)
    (built : buildGenesisState zeroHash accounts spec.initialValidators spec.runtime = .ok start)
    (run : Runs (Advances host spec) start blocks state)
    (affordable : ∀ block ∈ blocks.getLast?, Affordable spec block.output.state) {input : StfInput Hash Key Sig}
    (governed : Governed spec input) (empty : input.transactions = []) : ∃ output, applyBlock host input state = .ok output := by
  refine empty_block_completes valid (steady_run injective valid built run) ?_ governed empty
  rcases List.eq_nil_or_concat blocks with rfl | ⟨earlier,block,rfl⟩
  · rw [run.nil_inv,Affordable,(genesis_rows built).1]
    exact covers
  · rw [List.concat_eq_append] at run affordable
    obtain ⟨_,-,step⟩ := run.snoc_inv
    rw [step.result]
    exact affordable block (by simp)
end

-- Block gas for a proposal and one sanction; a quorum of one then enacts a policy
-- that executes 64 sanctions a block.
section
def tightRuntime : RuntimeParams where
  evidenceMaxAgeBlocks := 1
  evidenceMaxPending := 64
  evidenceAdmissionsPerBlock := 10
  evidenceExecutionsPerBlock := 1
  gasPrice := 1
  minValidatorStake := 1
  unbondingDelayBlocks := 2
  slashAmount := 1
  inactivityLeakAmount := 1

def tightSpec : ChainSpec Nat Nat := {soloSpec with
  genesisTime := 0
  genesisGasLimit := 105000
  consensus := {soloSpec.consensus with proposerBoostFraction := 1}
  lightClient := ⟨1,1,1⟩
  runtime := tightRuntime
  initialValidators := [⟨1,1,10,false,0,2^64-1,0⟩]}

def widePolicy : RuntimePolicy := {RuntimePolicy.fromParams tightRuntime with evidenceExecutionsPerBlock := 64}

def tightHost : Host Nat Nat Nat := {sampleHost with
  queueCommitment := fun queue => queue.foldl (fun code item => code * 100 + item.sanction.offenceId) 1}

def slashClaim (member : Nat) : EvidenceSubmission Nat Nat :=
  ⟨⟨7,0,0,⟨0,0,1,0,0,0,0⟩,⟨member,99,10,false,0,100,0⟩,.slash,member,0,none⟩,⟨0,0,[]⟩⟩

def slashClaims (height count : Nat) : List (Transaction Nat Nat Nat) :=
  (List.range count).map fun member => .submitEvidence {slashClaim (10 * height + member) with history := ⟨0,height - 1,[]⟩}

def wideTransactions (height : Nat) : List (Transaction Nat Nat Nat) :=
  if 2 ≤ height ∧ height ≤ 4 then slashClaims height 10
  else if height = 5 then [.proposePolicy ⟨1,widePolicy,0,0⟩]
  else []

def quietTransactions (height : Nat) : List (Transaction Nat Nat Nat) := if height = 2 then slashClaims 2 2 else []

def tightInput (transactions : Nat → List (Transaction Nat Nat Nat)) (height : Nat) : StfInput Nat Nat Nat where
  evidenceAnchor := ⟨0,0,height - 1,0,0,0,2,1⟩
  chainId := 7
  blockHeight := height
  blockGasLimit := 105000
  proposerAddress := 9
  participation := none
  transactions := transactions height

def tightGenesis : Except GenesisError (State Nat Nat Nat) := buildGenesisState 0 [(1,200000)] tightSpec.initialValidators tightSpec.runtime

def tightRun (host : Host Nat Nat Nat) (transactions : Nat → List (Transaction Nat Nat Nat)) (blocks : Nat) :
    Except Panic (State Nat Nat Nat × List (Executed Nat Nat Nat) × Tip Nat Nat Nat) := do
  let start ← tightGenesis.mapError fun _ => .invalidPolicy
  let done ← execute host ⟨start,0⟩ ((List.range' 1 blocks).map (tightInput transactions))
  pure (start,done)

theorem tight_governed (transactions : Nat → List (Transaction Nat Nat Nat)) (height : Nat) :
    Governed tightSpec (tightInput transactions height) := ⟨rfl,rfl,rfl⟩

theorem tight_runs {blocks : List (Executed Nat Nat Nat)} (done : tightRun host transactions count = .ok (start,blocks,tip)) :
    tightGenesis = .ok start ∧ Runs (Advances host tightSpec) start blocks tip.state := by
  simp only [tightRun,bind_ok,mapError_ok,pure_ok,Prod.mk.injEq] at done
  obtain ⟨_,built,_,run,rfl,rfl⟩ := done
  refine ⟨built,execute_advances run fun input member => ?_⟩
  obtain ⟨height,-,rfl⟩ := List.mem_map.mp member
  exact tight_governed transactions height

def failsWith {A : Type} (panic : Panic) : Except Panic A → Bool
  | .error reason => decide (reason = panic)
  | .ok _ => false

theorem fails_with {panic : Panic} (fails : failsWith panic result = true) : result = .error panic := by
  cases result with
  | error reason => rw [of_decide_eq_true fails]
  | ok => exact nomatch fails

-- The proposal passes; the next block has 26 sanctions to execute and gas for 21.
theorem enacted_policy_halts : tightSpec.validate (fun _ => 0) = .ok () ∧
    tightSpec.runtime.evidenceExecutionsPerBlock * gasSanction ≤ tightSpec.genesisGasLimit ∧
    ∃ start blocks state, tightGenesis = .ok start ∧ Runs (Advances tightHost tightSpec) start blocks state ∧
      Governed tightSpec (tightInput wideTransactions 6) ∧ (tightInput wideTransactions 6).transactions = [] ∧
      applyBlock tightHost (tightInput wideTransactions 6) state = .error .mandatorySanctionGas := by
  have facts : (tightRun tightHost wideTransactions 5).toOption.any (fun done =>
      failsWith .mandatorySanctionGas (applyBlock tightHost (tightInput wideTransactions 6) done.2.2.state)) = true := by
    decide +kernel
  obtain ⟨⟨start,blocks,tip⟩,done,halts⟩ := completed_check facts
  obtain ⟨built,run⟩ := tight_runs done
  exact ⟨rfl,by decide,start,blocks,tip.state,built,run,tight_governed _ 6,rfl,fails_with halts⟩

theorem tight_chain_continues : ∃ start blocks state, tightGenesis = .ok start ∧
    Runs (Advances sampleHost tightSpec) start blocks state ∧ (loadQueue state).length = 1 ∧
    ∃ output, applyBlock sampleHost (tightInput quietTransactions 3) state = .ok output := by
  have facts : (tightRun sampleHost quietTransactions 2).toOption.any (fun done => decide ((loadQueue done.2.2.state).length = 1 ∧
      ∀ block ∈ done.2.1.getLast?,
        (loadRuntimePolicy block.output.state).evidenceExecutionsPerBlock * gasSanction ≤ tightSpec.genesisGasLimit)) = true := by
    decide +kernel
  obtain ⟨⟨start,blocks,tip⟩,done,facts⟩ := completed_check facts
  obtain ⟨built,run⟩ := tight_runs done
  obtain ⟨pending,affordable⟩ := of_decide_eq_true facts
  have valid : tightSpec.validate (fun _ => 0) = .ok () := rfl
  exact ⟨start,blocks,tip.state,built,run,pending,
    chain_never_halts queue_code_injective valid (by decide) built run affordable (tight_governed _ 3) rfl⟩
end
end Neutrino.Runtime
