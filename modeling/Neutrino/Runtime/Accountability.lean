import Neutrino.Runtime.Governance

-- Evidence admission, mandatory sanctions and block execution (neutrino-default,
-- accountability.rs and lib.rs; consensus-types, evidence.rs).
namespace Neutrino.Runtime
open Checks Consensus Chain Effects Ledger

structure EvidenceContext (Hash : Type) where
  chunkId : Nat
  chunkHash : Hash
  endHeight : Nat
  validatorsRoot : Hash
  seed : Hash
  sourceBlockGuestVkDigest : VkDigest
  sourceRuntimeCodeHash : Hash
deriving DecidableEq

structure EvidenceStatement (Hash Key : Type) where
  chainId : Nat
  chainSpecHash : Hash
  blockGuestVkDigest : VkDigest
  context : EvidenceContext Hash
  offender : Validator Hash Key
  kind : SanctionKind
  offenceId : Hash
  factsCommitment : Hash
  reporter : Option Hash
deriving DecidableEq

structure HistoryPath (Hash : Type) where
  index : Nat
  count : Nat
  siblings : List Hash
deriving DecidableEq

structure EvidenceSubmission (Hash Key : Type) where
  statement : EvidenceStatement Hash Key
  history : HistoryPath Hash
deriving DecidableEq

def isRecentHistoryIndex (index count : Nat) : Bool := decide (index < count ∧ count - historyRetentionChunks ≤ index)

inductive Transaction (Hash Key Sig : Type) where
  | transfer (tx : TransferTx Hash Sig)
  | stake (tx : StakeTx Hash Sig)
  | unstake (tx : UnstakeTx Hash Sig)
  | deposit (tx : DepositTx Hash Sig)
  | voluntaryExit (tx : VoluntaryExitTx Hash Sig)
  | withdraw (tx : WithdrawTx Hash Sig)
  | registerValidator (tx : RegisterValidatorTx Hash Key Sig)
  | submitEvidence (submission : EvidenceSubmission Hash Key)
  | proposeUpgrade (tx : ProposeUpgradeTx Hash Sig)
  | voteUpgrade (tx : VoteUpgradeTx Hash Sig)
  | proposePolicy (tx : ProposePolicyTx Hash Sig)
deriving DecidableEq

def gasSanction : Nat := 5000
def gasEvidenceAdmission : Nat := 10000

section
variable {Hash Key Sig : Type}

def txGas : Transaction Hash Key Sig → Nat
  | .transfer _ => 21000
  | .stake _ => 50000
  | .unstake _ => 50000
  | .deposit _ => 30000
  | .voluntaryExit _ => 40000
  | .withdraw _ => 50000
  | .registerValidator _ => 75000
  | .submitEvidence _ => gasEvidenceAdmission
  | .proposeUpgrade _ => 100000
  | .proposePolicy _ => 100000
  | .voteUpgrade _ => 40000

def txKindCode : Transaction Hash Key Sig → Nat
  | .transfer _ => 0
  | .stake _ => 1
  | .unstake _ => 2
  | .deposit _ => 3
  | .voluntaryExit _ => 4
  | .withdraw _ => 5
  | .registerValidator _ => 6
  | .submitEvidence _ => 7
  | .proposeUpgrade _ => 8
  | .voteUpgrade _ => 9
  | .proposePolicy _ => 10

def sanctionReceiptKind : Nat := 11

def txChargesFee : Transaction Hash Key Sig → Bool
  | .submitEvidence _ => false
  | _ => true
end

def ReceiptStatus.asU32 : ReceiptStatus → Nat
  | .success => 0
  | .badSignature => 1
  | .nonceMismatch => 2
  | .insufficientBalance => 3
  | .outOfBlockGas => 4
  | .overflow => 5
  | .unauthorized => 6
  | .upgradeConflict => 7
  | .invalidUpgrade => 8
  | .alreadyVoted => 9

structure Receipt where
  statusCode : Nat
  gasUsed : Nat
  kind : Nat
deriving DecidableEq

structure StfInput (Hash Key Sig : Type) where
  evidenceAnchor : EvidenceAnchor Hash
  chainId : Nat
  blockHeight : Nat
  blockGasLimit : Nat
  proposerAddress : Hash
  participation : Option (ParticipationReport Hash)
  transactions : List (Transaction Hash Key Sig)

-- Outside the runtime: Ed25519, the history opening and domain-separated hashes.
structure Host (Hash Key Sig : Type) where
  verifySignature : Hash → SigMessage Hash Key → Sig → Bool
  proposalId : Hash → ProposalAction Hash → Hash
  verifyHistory : HistoryPath Hash → EvidenceContext Hash → Hash → Bool
  queueCommitment : List (PendingSanction Hash Key) → Hash

inductive InputError where
  | anchor
  | order
  | binding
  | cap
deriving DecidableEq

-- Aborts of the transition, named by their message.
inductive Panic where
  | invalidInput (error : InputError)
  | invalidPolicy
  | evidenceWindow
  | evidenceAdmissionCap
  | queueBound
  | offenceReplay
  | uncertifiedInactivity
  | duplicateOffence
  | executionGas
  | admissionGas
  | mandatorySanctionGas
  | queueCapacity
  | rewardShare
  | rewardExceedsDeduction
  | unexpectedDeductionFailure
deriving DecidableEq

section
variable {Hash Key Sig : Type} [LinearOrder Hash] [DecidableEq Key]

-- Safety offences mark the identity, liveness offences the offence itself.
def replayMarker (kind : SanctionKind) (pubkey : Key) (offenceId : Hash) : StateKey Hash Key :=
  match kind with
  | .slash => .slashed pubkey
  | .inactivity => .offence offenceId

def Sanction.markerKey (sanction : Sanction Hash Key) : StateKey Hash Key :=
  replayMarker sanction.kind sanction.offender.pubkey sanction.offenceId

def markerKey (statement : EvidenceStatement Hash Key) : StateKey Hash Key :=
  replayMarker statement.kind statement.offender.pubkey statement.offenceId

def writeMarker (state : State Hash Key Sig) (sanction : Sanction Hash Key) (byte : Nat) : State Hash Key Sig :=
  match sanction.kind with
  | .slash => state.insert (.slashed sanction.offender.pubkey) byte
  | .inactivity => state.insert (.offence sanction.offenceId) byte

def marked (state : State Hash Key Sig) (statement : EvidenceStatement Hash Key) : Bool := (state.lookup (markerKey statement)).isSome

def sweepExpiredMarkers (state : State Hash Key Sig) (height retention : Nat) : State Hash Key Sig :=
  match (checkedSub height retention).bind (checkedSub · 1) with
  | none => state
  | some expired =>
    match (state.lookup (.expiry expired) : Option (List (StateKey Hash Key))) with
    | none => state
    | some keys => (keys.foldl (fun swept key => swept.erase key) state).erase (.expiry expired)

def recordExpiryBucket (state : State Hash Key Sig) (height : Nat) (admitted : List (Sanction Hash Key)) : State Hash Key Sig :=
  let keys := (admitted.filter fun sanction => decide (sanction.kind = .inactivity)).map Sanction.markerKey
  if keys = [] then state else state.insert (.expiry height) keys
end
section
variable {Hash Key Sig : Type} [LinearOrder Hash] [DecidableEq Key] (host : Host Hash Key Sig)

def EvidenceSubmission.binds (submission : EvidenceSubmission Hash Key) (chainId height : Nat) (anchor : EvidenceAnchor Hash) : Bool :=
  let statement := submission.statement
  let source := statement.context.chunkId
  let inWindow := match statement.kind with
    | .slash => decide (source < anchor.chunkId)
    | .inactivity => isRecentHistoryIndex source anchor.chunkId
  decide (statement.chainId = chainId) && decide (statement.chainSpecHash = anchor.chainSpecHash) &&
    decide (statement.blockGuestVkDigest = anchor.blockGuestVkDigest) && decide (submission.history.index = source) &&
    decide (submission.history.count = anchor.chunkId) && inWindow &&
    host.verifyHistory submission.history statement.context anchor.historyRoot &&
    decide (statement.context.endHeight < height)

def EvidenceSubmission.withinAge (submission : EvidenceSubmission Hash Key) (height maxAgeBlocks : Nat) : Bool :=
  let end_ := submission.statement.context.endHeight
  match submission.statement.kind with
  | .slash => decide (end_ < height)
  | .inactivity => decide (end_ < height ∧ height - end_ ≤ maxAgeBlocks)

def submissions : List (Transaction Hash Key Sig) → List (EvidenceSubmission Hash Key)
  | .submitEvidence submission::rest => submission::submissions rest
  | _ => []

def checkOrder (chainId height : Nat) (anchor : EvidenceAnchor Hash) : Bool → Nat → List (Transaction Hash Key Sig) → Except InputError Nat
  | _,count,[] => .ok count
  | ordinary,count,.submitEvidence submission::rest => do
    ensure (ordinary = false) .order
    ensure (submission.binds host chainId height anchor = true) .binding
    ensure (count + 1 < 2^32) .cap
    checkOrder chainId height anchor ordinary (count+1) rest
  | _,count,_::rest => checkOrder chainId height anchor true count rest

def checkAdmissions (input : StfInput Hash Key Sig) : Except InputError Unit := do
  ensure input.evidenceAnchor.IsWellFormed .anchor
  let count ← checkOrder host input.chainId input.blockHeight input.evidenceAnchor false 0 input.transactions
  ensure (count ≤ maxPending) .cap

def checkPolicy (input : StfInput Hash Key Sig) (policy : RuntimePolicy) : Except Panic Unit := do
  ensure (policy.IsValidFor input.evidenceAnchor) .invalidPolicy
  each (fun submission : EvidenceSubmission Hash Key =>
    ensure (submission.withinAge input.blockHeight policy.evidenceMaxAgeBlocks = true) .evidenceWindow)
    (submissions input.transactions)
  ensure ((submissions input.transactions).length ≤ policy.evidenceAdmissionsPerBlock) .evidenceAdmissionCap

def applyParticipation (state : State Hash Key Sig) (report : Option (ParticipationReport Hash)) : State Hash Key Sig :=
  match report with
  | none => state
  | some report =>
    if ((state.lookup .participation : Option (ParticipationReport Hash))).all (·.chunkId < report.chunkId) then
      let recorded := (state.insert .participation report).insert (.absent report.chunkId) report.absent
      match checkedSub report.chunkId historyRetentionChunks with
      | some expired => recorded.erase (.absent expired)
      | none => recorded
    else state

def certifiedAbsent (state : State Hash Key Sig) (chunkId : Nat) (address : Hash) : Bool :=
  (state.lookup (.absent chunkId) : Option (List Hash)).any (·.contains address)

def EvidenceStatement.toSanction (claim : EvidenceStatement Hash Key) : Sanction Hash Key := ⟨claim.offenceId,claim.offender,claim.kind⟩

section
attribute [local instance] Chain.lawful_equality
def isFreshClaim (claim : EvidenceStatement Hash Key) (identities : List Key) (offences : List Hash) : Bool :=
  match claim.kind with
  | .slash => !decide (claim.offender.pubkey ∈ identities)
  | .inactivity => !decide (claim.offenceId ∈ offences)
end

def collectFrom (state : State Hash Key Sig) :
    List Key → List Hash → List (EvidenceSubmission Hash Key) → Except Panic (List (Sanction Hash Key))
  | _,_,[] => .ok []
  | identities,offences,submission::rest => do
    let claim := submission.statement
    ensure (marked state claim = false) .offenceReplay
    ensure (claim.kind ≠ .inactivity ∨
      certifiedAbsent state claim.context.chunkId claim.offender.withdrawalCredentials = true) .uncertifiedInactivity
    ensure (isFreshClaim claim identities offences = true) .duplicateOffence
    let seen := match claim.kind with
      | .slash => claim.offender.pubkey::identities
      | .inactivity => identities
    let admitted ← collectFrom state seen (claim.offenceId::offences) rest
    pure (claim.toSanction::admitted)

def collectAdmissions (input : StfInput Hash Key Sig) (state : State Hash Key Sig) : Except Panic (List (Sanction Hash Key)) :=
  collectFrom state [] [] (submissions input.transactions)

-- The obligation an admission creates, fixed by the policy in force.
def obligation (policy : RuntimePolicy) (claim : EvidenceStatement Hash Key) : PendingSanction Hash Key :=
  match claim.kind with
  | .slash => ⟨claim.toSanction,policy.slashAmount,claim.reporter,policy.reporterRewardBps⟩
  | .inactivity => ⟨claim.toSanction,policy.inactivityLeakAmount,none,0⟩

def enqueueAdmissions (state : State Hash Key Sig) (policy : RuntimePolicy) (claims : List (EvidenceSubmission Hash Key)) :
    State Hash Key Sig × List (PendingSanction Hash Key) :=
  (claims.foldl (fun written submission => writeMarker written submission.statement.toSanction 0) state,
    claims.map fun submission => obligation policy submission.statement)
end
section
variable {Hash Key Sig : Type} [LinearOrder Hash] [DecidableEq Key] (host : Host Hash Key Sig)

def SettlementTotals.noteAdmitted (totals : SettlementTotals) (kind : SanctionKind) : SettlementTotals :=
  totals.update (fun kindTotals => {kindTotals with admitted := kindTotals.admitted.add 1}) kind

def SettlementTotals.noteExecuted (totals : SettlementTotals) (kind : SanctionKind) (deducted rewarded : Nat) :
    Except Panic SettlementTotals := do
  ensure (rewarded ≤ deducted) .rewardExceedsDeduction
  pure (totals.update (fun kindTotals => {kindTotals with
    executed := kindTotals.executed.add 1
    zeroDeductions := kindTotals.zeroDeductions.add (if deducted = 0 then 1 else 0)
    deducted := kindTotals.deducted.add deducted
    rewarded := kindTotals.rewarded.add rewarded
    burned := kindTotals.burned.add (deducted - rewarded)}) kind)

def creditReporter (state : State Hash Key Sig) (reporter : Hash) (deducted bps : Nat) : Except Panic (Nat × State Hash Key Sig) := do
  ensure (bps ≤ basisPoints) .rewardShare
  let reward := mulDivFloor deducted bps basisPoints
  if reward = 0 then pure (0,state)
  else
    let account := loadAccount state reporter
    let credited := min reward (maxU128 - account.balance)
    pure (credited,storeAccount state reporter {account with balance := account.balance + credited})

def rewardReporter (state : State Hash Key Sig) (item : PendingSanction Hash Key) (deducted : Nat) :
    Except Panic (Nat × State Hash Key Sig) :=
  match item.sanction.kind,item.reporter with
  | .slash,some reporter => creditReporter state reporter deducted item.reporterRewardBps
  | _,_ => .ok (0,state)

structure Execution (Hash Key : Type) where
  item : PendingSanction Hash Key
  status : ReceiptStatus
  deducted : Nat
  rewarded : Nat
deriving DecidableEq

def deduct (state : State Hash Key Sig) (item : PendingSanction Hash Key) : Except Panic (Execution Hash Key × State Hash Key Sig) :=
  match applyDeduction state item.sanction.offender.withdrawalCredentials item.amount with
  | .ok (deducted,next) => do
    let (rewarded,paid) ← rewardReporter next item deducted
    pure (⟨item,.success,deducted,rewarded⟩,paid)
  | .error .insufficientBalance => .ok (⟨item,.insufficientBalance,0,0⟩,state)
  | .error _ => .error .unexpectedDeductionFailure

def executePending (state : State Hash Key Sig) (totals : SettlementTotals) (item : PendingSanction Hash Key) :
    Except Panic (Execution Hash Key × SettlementTotals × State Hash Key Sig) := do
  let (done,next) ← deduct state item
  let totals ← totals.noteExecuted item.sanction.kind done.deducted done.rewarded
  pure (done,totals,writeMarker next item.sanction 1)

def executeAll : State Hash Key Sig → SettlementTotals → List (PendingSanction Hash Key) →
    Except Panic (List (Execution Hash Key) × SettlementTotals × State Hash Key Sig)
  | state,totals,[] => .ok ([],totals,state)
  | state,totals,item::rest => do
    let (done,next,after) ← executePending state totals item
    let (later,final,last) ← executeAll after next rest
    pure (done::later,final,last)

structure Mandatory (Hash Key Sig : Type) [LinearOrder Hash] where
  admitted : List (Sanction Hash Key)
  executed : List (Execution Hash Key)
  queueBefore : Hash
  queueAfter : Hash
  gas : Nat
  queue : List (PendingSanction Hash Key)
  state : State Hash Key Sig

def storeTotals (state : State Hash Key Sig) (settles : Bool) (totals : SettlementTotals) : State Hash Key Sig :=
  if settles then state.insert .settlementTotals totals else state

-- Admit every authenticated claim, then execute the mandatory FIFO prefix.
def applyMandatory (input : StfInput Hash Key Sig) (state : State Hash Key Sig) (policy : RuntimePolicy) :
    Except Panic (Mandatory Hash Key Sig) := do
  checkPolicy input policy
  let stored := loadQueue state
  ensure (stored.length ≤ policy.evidenceMaxPending) .queueBound
  let swept := sweepExpiredMarkers state input.blockHeight input.evidenceAnchor.unbondingDelayBlocks
  let admitted ← collectAdmissions input swept
  let executionCount := min (stored.length + admitted.length) policy.evidenceExecutionsPerBlock
  ensure (executionCount * gasSanction < 2^64) .executionGas
  ensure (admitted.length * gasEvidenceAdmission < 2^64) .admissionGas
  ensure (executionCount * gasSanction + admitted.length * gasEvidenceAdmission < 2^64 ∧
    executionCount * gasSanction + admitted.length * gasEvidenceAdmission ≤ input.blockGasLimit) .mandatorySanctionGas
  ensure (stored.length + admitted.length - executionCount ≤ policy.evidenceMaxPending) .queueCapacity
  let (written,added) := enqueueAdmissions swept policy (submissions input.transactions)
  let bucketed := recordExpiryBucket written input.blockHeight admitted
  let settles := decide (admitted ≠ [] ∨ 0 < executionCount)
  let totals := admitted.foldl (fun totals sanction => totals.noteAdmitted sanction.kind)
    (if settles then loadTotals bucketed else {})
  let (executed,totals,after) ← executeAll bucketed totals ((stored ++ added).take executionCount)
  let settled := storeTotals after settles totals
  let residual := (stored ++ added).drop executionCount
  let before := host.queueCommitment stored
  let later := host.queueCommitment residual
  let final := if before = later then settled else settled.insert .queue residual
  pure ⟨admitted,executed,before,later,executionCount * gasSanction,residual,final⟩
end
variable {Hash Key Sig : Type} [LinearOrder Hash] [DecidableEq Key] (host : Host Hash Key Sig)

-- Facts every ordinary transaction of a block executes against.
structure BlockFacts (Hash Key Sig : Type) where
  input : StfInput Hash Key Sig
  gasPrice : Nat
  minValidatorStake : Nat
  governance : BlockContext Hash
  held : Hash → Bool

def applyTransaction (facts : BlockFacts Hash Key Sig) (fee : Nat) : Transaction Hash Key Sig → Handler Hash Key Sig
  | .transfer tx => applyTransfer host.verifySignature facts.input.chainId fee tx
  | .stake tx => applyStake host.verifySignature facts.input.chainId facts.input.blockHeight fee
      facts.minValidatorStake tx
  | .unstake tx => applyUnstake host.verifySignature facts.input.chainId facts.input.blockHeight fee
      facts.input.evidenceAnchor.unbondingDelayBlocks facts.minValidatorStake tx
  | .submitEvidence _ => pure ()
  | .deposit tx => applyDeposit host.verifySignature facts.input.chainId facts.input.blockHeight fee
      facts.minValidatorStake tx
  | .voluntaryExit tx => applyVoluntaryExit host.verifySignature facts.input.chainId facts.input.blockHeight fee
      facts.input.evidenceAnchor.unbondingDelayBlocks tx
  | .withdraw tx => applyWithdraw host.verifySignature facts.input.chainId facts.input.blockHeight fee facts.held tx
  | .registerValidator tx => applyRegisterValidator host.verifySignature facts.input.chainId
      facts.input.blockHeight fee facts.minValidatorStake tx
  | .proposeUpgrade tx => applyPropose host.verifySignature host.proposalId facts.input.chainId facts.governance fee tx
  | .voteUpgrade tx => applyVote host.verifySignature host.proposalId facts.input.chainId facts.governance fee tx
  | .proposePolicy tx =>
      applyProposePolicy host.verifySignature host.proposalId facts.input.chainId facts.governance fee tx

def transactionResult (facts : BlockFacts Hash Key Sig) (state : State Hash Key Sig) (fee : Nat) (tx : Transaction Hash Key Sig) :
    Except (Failure Hash) (State Hash Key Sig) := result (applyTransaction host facts fee tx) state

structure Tally where
  applied : Nat
  failed : Nat
  gasUsed : Nat
  proposerFee : Nat
  receipts : List Receipt
deriving DecidableEq

-- The payer spends its nonce and the fee, as far as its balance goes.
def chargeFailure (state : State Hash Key Sig) (payer : Hash) (fee : Nat) : Nat × State Hash Key Sig :=
  let account := loadAccount state payer
  let paid := min fee account.balance
  (paid,storeAccount state payer (spend account paid))

def chargePayer (state : State Hash Key Sig) (chargesFee : Bool) (fee : Nat) : Option Hash → Nat × State Hash Key Sig
  | some payer => if chargesFee then chargeFailure state payer fee else (0,state)
  | none => (0,state)

def maxU32 : Nat := 2^32-1

def executeTransaction (facts : BlockFacts Hash Key Sig) (current : State Hash Key Sig × Tally)
    (tx : Transaction Hash Key Sig) : State Hash Key Sig × Tally :=
  let (state,tally) := current
  let cost := txGas tx
  let fee := min (cost * facts.gasPrice) maxU128
  if facts.input.blockGasLimit < saturatingAdd tally.gasUsed cost then
    (state,{tally with
      failed := min (tally.failed + 1) maxU32
      receipts := tally.receipts ++ [⟨ReceiptStatus.outOfBlockGas.asU32,0,txKindCode tx⟩]})
  else
    match applyTransaction host facts fee tx state with
    | .ok _ next =>
      (next,⟨min (tally.applied + 1) maxU32,tally.failed,saturatingAdd tally.gasUsed cost,
        if txChargesFee tx then saturatingAdd128 tally.proposerFee fee else tally.proposerFee,
        tally.receipts ++ [⟨ReceiptStatus.success.asU32,cost,txKindCode tx⟩]⟩)
    | .error failure reached =>
      let (paid,next) := chargePayer reached (txChargesFee tx) fee failure.payer
      (next,⟨tally.applied,min (tally.failed + 1) maxU32,saturatingAdd tally.gasUsed cost, saturatingAdd128 tally.proposerFee paid,
        tally.receipts ++ [⟨failure.status.asU32,cost,txKindCode tx⟩]⟩)

def executeTransactions (facts : BlockFacts Hash Key Sig) (state : State Hash Key Sig) (tally : Tally) : State Hash Key Sig × Tally :=
  facts.input.transactions.foldl (executeTransaction host facts) (state,tally)

def creditProposer (state : State Hash Key Sig) (proposer : Hash) (fee : Nat) : State Hash Key Sig :=
  if fee = 0 then state
  else
    let account := loadAccount state proposer
    storeAccount state proposer {account with balance := saturatingAdd128 account.balance fee}

structure BlockOutput (Hash Key Sig : Type) [LinearOrder Hash] where
  mandatory : Mandatory Hash Key Sig
  tally : Tally
  state : State Hash Key Sig

def blockFacts (input : StfInput Hash Key Sig) (policy : RuntimePolicy) (queue : List (PendingSanction Hash Key)) :
    BlockFacts Hash Key Sig where
  input
  gasPrice := policy.gasPrice
  minValidatorStake := policy.minValidatorStake
  governance := ⟨input.evidenceAnchor.chunkId,input.blockHeight,input.evidenceAnchor,queue.length⟩
  held address := queue.any fun item => decide (item.sanction.offender.withdrawalCredentials = address)

def sanctionReceipt (done : Execution Hash Key) : Receipt := ⟨done.status.asU32,gasSanction,sanctionReceiptKind⟩

def applyOrdinary (input : StfInput Hash Key Sig) (policy : RuntimePolicy) (mandatory : Mandatory Hash Key Sig) :
    State Hash Key Sig × Tally :=
  let expired := expire mandatory.state input.evidenceAnchor.chunkId
  let (state,tally) := executeTransactions host (blockFacts input policy mandatory.queue) expired
    ⟨0,0,mandatory.gas,0,mandatory.executed.map sanctionReceipt⟩
  (creditProposer state input.proposerAddress tally.proposerFee,tally)

def applyBlock (input : StfInput Hash Key Sig) (state : State Hash Key Sig) : Except Panic (BlockOutput Hash Key Sig) := do
  (checkAdmissions host input).mapError .invalidInput
  let policy := loadRuntimePolicy state
  let mandatory ← applyMandatory host input (applyParticipation state input.participation) policy
  let (final,tally) := applyOrdinary host input policy mandatory
  pure ⟨mandatory,tally,final⟩
end Neutrino.Runtime
