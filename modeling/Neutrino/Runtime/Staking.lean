import Neutrino.Library.Effects
import Neutrino.Runtime.Records

-- Account and staking transactions, the validator lifecycle and stake deductions
-- (neutrino-default, staking.rs and tx.rs).
namespace Neutrino.Runtime
open Checks Consensus Chain Effects Ledger

inductive ReceiptStatus where
  | success
  | badSignature
  | nonceMismatch
  | insufficientBalance
  | outOfBlockGas
  | overflow
  | unauthorized
  | upgradeConflict
  | invalidUpgrade
  | alreadyVoted
deriving DecidableEq

-- A transaction that did not apply, and who pays for it.
structure Failure (Hash : Type) where
  status : ReceiptStatus
  payer : Option Hash
deriving DecidableEq

def charged {Hash : Type} (payer : Hash) (status : ReceiptStatus) : Failure Hash := ⟨status,some payer⟩
def uncharged {Hash : Type} (status : ReceiptStatus) : Failure Hash := ⟨status,none⟩

-- The canonical signed payloads, one per domain tag.
inductive SigMessage (Hash Key : Type) where
  | transfer (chainId : Nat) (source target : Hash) (amount nonce : Nat)
  | stake (chainId : Nat) (validator : Hash) (amount nonce : Nat)
  | unstake (chainId : Nat) (validator : Hash) (amount nonce : Nat)
  | deposit (chainId : Nat) (depositor validator : Hash) (amount nonce : Nat)
  | voluntaryExit (chainId : Nat) (validator : Hash) (nonce : Nat)
  | withdraw (chainId : Nat) (validator : Hash) (nonce : Nat)
  | registerValidator (chainId : Nat) (depositor validator : Hash) (blsPubkey : Key) (depositAmount nonce : Nat)
  | proposeUpgrade (chainId : Nat) (proposer id : Hash) (nonce : Nat)
  | voteUpgrade (chainId : Nat) (voter id : Hash) (nonce : Nat)
  | proposePolicy (chainId : Nat) (proposer id : Hash) (nonce : Nat)

structure TransferTx (Hash Sig : Type) where
  source : Hash
  target : Hash
  amount : Nat
  nonce : Nat
  signature : Sig
deriving DecidableEq

structure StakeTx (Hash Sig : Type) where
  validator : Hash
  amount : Nat
  nonce : Nat
  signature : Sig
deriving DecidableEq

structure UnstakeTx (Hash Sig : Type) where
  validator : Hash
  amount : Nat
  nonce : Nat
  signature : Sig
deriving DecidableEq

structure DepositTx (Hash Sig : Type) where
  depositor : Hash
  validator : Hash
  amount : Nat
  nonce : Nat
  signature : Sig
deriving DecidableEq

structure VoluntaryExitTx (Hash Sig : Type) where
  validator : Hash
  nonce : Nat
  signature : Sig
deriving DecidableEq

structure WithdrawTx (Hash Sig : Type) where
  validator : Hash
  nonce : Nat
  signature : Sig
deriving DecidableEq

structure RegisterValidatorTx (Hash Key Sig : Type) where
  depositor : Hash
  validator : Hash
  blsPubkey : Key
  popSignature : Sig
  depositAmount : Nat
  nonce : Nat
  signature : Sig
  validatorSignature : Sig
deriving DecidableEq

variable {Hash Key Sig : Type} [LinearOrder Hash] [DecidableEq Key]

def requireAmount (amount : Nat) : Except ReceiptStatus Unit := ensure (amount ≠ 0) .insufficientBalance
def requireBonded (stake minStake : Nat) : Except ReceiptStatus Unit := ensure (¬(stake ≠ 0 ∧ stake < minStake)) .insufficientBalance

variable (verifySignature : Hash → SigMessage Hash Key → Sig → Bool)

def authenticate (signer : Hash) (message : SigMessage Hash Key) (signature : Sig) : Except (Failure Hash) Unit :=
  ensure (verifySignature signer message signature = true) (uncharged .badSignature)

variable (state : State Hash Key Sig)

def signerAccount (signer : Hash) (nonce : Nat) : Except (Failure Hash) Account := do
  let account := loadAccount state signer
  ensure (account.nonce = nonce) (uncharged .nonceMismatch)
  pure account

def authorize (payer : Hash) (nonce fee : Nat) : Except (Failure Hash) Account := do
  let account ← signerAccount state payer nonce
  ensure (fee ≤ account.balance) (uncharged .insufficientBalance)
  pure account

def checkPayer (payer : Hash) (nonce amount fee : Nat) : Except (Failure Hash) (Account × Nat) := do
  let account ← authorize state payer nonce fee
  let debit ← required (checkedAdd128 amount fee) (charged payer .overflow)
  ensure (debit ≤ account.balance) (charged payer .insufficientBalance)
  pure (account,debit)

structure Bond where
  amount : Nat
  nonce : Nat
  fee : Nat
  minStake : Nat

-- The validator must already hold a record, created by genesis or registration.
def checkBond (funder validator : Hash) (bond : Bond) : Except (Failure Hash) (Account × Nat × RuntimeValidator) := do
  let (account,debit) ← checkPayer state funder bond.nonce bond.amount bond.fee
  (requireAmount bond.amount).mapError (charged funder)
  let bonded ← required (loadValidatorRecord state validator) (charged funder .unauthorized)
  let stake ← required (checkedAdd128 bonded.stake bond.amount) (charged funder .overflow)
  (requireBonded stake bond.minStake).mapError (charged funder)
  pure (account,debit,⟨stake,decide (0 < stake)⟩)

def syncConsensusCandidate (address : Hash) (validator : Option RuntimeValidator) : State Hash Key Sig :=
  let registration := loadValidatorRegistration state address
  let candidates := loadConsensusCandidates state
  if validator = none ∧ registration.isNone then
    if candidates.contains address then storeConsensusCandidates state (candidates.remove address) else state
  else
    storeConsensusCandidates state (candidates.upsert ⟨address,(validator.map (·.stake)).getD 0,
      registration.map fun found => ⟨found.blsPubkey,found.popSignature⟩⟩)

def commitValidator (address : Hash) (validator : RuntimeValidator) : State Hash Key Sig :=
  let set := loadValidatorSet state
  let next := if validator.active then set.upsert ⟨address,validator.stake⟩ else set.remove address
  syncConsensusCandidate (storeValidatorSet (storeValidator state address validator) next) address (some validator)

def dropRegistration (address : Hash) : State Hash Key Sig :=
  let registrations := loadValidatorRegistrations state
  if registrations.contains address then
    storeValidatorRegistrations (state.erase (.registration address)) (registrations.remove address)
  else state

def retireValidator (address : Hash) : State Hash Key Sig :=
  let cleared := ((state.erase (.validator address)).erase (.withdrawal address)).erase (.bonding address)
  syncConsensusCandidate (dropRegistration cleared address) address none

-- Unbonds maturing at the same height share the queue's last entry.
def queueWithdrawal (queue : List Withdrawal) (withdrawal : Withdrawal) : List Withdrawal :=
  match queue.getLast? with
  | some last =>
    if last.matureAtHeight = withdrawal.matureAtHeight then
      queue.dropLast ++ [{last with amount := saturatingAdd128 last.amount withdrawal.amount}]
    else queue ++ [withdrawal]
  | none => [withdrawal]

def spend (account : Account) (debit : Nat) : Account := ⟨saturatingAdd account.nonce 1,account.balance - debit⟩

def unbond (address : Hash) (signer : Account) (fee : Nat) (validator : RuntimeValidator) (withdrawal : Withdrawal) : State Hash Key Sig :=
  let queue := queueWithdrawal (loadWithdrawalQueue state address) withdrawal
  let stake := validator.stake - withdrawal.amount
  storeWithdrawalQueue (commitValidator (storeAccount state address (spend signer fee)) address ⟨stake,decide (0 < stake)⟩) address queue

def upgradeVoterMinAgeBlocks : Nat := 1024
def aged (since height : Nat) : Bool := (checkedAdd since upgradeVoterMinAgeBlocks).any (· ≤ height)

def recordBond (address : Hash) (amount height : Nat) : State Hash Key Sig :=
  let unaged := ((loadBonding state address).filter fun bonding => !aged bonding.sinceHeight height).elim 0 (·.amount)
  state.insert (.bonding address) ⟨saturatingAdd128 unaged amount,height⟩

-- A handler writes in place: a refusal leaves what was written before it.
abbrev Handler (Hash Key Sig : Type) [LinearOrder Hash] := EStateM (Failure Hash) (State Hash Key Sig) Unit

section
variable (chainId height : Nat) (fee : Nat)

def checkTransfer (tx : TransferTx Hash Sig) : Except (Failure Hash) (Account × Nat) := do
  authenticate verifySignature tx.source (.transfer chainId tx.source tx.target tx.amount tx.nonce) tx.signature
  checkPayer state tx.source tx.nonce tx.amount fee

def applyTransfer (tx : TransferTx Hash Sig) : Handler Hash Key Sig := do
  let (sender,debit) ← attempt (checkTransfer verifySignature (← get) chainId fee tx)
  let paid := spend sender debit
  if tx.source = tx.target then
    modify (storeAccount · tx.source {paid with balance := saturatingAdd128 paid.balance tx.amount})
  else
    let receiver := loadAccount (← get) tx.target
    let balance ← attempt (required (checkedAdd128 receiver.balance tx.amount) (charged tx.source .overflow))
    modify (storeAccount · tx.source paid)
    modify (storeAccount · tx.target {receiver with balance})

def checkStake (minStake : Nat) (tx : StakeTx Hash Sig) : Except (Failure Hash) (Account × Nat × RuntimeValidator) := do
  authenticate verifySignature tx.validator (.stake chainId tx.validator tx.amount tx.nonce) tx.signature
  checkBond state tx.validator tx.validator ⟨tx.amount,tx.nonce,fee,minStake⟩

def applyStake (minStake : Nat) (tx : StakeTx Hash Sig) : Handler Hash Key Sig := do
  let (signer,debit,validator) ← attempt (checkStake verifySignature (← get) chainId fee minStake tx)
  modify (storeAccount · tx.validator (spend signer debit))
  modify (commitValidator · tx.validator validator)
  modify (recordBond · tx.validator tx.amount height)

def checkDeposit (minStake : Nat) (tx : DepositTx Hash Sig) : Except (Failure Hash) (Account × Nat × RuntimeValidator) := do
  authenticate verifySignature tx.depositor (.deposit chainId tx.depositor tx.validator tx.amount tx.nonce) tx.signature
  checkBond state tx.depositor tx.validator ⟨tx.amount,tx.nonce,fee,minStake⟩

def applyDeposit (minStake : Nat) (tx : DepositTx Hash Sig) : Handler Hash Key Sig := do
  let (depositor,debit,validator) ← attempt (checkDeposit verifySignature (← get) chainId fee minStake tx)
  modify (storeAccount · tx.depositor (spend depositor debit))
  modify (commitValidator · tx.validator validator)
  modify (recordBond · tx.validator tx.amount height)

def checkUnstake (minStake : Nat) (tx : UnstakeTx Hash Sig) : Except (Failure Hash) (Account × RuntimeValidator) := do
  authenticate verifySignature tx.validator (.unstake chainId tx.validator tx.amount tx.nonce) tx.signature
  let (signer,_) ← checkPayer state tx.validator tx.nonce 0 fee
  (requireAmount tx.amount).mapError (charged tx.validator)
  let validator := loadValidator state tx.validator
  ensure (tx.amount ≤ validator.stake) (charged tx.validator .insufficientBalance)
  (requireBonded (validator.stake - tx.amount) minStake).mapError (charged tx.validator)
  pure (signer,validator)

def applyUnstake (unbondingDelay minStake : Nat) (tx : UnstakeTx Hash Sig) : Handler Hash Key Sig := do
  let (signer,validator) ← attempt (checkUnstake verifySignature (← get) chainId fee minStake tx)
  let matureAtHeight ← attempt (required (checkedAdd height unbondingDelay) (charged tx.validator .overflow))
  modify (unbond · tx.validator signer fee validator ⟨tx.amount,matureAtHeight⟩)

def checkVoluntaryExit (tx : VoluntaryExitTx Hash Sig) : Except (Failure Hash) (Account × RuntimeValidator) := do
  authenticate verifySignature tx.validator (.voluntaryExit chainId tx.validator tx.nonce) tx.signature
  let (signer,_) ← checkPayer state tx.validator tx.nonce 0 fee
  let validator := loadValidator state tx.validator
  ensure (validator.stake ≠ 0) (charged tx.validator .insufficientBalance)
  pure (signer,validator)

def applyVoluntaryExit (unbondingDelay : Nat) (tx : VoluntaryExitTx Hash Sig) : Handler Hash Key Sig := do
  let (signer,validator) ← attempt (checkVoluntaryExit verifySignature (← get) chainId fee tx)
  let matureAtHeight ← attempt (required (checkedAdd height unbondingDelay) (charged tx.validator .overflow))
  modify (unbond · tx.validator signer fee validator ⟨validator.stake,matureAtHeight⟩)

def checkWithdraw (tx : WithdrawTx Hash Sig) : Except (Failure Hash) Account := do
  authenticate verifySignature tx.validator (.withdraw chainId tx.validator tx.nonce) tx.signature
  signerAccount state tx.validator tx.nonce

def maturedTotal (queue : List Withdrawal) (height : Nat) : Nat :=
  queue.foldl (fun matured entry => if entry.matureAtHeight ≤ height then saturatingAdd128 matured entry.amount else matured) 0

-- A validator with no stake left has served its full unbonding delay.
def settleWithdrawal (address : Hash) (queue : List Withdrawal) : State Hash Key Sig :=
  if queue ≠ [] then storeWithdrawalQueue state address queue
  else if (loadValidator state address).stake = 0 ∧ (loadValidator state address).active = false then
    retireValidator state address
  else state.erase (.withdrawal address)

def applyWithdraw (held : Hash → Bool) (tx : WithdrawTx Hash Sig) : Handler Hash Key Sig := do
  let signer ← attempt (checkWithdraw verifySignature (← get) chainId tx)
  attempt (ensure (held tx.validator = false)
    (if fee ≤ signer.balance then charged tx.validator .insufficientBalance else uncharged .insufficientBalance))
  let queue := loadWithdrawalQueue (← get) tx.validator
  let credited ← attempt (required (checkedAdd128 signer.balance (maturedTotal queue height)) (uncharged .insufficientBalance))
  attempt (ensure (fee ≤ credited) (uncharged .insufficientBalance))
  modify (storeAccount · tx.validator ⟨saturatingAdd signer.nonce 1,credited - fee⟩)
  modify (settleWithdrawal · tx.validator (queue.filter fun entry => !decide (entry.matureAtHeight ≤ height)))

def checkRegisterValidator (minStake : Nat) (tx : RegisterValidatorTx Hash Key Sig) :
    Except (Failure Hash) (Account × Nat × AddressIndex Hash) := do
  let message : SigMessage Hash Key := .registerValidator chainId tx.depositor tx.validator tx.blsPubkey tx.depositAmount tx.nonce
  authenticate verifySignature tx.depositor message tx.signature
  authenticate verifySignature tx.validator message tx.validatorSignature
  let (depositor,debit) ← checkPayer state tx.depositor tx.nonce tx.depositAmount fee
  (requireAmount tx.depositAmount).mapError (charged tx.depositor)
  (requireBonded tx.depositAmount minStake).mapError (charged tx.depositor)
  let registrations := loadValidatorRegistrations state
  ensure (registrations.contains tx.validator = false) (charged tx.depositor .insufficientBalance)
  let existing := loadValidator state tx.validator
  ensure (¬(0 < existing.stake ∨ existing.active = true)) (charged tx.depositor .insufficientBalance)
  pure (depositor,debit,registrations)

def applyRegisterValidator (minStake : Nat) (tx : RegisterValidatorTx Hash Key Sig) : Handler Hash Key Sig := do
  let (depositor,debit,registrations) ← attempt (checkRegisterValidator verifySignature (← get) chainId fee minStake tx)
  modify (·.insert (.registration tx.validator) ⟨tx.validator,tx.blsPubkey,tx.popSignature,height⟩)
  modify (storeAccount · tx.depositor (spend depositor debit))
  modify (storeValidatorRegistrations · (registrations.upsert tx.validator))
  modify (commitValidator · tx.validator ⟨tx.depositAmount,true⟩)
end

-- Oldest entries burn first; a partly burned entry keeps its maturity.
def burnQueue : List Withdrawal → Nat → List Withdrawal
  | [],_ => []
  | entry::rest,remaining =>
    if remaining = 0 then entry::rest
    else if entry.amount ≤ remaining then burnQueue rest (remaining - entry.amount)
    else {entry with amount := entry.amount - remaining}::rest

def storeBurnedQueue (address : Hash) (queue : List Withdrawal) : State Hash Key Sig :=
  if queue = [] then state.erase (.withdrawal address) else storeWithdrawalQueue state address queue

-- Stake burns first, then the unbonding queue; returns the actual deduction.
def applyDeduction (address : Hash) (amount : Nat) : Except ReceiptStatus (Nat × State Hash Key Sig) := do
  let validator := loadValidator state address
  let queue := loadWithdrawalQueue state address
  let slashable := saturatingAdd128 validator.stake (withdrawalTotal queue)
  ensure (slashable ≠ 0) .insufficientBalance
  let burn := min slashable amount
  let fromStake := min validator.stake burn
  let remaining := burn - fromStake
  let stake := validator.stake - fromStake
  let committed := commitValidator state address ⟨stake,decide (0 < stake)⟩
  pure (burn,if 0 < remaining ∧ queue ≠ [] then storeBurnedQueue committed address (burnQueue queue remaining)
    else committed)
end Neutrino.Runtime
