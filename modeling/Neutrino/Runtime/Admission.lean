import Neutrino.Runtime.Failures

-- Mempool admission (neutrino-default, lib.rs), and that the sender of an admitted
-- transaction can be charged for it.
namespace Neutrino.Runtime
open Checks Consensus Chain Ledger

inductive TxValidationCode where
  | valid
  | malformed
  | badSignature
  | nonceMismatch
  | insufficientBalance
  | unauthorized
  | unknownType
  | stateReadFailed
deriving DecidableEq

structure TxValidity where
  code : TxValidationCode
  priority : Nat
deriving DecidableEq

def ReceiptStatus.rejection : ReceiptStatus → TxValidationCode
  | .badSignature => .badSignature
  | .nonceMismatch => .nonceMismatch
  | .insufficientBalance | .overflow => .insufficientBalance
  | .success | .outOfBlockGas | .unauthorized | .upgradeConflict | .invalidUpgrade | .alreadyVoted => .unauthorized

def admission {Hash α : Type} : Except (Failure Hash) α → TxValidity
  | .ok _ => ⟨.valid,0⟩
  | .error failure => ⟨failure.status.rejection,0⟩

section
variable {Hash Key Sig : Type} [LinearOrder Hash] [DecidableEq Key]

section
variable (verifySignature : Hash → SigMessage Hash Key → Sig → Bool) (proposalId : Hash → ProposalAction Hash → Hash)
variable (state : State Hash Key Sig) (chainId fee : Nat)

-- The matured amount is unknown, so the balance alone must pay.
def admitWithdraw (tx : WithdrawTx Hash Sig) : Except (Failure Hash) Account := do
  let signer ← checkWithdraw verifySignature state chainId tx
  ensure (fee ≤ signer.balance) (uncharged .insufficientBalance)
  pure signer

-- Governance checks without a block: seats count in full, chunks are not looked at.
def admitSigner (signer : Hash) (nonce : Nat) (message : SigMessage Hash Key) (signature : Sig) :
    Except (Failure Hash) (Account × List (ValidatorSetEntry Hash)) := do
  authenticate verifySignature signer message signature
  let account ← authorize state signer nonce fee
  let entries := (loadValidatorSet state).items.filter (0 < ·.stake)
  ensure (entries.any (·.address = signer) = true) (charged signer .unauthorized)
  pure (account,entries)

def admitPropose (tx : ProposeUpgradeTx Hash Sig) : Except (Failure Hash) (Account × List (ValidatorSetEntry Hash)) := do
  let id := proposalId tx.proposer (.programs tx.programs tx.artifacts tx.activateAtChunk)
  let authorized ← admitSigner verifySignature state fee tx.proposer tx.nonce (.proposeUpgrade chainId tx.proposer id tx.nonce) tx.signature
  ensure (tx.programs.isComplete = true) (charged tx.proposer .invalidUpgrade)
  pure authorized

def admitProposePolicy (tx : ProposePolicyTx Hash Sig) : Except (Failure Hash) (Account × List (ValidatorSetEntry Hash)) := do
  let authorized ← admitSigner verifySignature state fee tx.proposer tx.nonce
    (.proposePolicy chainId tx.proposer (proposalId tx.proposer (.policy tx.policy)) tx.nonce) tx.signature
  ensure tx.policy.IsWellFormed (charged tx.proposer .invalidUpgrade)
  pure authorized

def admitVote (tx : VoteUpgradeTx Hash Sig) : Except (Failure Hash) (Account × List (ValidatorSetEntry Hash) × UpgradeProposal Hash) := do
  let (account,entries) ← admitSigner verifySignature state fee tx.voter tx.nonce
    (.voteUpgrade chainId tx.voter tx.proposalId tx.nonce) tx.signature
  let named := (loadProposal state).filter fun proposal => decide (proposalId proposal.proposer proposal.action = tx.proposalId)
  let proposal ← required named (charged tx.voter .invalidUpgrade)
  ensure (proposal.voters.contains tx.voter = false) (charged tx.voter .alreadyVoted)
  pure (account,entries,proposal)
end
variable (host : Host Hash Key Sig)

def admissionFee (state : State Hash Key Sig) (tx : Transaction Hash Key Sig) : Nat :=
  if txChargesFee tx then min (txGas tx * (loadRuntimePolicy state).gasPrice) maxU128 else 0

def admits (state : State Hash Key Sig) (chainId fee : Nat) : Transaction Hash Key Sig → TxValidity
  | .transfer tx => admission (checkTransfer host.verifySignature state chainId fee tx)
  | .stake tx => admission (checkStake host.verifySignature state chainId fee (loadRuntimePolicy state).minValidatorStake tx)
  | .unstake tx => admission (checkUnstake host.verifySignature state chainId fee (loadRuntimePolicy state).minValidatorStake tx)
  | .deposit tx => admission (checkDeposit host.verifySignature state chainId fee (loadRuntimePolicy state).minValidatorStake tx)
  | .voluntaryExit tx => admission (checkVoluntaryExit host.verifySignature state chainId fee tx)
  | .withdraw tx => admission (admitWithdraw host.verifySignature state chainId fee tx)
  | .registerValidator tx =>
    admission (checkRegisterValidator host.verifySignature state chainId fee (loadRuntimePolicy state).minValidatorStake tx)
  | .submitEvidence _ => ⟨.unauthorized,0⟩
  | .proposeUpgrade tx => admission (admitPropose host.verifySignature host.proposalId state chainId fee tx)
  | .voteUpgrade tx => admission (admitVote host.verifySignature host.proposalId state chainId fee tx)
  | .proposePolicy tx => admission (admitProposePolicy host.verifySignature host.proposalId state chainId fee tx)

-- No transaction where the bytes do not decode.
def validateTx (state : State Hash Key Sig) (chainId blockGasLimit : Nat) : Option (Transaction Hash Key Sig) → TxValidity
  | none => ⟨.malformed,0⟩
  | some tx =>
    if blockGasLimit < txGas tx then ⟨.insufficientBalance,0⟩ else admits host state chainId (admissionFee state tx) tx

variable {host} {state : State Hash Key Sig} {chainId fee : Nat}

theorem admission_valid {checked : Except (Failure Hash) α} (valid : (admission checked).code = .valid)
    (ends : Ends (fun _ => passes) (fun _ => True) checked) : passes := by
  cases checked with
  | ok value => exact ends
  | error failure =>
    simp only [admission] at valid
    cases status : failure.status <;> simp [status,ReceiptStatus.rejection] at valid

-- Admission makes every check that a failure could be uncharged for.
theorem admitted {tx : Transaction Hash Key Sig} {passes : Prop} (valid : (admits host state chainId fee tx).code = .valid)
    (known : ∀ signed, tx.signed host chainId = some signed → Entitled host state fee signed → Consents host chainId tx → passes) : passes := by
  cases tx with
  | submitEvidence => cases valid
  | registerValidator tx | withdraw tx =>
    apply admission_valid valid
    have known := fun verified next covered => known _ rfl ⟨⟨verified,next⟩,covered⟩
    simp [-bind_pure_comp,checkRegisterValidator,checkPayer,authorize,admitWithdraw,checkWithdraw,signerAccount,authenticate,requireAmount,requireBonded]
    grind [SignedTx.Verified,Consents]
  | proposeUpgrade tx | voteUpgrade tx | proposePolicy tx =>
    apply admission_valid valid
    simp only [admitPropose,admitProposePolicy,admitVote,admitSigner,ends_bind]
    refine authorize_ends ⟨_,_,_,_⟩ (fun _ _ => trivial) fun entitled => ?_
    simp [-bind_pure_comp,known _ rfl entitled trivial]
  | transfer tx | stake tx | deposit tx | unstake tx | voluntaryExit tx =>
    apply admission_valid valid
    simp only [checkTransfer,checkStake,checkDeposit,checkUnstake,checkVoluntaryExit,checkBond,ends_bind]
    refine payer_ends ⟨_,_,_,_⟩ (fun _ _ => trivial) (fun _ _ => trivial) fun debit entitled => ?_
    simp [-bind_pure_comp,known _ rfl entitled trivial]

theorem signed_charges {tx : Transaction Hash Key Sig} (signing : tx.signed host chainId = some signed) : txChargesFee tx = true := by
  cases tx with
  | submitEvidence => cases signing
  | _ => rfl

theorem paid_step {tx : Transaction Hash Key Sig} (signing : tx.signed host facts.input.chainId = some signed)
    (entitled : Entitled host state (transactionFee facts tx) signed) (consents : Consents host facts.input.chainId tx) (room : txGas tx ≤ facts.input.blockGasLimit) (fits : (loadAccount state signed.signer).balance +
      maturedTotal (loadWithdrawalQueue state signed.signer) facts.input.blockHeight ≤ maxU128) :
    ∃ receipt, (executeTransaction host facts (state,⟨0,0,0,0,[]⟩) tx).2.receipts = [receipt] ∧
      (receipt.statusCode = ReceiptStatus.success.asU32 ∨
        (executeTransaction host facts (state,⟨0,0,0,0,[]⟩) tx).2.proposerFee = transactionFee facts tx ∧
        Charges facts state tx signed.signer (executeTransaction host facts (state,⟨0,0,0,0,[]⟩) tx).1) := by
  have pays : Ends (fun _ => True) (fun failure => failure.payer = some signed.signer)
      (transactionResult host facts state (transactionFee facts tx) tx) := by
    apply transaction_ends signing
    · intro _
      trivial
    · intro _ _
      rfl
    · intro refused
      exact absurd fits (refused entitled consents)
  have step := execute_ran host facts state ⟨0,0,0,0,[]⟩ tx
  generalize executeTransaction host facts (state,⟨0,0,0,0,[]⟩) tx = after at step ⊢
  obtain ⟨next,tally⟩ := after
  cases step with
  | skipped full =>
    simp only [saturatingAdd] at full
    omega
  | succeeded => exact ⟨_,rfl,.inl rfl⟩
  | failed _ refused =>
    rw [refused] at pays
    obtain ⟨paid,whole⟩ := charge_failure_charges entitled.covered
    rw [pays,signed_charges signing]
    refine ⟨_,rfl,.inr ⟨?_,paid⟩⟩
    simp only [chargePayer,if_true,whole,saturatingAdd128,Nat.zero_add]
    exact Nat.min_eq_left (Nat.min_le_right _ _)

variable {input : StfInput Hash Key Sig} {output : BlockOutput Hash Key Sig}

structure Uneventful (input : StfInput Hash Key Sig) (state : State Hash Key Sig) (output : BlockOutput Hash Key Sig) : Prop where
  admitted : output.mandatory.admitted = []
  executed : output.mandatory.executed = []
  unswept : ∀ key, ¬Sweeps state input.blockHeight input.evidenceAnchor.unbondingDelayBlocks key

def opening (input : StfInput Hash Key Sig) (output : BlockOutput Hash Key Sig) : State Hash Key Sig × Tally :=
  (expire output.mandatory.state input.evidenceAnchor.chunkId, ⟨0,0,output.mandatory.gas,0,output.mandatory.executed.map sanctionReceipt⟩)

variable (done : applyBlock host input state = .ok output) (quiet : Uneventful input state output)
include done quiet

theorem opening_lookup (key : StateKey Hash Key) (purse : key = .account address ∨ key = .withdrawal address) :
    (opening input output).1.lookup key = state.lookup key := by
  obtain ⟨-,⟨totals,after,run⟩,-⟩ := apply_block_ok done
  have items := (execute_all_ok run.executed).1
  have executed := run.executed
  rw [← items,quiet.executed] at executed
  cases executed
  have carried : Carried key := by rcases purse with rfl | rfl <;> exact ⟨by simp [IsMarker],by simp [Participates],by simp⟩
  have outside : ¬Scheduling key ∧ key ≠ .queue ∧ key ≠ .settlementTotals := by rcases purse with rfl | rfl <;> simp [Scheduling]
  exact (expire_frame _ _ key outside.1).trans ((phase_lookup run outside.2.1 outside.2.2).trans
    (admission_kept (quiet.unswept key) carried _ _))

theorem opening_gas : output.mandatory.gas = 0 := by
  obtain ⟨-,⟨totals,after,run⟩,-⟩ := apply_block_ok done
  have items := congrArg List.length (execute_all_ok run.executed).1
  rw [quiet.executed,List.length_take,executionCount] at items
  rw [run.reserved,executionCount]
  simp only [List.map_nil,List.length_nil] at items
  rw [show min _ _ = 0 by omega,Nat.zero_mul]

theorem admitted_charged (bounded : wealth state ≤ maxU128) (first : input.transactions = tx::rest)
    (room : txGas tx ≤ input.blockGasLimit) (valid : (validateTx host state input.chainId gasLimit (some tx)).code = .valid) :
    ∃ payer receipt, (tx.signed host input.chainId).map (·.signer) = some payer ∧
      let facts := blockFacts input (loadRuntimePolicy state) output.mandatory.queue
      let after := executeTransaction host facts (opening input output) tx
      let last := rest.foldl (executeTransaction host facts) after
      (output.state,output.tally) = (creditProposer last.1 input.proposerAddress last.2.proposerFee,last.2) ∧ after.2.receipts = [receipt] ∧
      (receipt.statusCode = ReceiptStatus.success.asU32 ∨ after.2.proposerFee = transactionFee facts tx ∧
        (loadAccount after.1 payer).balance + transactionFee facts tx = (loadAccount state payer).balance ∧
        ((loadAccount state payer).nonce < maxU64 → (loadAccount after.1 payer).nonce = (loadAccount state payer).nonce + 1)) := by
  simp only [validateTx] at valid
  split at valid
  · cases valid
  refine admitted valid fun signed signing ⟨⟨verified,next⟩,covered⟩ consents => ?_
  let facts := blockFacts input (loadRuntimePolicy state) output.mandatory.queue
  rw [show admissionFee state tx = transactionFee facts tx from if_pos (signed_charges signing)] at covered
  have account : loadAccount (opening input output).1 signed.signer = loadAccount state signed.signer := by
    rw [loadAccount,opening_lookup done quiet _ (.inl rfl),loadAccount]
  have queue : loadWithdrawalQueue (opening input output).1 signed.signer = loadWithdrawalQueue state signed.signer := by
    rw [loadWithdrawalQueue,opening_lookup done quiet _ (.inr rfl),loadWithdrawalQueue]
  have purse : held worth state (.account signed.signer) + queueSum (loadWithdrawalQueue state signed.signer) ≤ wealth state := by
    apply held_queue_le
    simp
  rw [held_account] at purse
  have matured := withdrawn_split (loadWithdrawalQueue state signed.signer) input.blockHeight (by omega)
  have none : (opening input output).2 = ⟨0,0,0,0,[]⟩ := by
    rw [opening,opening_gas done quiet,quiet.executed]
    rfl
  obtain ⟨receipt,receipts,outcome⟩ := @paid_step _ _ _ _ _ host (opening input output).1 _ facts tx signing
    ⟨⟨verified,by rw [account]; exact next⟩,by rw [account]; exact covered⟩ consents room (by rw [account,queue]; change _ + maturedTotal _ input.blockHeight ≤ _; omega)
  rw [← none] at receipts outcome
  have block := (apply_block_ok done).2.2.symm
  rw [applyOrdinary,executeTransactions,show (blockFacts input _ _).input.transactions = tx::rest from first] at block
  refine ⟨signed.signer,receipt,by rw [signing]; rfl,block,receipts,outcome.imp_right fun charged => ?_⟩
  obtain ⟨pot,paid⟩ := charged
  have balance := paid.balance
  have nonce := paid.nonce
  rw [account] at balance nonce
  exact ⟨pot,(congrArg (· + _) balance).trans (Nat.sub_add_cancel covered),nonce⟩
end
section
-- The proposed liveness window reaches the unbonding delay: only execution sees it.
def proposerState (nonce : Nat) : State Nat Nat Nat :=
  (commitValidator ((∅ : AList (Row Nat Nat Nat)).insert .runtimePolicy (samplePolicy 1)) 2 ⟨10,true⟩).insert (.account 2) ⟨nonce,300000⟩

def longWindow (nonce : Nat) : Transaction Nat Nat Nat := .proposePolicy ⟨2,{samplePolicy 1 with evidenceMaxAgeBlocks := 2},nonce,0⟩
def windowInput (nonce : Nat) : StfInput Nat Nat Nat := {sampleInput 3 with transactions := [longWindow nonce]}

theorem window_block (nonce : Nat) (known : nonce = 0 ∨ nonce = maxU64) :
    (validateTx sampleHost (proposerState nonce) 7 100000 (some (longWindow nonce))).code = .valid ∧ wealth (proposerState nonce) ≤ maxU128 ∧
    ∃ output, applyBlock sampleHost (windowInput nonce) (proposerState nonce) = .ok output ∧
      Uneventful (windowInput nonce) (proposerState nonce) output ∧ output.tally.failed = 1 ∧
      (loadAccount output.state 2).nonce = min (nonce + 1) maxU64 := by
  have facts : (applyBlock sampleHost (windowInput nonce) (proposerState nonce)).toOption.any (fun output =>
      decide (output.mandatory.admitted = [] ∧ output.mandatory.executed = [] ∧ output.tally.failed = 1 ∧
        (loadAccount output.state 2).nonce = min (nonce + 1) maxU64)) = true := by
    rcases known with rfl | rfl <;> decide +kernel
  obtain ⟨output,done,checked⟩ := completed_check facts
  obtain ⟨admitted,executed,failed,after⟩ := of_decide_eq_true checked
  refine ⟨by rcases known with rfl | rfl <;> decide +kernel,by rcases known with rfl | rfl <;> decide +kernel,
    output,done,⟨admitted,executed,?_⟩,failed,after⟩
  rintro key ⟨expired,keys,due,found,-⟩
  have clean : bucket (proposerState nonce) 0 = none := by rcases known with rfl | rfl <;> decide +kernel
  obtain rfl : expired = 0 := by
    simp only [windowInput,sampleInput] at due
    omega
  rw [clean] at found
  cases found

theorem failed_proposal_charged : ∃ output, applyBlock sampleHost (windowInput 0) (proposerState 0) = .ok output ∧ output.tally.failed = 1 ∧
    ∃ facts after receipt, facts = blockFacts (windowInput 0) (loadRuntimePolicy (proposerState 0)) output.mandatory.queue ∧
      after = executeTransaction sampleHost facts (opening (windowInput 0) output) (longWindow 0) ∧ after.2.receipts = [receipt] ∧
      (receipt.statusCode = ReceiptStatus.success.asU32 ∨ after.2.proposerFee = transactionFee facts (longWindow 0)) := by
  obtain ⟨valid,bounded,output,done,quiet,failed,-⟩ := window_block 0 (.inl rfl)
  obtain ⟨_,receipt,-,-,receipts,outcome⟩ := admitted_charged done quiet bounded rfl (Nat.le_refl 100000) valid
  refine ⟨output,done,failed,_,_,receipt,rfl,rfl,receipts,?_⟩
  exact outcome.imp_right And.left

-- A nonce at its maximum is not spent: the failed transaction can be replayed.
theorem last_nonce_kept : (validateTx sampleHost (proposerState maxU64) 7 100000 (some (longWindow maxU64))).code = .valid ∧
    wealth (proposerState maxU64) ≤ maxU128 ∧ ∃ output, applyBlock sampleHost (windowInput maxU64) (proposerState maxU64) = .ok output ∧
      Uneventful (windowInput maxU64) (proposerState maxU64) output ∧ output.tally.failed = 1 ∧
      (loadAccount output.state 2).nonce = (loadAccount (proposerState maxU64) 2).nonce := by
  obtain ⟨valid,bounded,output,done,quiet,failed,after⟩ := window_block maxU64 (.inr rfl)
  exact ⟨valid,bounded,output,done,quiet,failed,after.trans (by decide +kernel)⟩
end
end Neutrino.Runtime
