import Neutrino.Runtime.Accountability

-- What each handler has checked and written, and which rows it can reach.
namespace Neutrino.Runtime
open Checks Consensus Chain Effects Ledger

section
variable {Hash Key Sig : Type} [LinearOrder Hash] [DecidableEq Key] {state next : State Hash Key Sig}
variable {verifySignature : Hash → SigMessage Hash Key → Sig → Bool} {proposalId : Hash → ProposalAction Hash → Hash}

theorem checked_add128_some {left right sum : Nat} : checkedAdd128 left right = some sum ↔ left + right = sum ∧ sum ≤ maxU128 := by
  unfold checkedAdd128
  split
  · rename_i fits
    simp only [Option.some.injEq]
    exact ⟨fun same => ⟨same,same ▸ fits⟩,fun facts => facts.1⟩
  · rename_i wide
    simp only [reduceCtorEq,false_iff]
    rintro ⟨rfl,fits⟩
    exact wide fits

theorem check_payer_ok {payer : Hash} {nonce amount fee debit : Nat}
    (accepted : checkPayer state payer nonce amount fee = .ok (account,debit)) :
    account = loadAccount state payer ∧ debit = amount + fee ∧ debit ≤ account.balance := by
  simp only [checkPayer,authorize,signerAccount,bind_ok,ensure_ok,pure_ok,required_ok,checked_add128_some, Prod.mk.injEq] at accepted
  obtain ⟨_,⟨_,⟨_,-,rfl⟩,_,-,rfl⟩,_,⟨rfl,-⟩,_,covered,rfl,rfl⟩ := accepted
  exact ⟨rfl,rfl,covered⟩

theorem authorize_signer_ok {signer : Hash} {nonce height fee : Nat} {message : SigMessage Hash Key} {signature : Sig}
    {entries : List (ValidatorSetEntry Hash)}
    (accepted : authorizeSigner verifySignature state signer nonce height fee message signature = .ok (account,entries)) :
    account = loadAccount state signer ∧ fee ≤ account.balance := by
  simp only [authorizeSigner,authorize,signerAccount,bind_ok,ensure_ok,pure_ok,Prod.mk.injEq] at accepted
  obtain ⟨_,-,_,⟨_,⟨_,-,rfl⟩,_,covered,rfl⟩,_,-,rfl,rfl⟩ := accepted
  exact ⟨rfl,covered⟩

theorem check_bond_ok {funder validator : Hash} {bond : Bond} {debit : Nat} {bonded : RuntimeValidator}
    (accepted : checkBond state funder validator bond = .ok (account,debit,bonded)) :
    account = loadAccount state funder ∧ debit = bond.amount + bond.fee ∧ debit ≤ account.balance ∧
    (∃ record, loadValidatorRecord state validator = some record) ∧
    bonded.stake = (loadValidator state validator).stake + bond.amount ∧ 0 < bond.amount ∧ bonded.active = decide (0 < bonded.stake) := by
  simp only [checkBond,bind_ok,mapError_ok,requireAmount,requireBonded,ensure_ok,required_ok,pure_ok,
    checked_add128_some,Prod.mk.injEq] at accepted
  obtain ⟨⟨payer,due⟩,paid,_,positive,record,found,_,⟨rfl,-⟩,_,-,rfl,rfl,rfl⟩ := accepted
  obtain ⟨rfl,rfl,covered⟩ := check_payer_ok paid
  refine ⟨rfl,rfl,covered,⟨record,found⟩,?_,Nat.pos_of_ne_zero positive,rfl⟩
  simp [loadValidator,found]
end

-- The other rows belong to the mandatory phase alone.
def Ordinary {Hash Key : Type} : StateKey Hash Key → Prop
  | .participation | .absent _ | .queue | .offence _ | .slashed _ | .expiry _ | .settlementTotals => False
  | _ => True

def Bonded {Hash Key : Type} : StateKey Hash Key → Prop
  | .account _ | .validator _ | .withdrawal _ | .registration _ | .bonding _ | .validatorSet | .validatorRegistrations
  | .consensusCandidates => True
  | _ => False

theorem bonded_ordinary {Hash Key : Type} {key : StateKey Hash Key} (bonded : Bonded key) : Ordinary key := by
  cases key <;> simp_all [Bonded,Ordinary]

section
variable {Hash Key Sig : Type} [LinearOrder Hash] [DecidableEq Key] (state : State Hash Key Sig)
variable {verifySignature : Hash → SigMessage Hash Key → Sig → Bool} {proposalId : Hash → ProposalAction Hash → Hash}
variable {touched : StateKey Hash Key → Prop}

theorem store_account_frame (address : Hash) (account : Account) : Frame Bonded state (storeAccount state address account) :=
  (Frame.refl state).insert (.account address) trivial account

theorem sync_frame (candidates : touched .consensusCandidates) (address : Hash) (validator : Option RuntimeValidator) :
    Frame touched state (syncConsensusCandidate state address validator) := by
  simp only [syncConsensusCandidate]
  split
  · split
    · exact (Frame.refl state).insert .consensusCandidates candidates _
    · exact .refl state
  · exact (Frame.refl state).insert .consensusCandidates candidates _

theorem commit_frame (address : Hash) (validator : RuntimeValidator) : Frame Bonded state (commitValidator state address validator) := by
  refine .trans ?_ (sync_frame _ trivial address (some validator))
  exact ((Frame.refl state).insert (.validator address) trivial validator).insert .validatorSet trivial _

theorem store_registrations_frame (registrations : touched .validatorRegistrations) (index : AddressIndex Hash) :
    Frame touched state (storeValidatorRegistrations state index) := by
  rw [storeValidatorRegistrations]
  split
  · exact (Frame.refl state).erase .validatorRegistrations registrations
  · exact (Frame.refl state).insert .validatorRegistrations registrations _

theorem drop_registration_frame {address : Hash} (own : touched (.registration address))
    (registrations : touched .validatorRegistrations) : Frame touched state (dropRegistration state address) := by
  simp only [dropRegistration]
  split
  · exact ((Frame.refl state).erase (.registration address) own).trans (store_registrations_frame _ registrations _)
  · exact .refl state

theorem retire_frame (address : Hash) : Frame Bonded state (retireValidator state address) := by
  refine .trans ?_ (sync_frame _ trivial address none)
  refine .trans ?_ (drop_registration_frame _ trivial trivial)
  exact (((Frame.refl state).erase (.validator address) trivial).erase (.withdrawal address) trivial).erase (.bonding address) trivial

theorem settle_withdrawal_frame (address : Hash) (queue : List Withdrawal) : Frame Bonded state (settleWithdrawal state address queue) := by
  rw [settleWithdrawal]
  split
  · exact (Frame.refl state).insert (.withdrawal address) trivial queue
  · split
    · exact retire_frame state address
    · exact (Frame.refl state).erase (.withdrawal address) trivial

theorem enact_frame (upgrade : touched .upgrade) (retuned : touched .runtimePolicy) (action : ProposalAction Hash) :
    Frame touched state (enact state action) := by
  cases action with
  | programs programs artifacts activateAtChunk => exact (Frame.refl state).insert .upgrade upgrade _
  | policy policy => exact (Frame.refl state).insert .runtimePolicy retuned policy

theorem settle_frame (upgrade : touched .upgrade) (retuned : touched .runtimePolicy) (voted : touched .upgradeProposal)
    (proposal : UpgradeProposal Hash) (entries : List (ValidatorSetEntry Hash)) : Frame touched state (settle state proposal entries) := by
  rw [settle]
  split
  · exact (enact_frame state upgrade retuned proposal.action).erase .upgradeProposal voted
  · exact (Frame.refl state).insert .upgradeProposal voted proposal

def Scheduling : StateKey Hash Key → Prop
  | .upgrade | .upgradeProposal => True
  | _ => False

theorem expire_frame (chunk : Nat) : Frame Scheduling state (expire state chunk) := by
  have first : Frame Scheduling state (expireScheduled state chunk) := by
    rw [expireScheduled]
    split
    · exact (Frame.refl state).erase .upgrade trivial
    · exact .refl state
  refine first.trans ?_
  rw [expire,expireProposal]
  split
  · exact (Frame.refl (expireScheduled state chunk)).erase .upgradeProposal trivial
  · exact .refl (expireScheduled state chunk)

theorem scheduling_ordinary {key : StateKey Hash Key} (scheduling : Scheduling key) : Ordinary key := by
  cases key <;> simp_all [Scheduling,Ordinary]

theorem enact_policy (action : ProposalAction Hash) : loadRuntimePolicy (enact state action) = match action with
      | .policy policy => policy
      | .programs _ _ _ => loadRuntimePolicy state := by
  cases action with
  | programs programs artifacts activateAtChunk =>
    rw [enact,loadRuntimePolicy,AList.lookup_insert_ne (by simp)]
    rfl
  | policy policy =>
    rw [enact,loadRuntimePolicy,AList.lookup_insert]
    rfl

theorem settle_policy (proposal : UpgradeProposal Hash) (entries : List (ValidatorSetEntry Hash)) :
    loadRuntimePolicy (settle state proposal entries) = loadRuntimePolicy state ∨
      proposal.quorumReached entries = true ∧ proposal.action = .policy (loadRuntimePolicy (settle state proposal entries)) := by
  rw [settle]
  split
  · rename_i reached
    have erased : loadRuntimePolicy ((enact state proposal.action).erase .upgradeProposal) =
        loadRuntimePolicy (enact state proposal.action) := by
      rw [loadRuntimePolicy,AList.lookup_erase_ne (by simp),loadRuntimePolicy]
    rw [erased,enact_policy]
    split
    · rename_i same
      exact .inr ⟨reached,same⟩
    · exact .inl rfl
  · refine .inl ?_
    rw [loadRuntimePolicy,AList.lookup_insert_ne (by simp),loadRuntimePolicy]

theorem burned_queue_frame {address : Hash} (own : touched (.withdrawal address)) (queue : List Withdrawal) :
    Frame touched state (storeBurnedQueue state address queue) := by
  rw [storeBurnedQueue]
  split
  · exact (Frame.refl state).erase (.withdrawal address) own
  · exact (Frame.refl state).insert (.withdrawal address) own queue

theorem deduction_frame {address : Hash} {amount burned : Nat} {next : State Hash Key Sig}
    (applied : applyDeduction state address amount = .ok (burned,next)) : Frame Bonded state next := by
  simp only [applyDeduction,bind_ok,ensure_ok,pure_ok,Prod.mk.injEq] at applied
  obtain ⟨_,-,-,rfl⟩ := applied
  split
  · exact (commit_frame state address _).trans (burned_queue_frame _ trivial _)
  · exact commit_frame state address _
end
variable {Hash Key Sig : Type} [LinearOrder Hash] [DecidableEq Key] {host : Host Hash Key Sig}
variable {facts : BlockFacts Hash Key Sig} {state next : State Hash Key Sig} {fee : Nat}

-- A settled policy was valid when proposed, and fits the queue if it is enacted.
structure Sanctioned (block : BlockContext Hash) (state : State Hash Key Sig) (proposal : UpgradeProposal Hash)
    (entries : List (ValidatorSetEntry Hash)) : Prop where
  origin : ∀ policy, proposal.action = .policy policy → policy.IsValidFor block.anchor ∨
    ∃ earlier, loadProposal state = some earlier ∧ earlier.action = .policy policy
  fits : ∀ policy, proposal.action = .policy policy → proposal.quorumReached entries = true → PolicyEnactable block policy

inductive Outcome (facts : BlockFacts Hash Key Sig) (state : State Hash Key Sig) : State Hash Key Sig → Prop where
  | staking {after : State Hash Key Sig} (frame : Frame Bonded state after) : Outcome facts state after
  | governance {proposal : UpgradeProposal Hash} {entries : List (ValidatorSetEntry Hash)} (signer : Hash) (account : Account)
    (sanctioned : Sanctioned facts.governance state proposal entries) :
    Outcome facts state (settle (storeAccount state signer account) proposal entries)

variable {entries : List (ValidatorSetEntry Hash)}

theorem propose_policy_sanctioned {tx : ProposePolicyTx Hash Sig} {account : Account}
    (checked : checkProposePolicy host.verifySignature host.proposalId state facts.input.chainId facts.governance fee tx =
      .ok (account,entries)) :
    Sanctioned facts.governance state (openProposal tx.proposer (.policy tx.policy) facts.governance.chunk) entries := by
  simp only [checkProposePolicy,bind_ok,ensure_ok,pure_ok] at checked
  obtain ⟨_,-,_,⟨valid,enactable⟩,-⟩ := checked
  constructor
  · rintro policy same
    cases same
    exact .inl valid
  · rintro policy same -
    cases same
    exact enactable

theorem vote_sanctioned {tx : VoteUpgradeTx Hash Sig} {account : Account} {proposal : UpgradeProposal Hash} (voters : AddressIndex Hash)
    (checked : checkVote host.verifySignature host.proposalId state facts.input.chainId facts.governance fee tx =
      .ok (account,entries,proposal)) (fits : blocksQueue facts.governance {proposal with voters} entries = false) :
    Sanctioned facts.governance state {proposal with voters} entries := by
  simp only [checkVote,bind_ok,ensure_ok,required_ok,pure_ok,Prod.mk.injEq] at checked
  obtain ⟨_,-,found,named,_,-,-,-,rfl⟩ := checked
  constructor
  · exact fun policy same => .inr ⟨_,(Option.filter_eq_some_iff.mp named).1,same⟩
  · intro policy same quorum
    obtain ⟨proposer,action,chunk,_⟩ := found
    cases same
    simpa [blocksQueue,quorum] using fits

def Transaction.signer : Transaction Hash Key Sig → Option Hash
  | .transfer tx => some tx.source
  | .stake tx => some tx.validator
  | .unstake tx => some tx.validator
  | .deposit tx => some tx.depositor
  | .voluntaryExit tx => some tx.validator
  | .withdraw tx => some tx.validator
  | .registerValidator tx => some tx.depositor
  | .submitEvidence _ => none
  | .proposeUpgrade tx => some tx.proposer
  | .voteUpgrade tx => some tx.voter
  | .proposePolicy tx => some tx.proposer

def Transaction.unbonds (stake : Nat) : Transaction Hash Key Sig → Option Nat
  | .unstake tx => some tx.amount
  | .voluntaryExit _ => some stake
  | _ => none

def Transaction.movesQueue : Transaction Hash Key Sig → Bool
  | .unstake _ | .voluntaryExit _ | .withdraw _ => true
  | _ => false

def BlockFacts.maturity (facts : BlockFacts Hash Key Sig) : Nat := facts.input.blockHeight + facts.input.evidenceAnchor.unbondingDelayBlocks

-- Everything a transaction can do to the state, with what was checked of it.
inductive Effect (facts : BlockFacts Hash Key Sig) (state : State Hash Key Sig) (fee : Nat) :
    Transaction Hash Key Sig → State Hash Key Sig → Prop where
  | returned {tx : TransferTx Hash Sig} (own : tx.source = tx.target)
    (covered : tx.amount + fee ≤ (loadAccount state tx.source).balance) :
    Effect facts state fee (.transfer tx) (storeAccount state tx.source {spend (loadAccount state tx.source) (tx.amount + fee) with
        balance := saturatingAdd128 ((loadAccount state tx.source).balance - (tx.amount + fee)) tx.amount})
  | transferred {tx : TransferTx Hash Sig} (apart : tx.source ≠ tx.target)
    (covered : tx.amount + fee ≤ (loadAccount state tx.source).balance)
    (fits : (loadAccount state tx.target).balance + tx.amount ≤ maxU128) :
    Effect facts state fee (.transfer tx) (storeAccount
      (storeAccount state tx.source (spend (loadAccount state tx.source) (tx.amount + fee))) tx.target
      {loadAccount state tx.target with balance := (loadAccount state tx.target).balance + tx.amount})
  | bonded {tx : Transaction Hash Key Sig} {funder validator : Hash} {bond : Bond} {account : Account} {debit : Nat}
    {record : RuntimeValidator} (height : Nat) (signs : tx.signer = some funder) (quiet : tx.movesQueue = false)
    (charges : txChargesFee tx = true) (own : bond.fee = fee)
    (checked : checkBond state funder validator bond = .ok (account,debit,record)) :
    Effect facts state fee tx (recordBond
      (commitValidator (storeAccount state funder (spend account debit)) validator record) validator bond.amount height)
  | unbonded {tx : Transaction Hash Key Sig} {signer : Hash} {amount : Nat} (signs : tx.signer = some signer)
    (unbonds : tx.unbonds (loadValidator state signer).stake = some amount) (charges : txChargesFee tx = true)
    (covered : fee ≤ (loadAccount state signer).balance) (within : amount ≤ (loadValidator state signer).stake) :
    Effect facts state fee tx (unbond state signer (loadAccount state signer) fee (loadValidator state signer) ⟨amount,facts.maturity⟩)
  | withdrew {tx : WithdrawTx Hash Sig} {credited : Nat} (free : facts.held tx.validator = false)
    (sum : (loadAccount state tx.validator).balance +
      maturedTotal (loadWithdrawalQueue state tx.validator) facts.input.blockHeight = credited)
    (fits : credited ≤ maxU128) (covered : fee ≤ credited) :
    Effect facts state fee (.withdraw tx) (settleWithdrawal (storeAccount state tx.validator
      ⟨saturatingAdd (loadAccount state tx.validator).nonce 1,credited - fee⟩) tx.validator
      ((loadWithdrawalQueue state tx.validator).filter fun entry => !decide (entry.matureAtHeight ≤ facts.input.blockHeight)))
  | registered {tx : RegisterValidatorTx Hash Key Sig} (registration : ValidatorRegistration Hash Key Sig)
    (index : AddressIndex Hash) (covered : tx.depositAmount + fee ≤ (loadAccount state tx.depositor).balance)
    (idle : (loadValidator state tx.validator).stake = 0) :
    Effect facts state fee (.registerValidator tx) (commitValidator (storeValidatorRegistrations
      (storeAccount (state.insert (.registration tx.validator) registration) tx.depositor
        (spend (loadAccount state tx.depositor) (tx.depositAmount + fee))) index) tx.validator ⟨tx.depositAmount,true⟩)
  | evidence (submission : EvidenceSubmission Hash Key) : Effect facts state fee (.submitEvidence submission) state
  | voted {tx : Transaction Hash Key Sig} {signer : Hash} {proposal : UpgradeProposal Hash}
    {entries : List (ValidatorSetEntry Hash)} (signs : tx.signer = some signer) (quiet : tx.movesQueue = false)
    (charges : txChargesFee tx = true) (covered : fee ≤ (loadAccount state signer).balance)
    (sanctioned : Sanctioned facts.governance state proposal entries) :
    Effect facts state fee tx (settle (storeAccount state signer (spend (loadAccount state signer) fee)) proposal entries)

theorem transaction_effect {tx : Transaction Hash Key Sig} (applied : transactionResult host facts state fee tx = .ok next) :
    Effect facts state fee tx next := by
  cases tx with
  | transfer tx =>
    simp only [transactionResult,applyTransaction,applyTransfer,checkTransfer,result_get,result_attempt,result_ite,bind_ok] at applied
    obtain ⟨⟨sender,debit⟩,⟨_,-,checked⟩,applied⟩ := applied
    obtain ⟨rfl,rfl,covered⟩ := check_payer_ok checked
    split at applied
    next own =>
      cases applied
      exact .returned own covered
    next apart =>
      simp only [result_get,result_attempt,result_written,result_modify,bind_ok,required_ok,pure_ok,checked_add128_some] at applied
      obtain ⟨_,⟨rfl,fits⟩,rfl⟩ := applied
      exact .transferred apart covered fits
  | stake tx =>
    simp only [transactionResult,applyTransaction,applyStake,result_get,result_attempt,result_written,result_modify,checkStake,bind_ok,pure_ok] at applied
    obtain ⟨⟨signer,debit,validator⟩,⟨_,-,checked⟩,rfl⟩ := applied
    exact .bonded _ rfl rfl rfl rfl checked
  | unstake tx =>
    simp only [transactionResult,applyTransaction,applyUnstake,result_get,result_attempt,result_written,result_modify,checkUnstake,bind_ok,ensure_ok,pure_ok,required_ok,checked_add_some] at applied
    obtain ⟨⟨signer,validator⟩,⟨_,-,⟨_,_⟩,paid,_,-,_,within,_,-,rfl,rfl⟩,_,⟨rfl,-⟩,rfl⟩ := applied
    obtain ⟨rfl,rfl,covered⟩ := check_payer_ok paid
    exact .unbonded rfl rfl rfl (by omega) within
  | deposit tx =>
    simp only [transactionResult,applyTransaction,applyDeposit,result_get,result_attempt,result_written,result_modify,checkDeposit,bind_ok,pure_ok] at applied
    obtain ⟨⟨depositor,debit,validator⟩,⟨_,-,checked⟩,rfl⟩ := applied
    exact .bonded _ rfl rfl rfl rfl checked
  | voluntaryExit tx =>
    simp only [transactionResult,applyTransaction,applyVoluntaryExit,result_get,result_attempt,result_written,result_modify,checkVoluntaryExit,bind_ok,ensure_ok,pure_ok,required_ok, checked_add_some] at applied
    obtain ⟨⟨signer,validator⟩,⟨_,-,⟨_,_⟩,paid,_,-,rfl,rfl⟩,_,⟨rfl,-⟩,rfl⟩ := applied
    obtain ⟨rfl,rfl,covered⟩ := check_payer_ok paid
    exact .unbonded rfl rfl rfl (by omega) (Nat.le_refl _)
  | withdraw tx =>
    simp only [transactionResult,applyTransaction,applyWithdraw,result_get,result_attempt,result_written,result_modify,checkWithdraw,signerAccount,bind_ok,ensure_ok,required_ok,checked_add128_some,
      pure_ok] at applied
    obtain ⟨_,⟨_,-,_,-,rfl⟩,_,free,_,⟨sum,fits⟩,_,covered,rfl⟩ := applied
    exact .withdrew free sum fits covered
  | registerValidator tx =>
    simp only [transactionResult,applyTransaction,applyRegisterValidator,result_get,result_attempt,result_written,result_modify,checkRegisterValidator,bind_ok,ensure_ok,pure_ok] at applied
    obtain ⟨⟨depositor,debit,registrations⟩,⟨_,-,_,-,⟨_,_⟩,paid,_,-,_,-,_,-,_,idle,rfl,rfl,rfl⟩,rfl⟩ := applied
    obtain ⟨rfl,rfl,covered⟩ := check_payer_ok paid
    exact .registered _ _ covered (Nat.eq_zero_of_not_pos fun positive => idle (.inl positive))
  | submitEvidence submission =>
    cases applied
    exact .evidence submission
  | proposeUpgrade tx =>
    simp only [transactionResult,applyTransaction,applyPropose,result_get,result_attempt,result_written,result_modify,checkPropose,checkNewProposal,bind_ok,pure_ok] at applied
    obtain ⟨_,⟨_,⟨⟨_,_⟩,accepted,_,-,_,-,rfl⟩,_,-,rfl⟩,rfl⟩ := applied
    obtain ⟨rfl,covered⟩ := authorize_signer_ok accepted
    exact .voted rfl rfl rfl covered ⟨fun _ same => (by cases same),fun _ same => (by cases same)⟩
  | voteUpgrade tx =>
    simp only [transactionResult,applyTransaction,applyVote,result_get,result_attempt,result_written,result_modify,bind_ok,ensure_ok,pure_ok] at applied
    obtain ⟨⟨account,entries,proposal⟩,checked,_,fits,rfl⟩ := applied
    have sanctioned := vote_sanctioned (proposal.voters.upsert tx.voter) checked fits
    simp only [checkVote,bind_ok,pure_ok,Prod.mk.injEq] at checked
    obtain ⟨⟨_,_⟩,accepted,_,-,_,-,rfl,rfl,rfl⟩ := checked
    obtain ⟨rfl,covered⟩ := authorize_signer_ok accepted
    exact .voted rfl rfl rfl covered sanctioned
  | proposePolicy tx =>
    simp only [transactionResult,applyTransaction,applyProposePolicy,result_get,result_attempt,result_written,result_modify,bind_ok,pure_ok] at applied
    obtain ⟨⟨account,entries⟩,checked,rfl⟩ := applied
    have sanctioned := propose_policy_sanctioned checked
    simp only [checkProposePolicy,checkNewProposal,bind_ok,pure_ok] at checked
    obtain ⟨_,⟨⟨_,_⟩,accepted,_,-,_,-,rfl⟩,_,-,same⟩ := checked
    cases same
    obtain ⟨rfl,covered⟩ := authorize_signer_ok accepted
    exact .voted rfl rfl rfl covered sanctioned

-- No handler writes before its last check.
theorem handlers_spare (tx : Transaction Hash Key Sig) : Spares (applyTransaction host facts fee tx) := by
  cases tx with
  | submitEvidence => exact spares_writes fun state => ⟨_,rfl⟩
  | transfer tx =>
    refine spares_get fun _ => spares_attempt fun ⟨sender,debit⟩ => ?_
    change Spares (ite _ _ _)
    split
    · exact spares_writes fun state => ⟨_,rfl⟩
    · exact spares_get fun _ => spares_attempt fun _ => spares_writes fun state => ⟨_,rfl⟩
  | stake | deposit | registerValidator | proposeUpgrade | proposePolicy =>
    exact spares_get fun _ => spares_attempt fun _ => spares_writes fun state => ⟨_,rfl⟩
  | unstake | voluntaryExit | voteUpgrade =>
    exact spares_get fun _ => spares_attempt fun _ => spares_attempt fun _ => spares_writes fun state => ⟨_,rfl⟩
  | withdraw tx =>
    refine spares_get fun _ => spares_attempt fun _ => spares_attempt fun _ => spares_get fun _ => ?_
    exact spares_attempt fun _ => spares_attempt fun _ => spares_writes fun state => ⟨_,rfl⟩

theorem applied_result (ran : applyTransaction host facts fee tx state = .ok done next) :
    transactionResult host facts state fee tx = .ok next := by
  rw [transactionResult,result,ran]

theorem refused_result {failure : Failure Hash} (ran : applyTransaction host facts fee tx state = .error failure reached) :
    transactionResult host facts state fee tx = .error failure ∧ reached = state := by
  refine ⟨?_,handlers_spare tx state failure reached ran⟩
  rw [transactionResult,result,ran]

def transactionFee (facts : BlockFacts Hash Key Sig) (tx : Transaction Hash Key Sig) : Nat := min (txGas tx * facts.gasPrice) maxU128

inductive Ran (host : Host Hash Key Sig) (facts : BlockFacts Hash Key Sig) (state : State Hash Key Sig) (tally : Tally) (tx : Transaction Hash Key Sig) :
    State Hash Key Sig → Tally → Prop where
  | skipped (full : facts.input.blockGasLimit < saturatingAdd tally.gasUsed (txGas tx)) :
    Ran host facts state tally tx state {tally with
      failed := min (tally.failed + 1) maxU32
      receipts := tally.receipts ++ [⟨ReceiptStatus.outOfBlockGas.asU32,0,txKindCode tx⟩]}
  | succeeded {next : State Hash Key Sig} (fits : saturatingAdd tally.gasUsed (txGas tx) ≤ facts.input.blockGasLimit)
    (applied : transactionResult host facts state (transactionFee facts tx) tx = .ok next) :
    Ran host facts state tally tx next ⟨min (tally.applied + 1) maxU32,tally.failed,saturatingAdd tally.gasUsed (txGas tx),
      if txChargesFee tx then saturatingAdd128 tally.proposerFee (transactionFee facts tx) else tally.proposerFee,
      tally.receipts ++ [⟨ReceiptStatus.success.asU32,txGas tx,txKindCode tx⟩]⟩
  | failed {failure : Failure Hash} (fits : saturatingAdd tally.gasUsed (txGas tx) ≤ facts.input.blockGasLimit)
    (refused : transactionResult host facts state (transactionFee facts tx) tx = .error failure) :
    Ran host facts state tally tx (chargePayer state (txChargesFee tx) (transactionFee facts tx) failure.payer).2
      ⟨tally.applied,min (tally.failed + 1) maxU32,saturatingAdd tally.gasUsed (txGas tx),
        saturatingAdd128 tally.proposerFee (chargePayer state (txChargesFee tx) (transactionFee facts tx) failure.payer).1,
        tally.receipts ++ [⟨failure.status.asU32,txGas tx,txKindCode tx⟩]⟩

theorem execute_ran (host : Host Hash Key Sig) (facts : BlockFacts Hash Key Sig) (state : State Hash Key Sig) (tally : Tally) (tx : Transaction Hash Key Sig) :
    Ran host facts state tally tx (executeTransaction host facts (state,tally) tx).1
      (executeTransaction host facts (state,tally) tx).2 := by
  simp only [executeTransaction]
  split
  next full => exact .skipped full
  next fits =>
    split
    next done next ran => exact .succeeded (Nat.le_of_not_lt fits) (applied_result ran)
    next failure reached ran =>
      obtain ⟨refused,rfl⟩ := refused_result ran
      exact .failed (Nat.le_of_not_lt fits) refused

theorem transaction_outcome {tx : Transaction Hash Key Sig}
    (applied : transactionResult host facts state fee tx = .ok next) : Outcome facts state next := by
  cases transaction_effect applied with
  | returned => exact .staking (store_account_frame state _ _)
  | transferred => exact .staking ((store_account_frame state _ _).trans (store_account_frame _ _ _))
  | bonded =>
    exact .staking (((store_account_frame state _ _).trans (commit_frame _ _ _)).insert (.bonding _) trivial _)
  | unbonded => exact .staking (((store_account_frame state _ _).trans (commit_frame _ _ _)).insert (.withdrawal _) trivial _)
  | withdrew => exact .staking ((store_account_frame state _ _).trans (settle_withdrawal_frame _ _ _))
  | registered =>
    refine .staking (.trans ?_ (commit_frame _ _ _))
    refine .trans ?_ (store_registrations_frame _ trivial _)
    exact ((Frame.refl state).insert (.registration _) trivial _).insert (.account _) trivial _
  | evidence => exact .staking (.refl state)
  | voted _ _ _ _ sanctioned => exact .governance _ _ sanctioned

theorem charge_payer_frame {touched : StateKey Hash Key → Prop} (accounts : ∀ address, touched (.account address)) (chargesFee : Bool)
    (payer : Option Hash) : Frame touched state (chargePayer state chargesFee fee payer).2 := by
  cases payer with
  | none => exact .refl state
  | some payer =>
    rw [chargePayer]
    split
    · exact (Frame.refl state).insert (.account payer) (accounts payer) _
    · exact .refl state

theorem execute_transaction_outcome (tally : Tally) (tx : Transaction Hash Key Sig) :
    Outcome facts state (executeTransaction host facts (state,tally) tx).1 := by
  have step := execute_ran host facts state tally tx
  generalize executeTransaction host facts (state,tally) tx = after at step ⊢
  obtain ⟨next,counted⟩ := after
  cases step with
  | skipped => exact .staking (.refl _)
  | succeeded _ applied => exact transaction_outcome applied
  | failed => exact .staking (charge_payer_frame (fun _ => trivial) _ _)

theorem Outcome.frame (outcome : Outcome facts state next) : Frame Ordinary state next := by
  cases outcome with
  | staking frame => exact frame.widen fun _ => bonded_ordinary
  | governance signer account sanctioned =>
    exact ((store_account_frame state _ _).widen fun _ => bonded_ordinary).trans (settle_frame _ trivial trivial trivial _ _)

theorem execute_transactions_induct (holds : State Hash Key Sig → Prop)
    (step : ∀ state tally tx, tx ∈ facts.input.transactions → holds state → holds (executeTransaction host facts (state,tally) tx).1)
    {tally : Tally} (initial : holds state) : holds (executeTransactions host facts state tally).1 := by
  rw [executeTransactions]
  refine List.foldlRecOn (motive := fun current : State Hash Key Sig × Tally => holds current.1) _ _ initial fun current held tx listed => ?_
  exact step current.1 current.2 tx listed held

theorem credit_proposer_frame (proposer : Hash) : Frame Bonded state (creditProposer state proposer fee) := by
  rw [creditProposer]
  split
  · exact .refl state
  · exact store_account_frame state _ _

theorem ordinary_induct (holds : State Hash Key Sig → Prop) {input : StfInput Hash Key Sig} {policy : RuntimePolicy}
    {mandatory : Mandatory Hash Key Sig} (initial : holds (expire mandatory.state input.evidenceAnchor.chunkId))
    (step : ∀ before after, Outcome (blockFacts input policy mandatory.queue) before after → holds before → holds after) :
    holds (applyOrdinary host input policy mandatory).1 := by
  refine step _ _ (.staking (credit_proposer_frame _)) ?_
  exact execute_transactions_induct holds (fun _ tally tx _ => step _ _ (execute_transaction_outcome tally tx)) initial

theorem ordinary_frame (host : Host Hash Key Sig) (input : StfInput Hash Key Sig) (policy : RuntimePolicy) (mandatory : Mandatory Hash Key Sig) :
    Frame Ordinary mandatory.state (applyOrdinary host input policy mandatory).1 :=
  ordinary_induct (Frame Ordinary mandatory.state ·) ((expire_frame _ _).widen fun _ => scheduling_ordinary)
    fun _ _ outcome held => held.trans outcome.frame
end Neutrino.Runtime
