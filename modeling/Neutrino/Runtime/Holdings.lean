import Neutrino.Runtime.Trace

-- What one address holds and how a moment moves it (staking.rs, governance.rs and
-- accountability.rs).
namespace Neutrino.Runtime
open Checks Consensus Neutrino.Chain Ledger

structure Holding where
  nonce : Nat
  balance : Nat
  stake : Nat
  row : Option (List Withdrawal)
deriving DecidableEq

def Holding.queue (holding : Holding) : List Withdrawal := holding.row.getD []
def storedRow (queue : List Withdrawal) : Option (List Withdrawal) := if queue = [] then none else some queue

def burnedRow (row : Option (List Withdrawal)) (remaining : Nat) : Option (List Withdrawal) :=
  if 0 < remaining ∧ row.getD [] ≠ [] then storedRow (burnQueue (row.getD []) remaining) else row

section
variable {Hash Key Sig : Type} [LinearOrder Hash] [DecidableEq Key] (state : State Hash Key Sig)

def holding (address : Hash) : Holding where
  nonce := (loadAccount state address).nonce
  balance := (loadAccount state address).balance
  stake := (loadValidator state address).stake
  row := state.lookup (.withdrawal address)

theorem holding_frame {state next : State Hash Key Sig} (frame : Frame (¬Valued ·) state next) (address : Hash) :
    holding next address = holding state address := by
  have account := frame (.account address) (not_not.mpr trivial)
  have validator := frame (.validator address) (not_not.mpr trivial)
  have queue := frame (.withdrawal address) (not_not.mpr trivial)
  simp only [holding,loadAccount,loadValidator,loadValidatorRecord,account,validator,queue]

theorem holding_insert {key : StateKey Hash Key} (inert : ¬Valued key) (row : Row Hash Key Sig key) (address : Hash) :
    holding (state.insert key row) address = holding state address :=
  holding_frame ((Frame.refl state).insert key inert row) address

theorem holding_account (payer address : Hash) (account : Account) : holding (storeAccount state payer account) address =
      if address = payer then {holding state address with nonce := account.nonce, balance := account.balance} else holding state address := by
  split
  next same =>
    subst same
    simp only [holding,store_account_self,load_validator_account]
    congr 1
    exact AList.lookup_insert_ne (by simp)
  next apart =>
    simp only [holding,load_account_other apart,load_validator_account]
    congr 1
    exact AList.lookup_insert_ne (by simp)

theorem holding_validator (validator address : Hash) (record : RuntimeValidator) : holding (storeValidator state validator record) address =
      if address = validator then {holding state address with stake := record.stake} else holding state address := by
  have account : loadAccount (storeValidator state validator record) address = loadAccount state address := by
    rw [loadAccount,storeValidator,AList.lookup_insert_ne (by simp)]
    rfl
  have queue : (storeValidator state validator record).lookup (.withdrawal address) = state.lookup (.withdrawal address) :=
    AList.lookup_insert_ne (by simp)
  split
  next same =>
    subst same
    have stored : loadValidator (storeValidator state address record) address = record := by
      rw [loadValidator,loadValidatorRecord,storeValidator,AList.lookup_insert]
      rfl
    simp only [holding,account,stored,queue]
  next apart =>
    have kept : loadValidator (storeValidator state validator record) address = loadValidator state address := by
      rw [loadValidator,loadValidatorRecord,storeValidator,AList.lookup_insert_ne (by simpa using apart)]
      rfl
    simp only [holding,account,kept,queue]

theorem holding_row {next : State Hash Key Sig} {validator : Hash} {row : Option (List Withdrawal)}
    (frame : Frame (· = .withdrawal validator) state next) (stored : next.lookup (.withdrawal validator) = row) (address : Hash) :
    holding next address = if address = validator then {holding state address with row} else holding state address := by
  have account := frame (.account address) (by simp)
  have record := frame (.validator address) (by simp)
  split
  next same =>
    subst same
    simp only [holding,loadAccount,loadValidator,loadValidatorRecord,account,record,stored]
  next apart =>
    have queue := frame (.withdrawal address) (by simpa using apart)
    simp only [holding,loadAccount,loadValidator,loadValidatorRecord,account,record,queue]

theorem holding_store_queue (validator address : Hash) (queue : List Withdrawal) :
    holding (storeWithdrawalQueue state validator queue) address =
      if address = validator then {holding state address with row := some queue} else holding state address := by
  have frame : Frame (· = .withdrawal validator) state (storeWithdrawalQueue state validator queue) :=
    fun key apart => AList.lookup_insert_ne apart
  exact holding_row state frame (AList.lookup_insert _) address

theorem holding_erase_queue (validator address : Hash) : holding (state.erase (.withdrawal validator)) address =
      if address = validator then {holding state address with row := none} else holding state address := by
  have frame : Frame (· = .withdrawal validator) state (state.erase (.withdrawal validator)) := fun key apart => AList.lookup_erase_ne apart
  exact holding_row state frame (AList.lookup_erase _ _) address

theorem holding_commit (validator address : Hash) (record : RuntimeValidator) : holding (commitValidator state validator record) address =
      if address = validator then {holding state address with stake := record.stake} else holding state address := by
  rw [commitValidator,holding_frame (sync_frame _ id _ _),storeValidatorSet,holding_insert _ id]
  exact holding_validator state validator address record

theorem holding_erase_validator (validator address : Hash) : holding (state.erase (.validator validator)) address =
      if address = validator then {holding state address with stake := 0} else holding state address := by
  have account : (state.erase (.validator validator)).lookup (.account address) = state.lookup (.account address) :=
    AList.lookup_erase_ne (by simp)
  have queue : (state.erase (.validator validator)).lookup (.withdrawal address) = state.lookup (.withdrawal address) :=
    AList.lookup_erase_ne (by simp)
  split
  next same =>
    subst same
    have gone : (state.erase (.validator address)).lookup (.validator address) = none := AList.lookup_erase _ _
    simp only [holding,loadAccount,loadValidator,loadValidatorRecord,account,queue,gone]
    rfl
  next apart =>
    have record : (state.erase (.validator validator)).lookup (.validator address) = state.lookup (.validator address) :=
      AList.lookup_erase_ne (by simpa using apart)
    simp only [holding,loadAccount,loadValidator,loadValidatorRecord,account,queue,record]

theorem holding_retire (validator address : Hash) : holding (retireValidator state validator) address =
      if address = validator then {holding state address with stake := 0, row := none} else holding state address := by
  rw [retireValidator,holding_frame (sync_frame _ id _ _),holding_frame (drop_registration_frame _ id id),
    holding_frame ((Frame.refl _).erase (.bonding validator) id),holding_erase_queue,holding_erase_validator]
  split <;> rfl

theorem holding_settle_withdrawal (validator address : Hash) (queue : List Withdrawal) :
    holding (settleWithdrawal state validator queue) address =
      if address = validator then {holding state address with row := storedRow queue} else holding state address := by
  rw [settleWithdrawal,storedRow]
  by_cases empty : queue = []
  · rw [if_neg (not_not.mpr empty),if_pos empty]
    split
    next idle =>
      rw [holding_retire]
      split
      next same =>
        subst same
        rw [holding,idle.1]
      next => rfl
    next => exact holding_erase_queue state validator address
  · rw [if_pos empty,if_neg empty]
    exact holding_store_queue state validator address queue

theorem holding_burned_queue (validator address : Hash) (queue : List Withdrawal) :
    holding (storeBurnedQueue state validator queue) address =
      if address = validator then {holding state address with row := storedRow queue} else holding state address := by
  rw [storeBurnedQueue,storedRow]
  split
  · exact holding_erase_queue state validator address
  · exact holding_store_queue state validator address queue
end
variable {Hash Key Sig : Type} [LinearOrder Hash] [DecidableEq Key]

def Act.signer : Act Hash Key Sig → Option Hash
  | .transaction _ tx fate => if fate.effective then tx.signer else none
  | _ => none

def Act.movesQueue : Act Hash Key Sig → Bool
  | .transaction _ tx .applied => tx.movesQueue
  | _ => false

def Execution.offender (done : Execution Hash Key) : Hash := done.item.sanction.offender.withdrawalCredentials

-- Everything a moment can do to the holding of one address.
inductive Shift (address : Hash) : Act Hash Key Sig → Holding → Holding → Prop where
  | gained {event : Act Hash Key Sig} {before : Holding} (more bonded : Nat) (apart : event.signer ≠ some address)
    (spared : ∀ done, event = .sanction done → bonded = 0 ∧ (done.offender = address → done.deducted = 0))
    (fits : before.balance + more ≤ maxU128) :
    Shift address event before {before with balance := before.balance + more, stake := before.stake + bonded}
  | spent {event : Act Hash Key Sig} {before : Holding} (debit refund bonded : Nat) (signs : event.signer = some address)
    (quiet : event.movesQueue = false) (covered : debit ≤ before.balance) (refunds : refund ≤ debit) :
    Shift address event before ⟨saturatingAdd before.nonce 1,before.balance - debit + refund,before.stake + bonded,before.row⟩
  | unbonded {facts : BlockFacts Hash Key Sig} {tx : Transaction Hash Key Sig} {before : Holding} (amount : Nat)
    (signs : tx.signer = some address) (unbonds : tx.unbonds before.stake = some amount)
    (covered : transactionFee facts tx ≤ before.balance) (within : amount ≤ before.stake) :
    Shift address (.transaction facts tx .applied) before
      ⟨saturatingAdd before.nonce 1,before.balance - transactionFee facts tx,before.stake - amount,
        some (queueWithdrawal before.queue ⟨amount,facts.maturity⟩)⟩
  | withdrew {facts : BlockFacts Hash Key Sig} {tx : WithdrawTx Hash Sig} {before : Holding} (signs : tx.validator = address)
    (free : facts.held address = false) (fits : before.balance + maturedTotal before.queue facts.input.blockHeight ≤ maxU128)
    (covered : transactionFee facts (.withdraw tx) ≤ before.balance + maturedTotal before.queue facts.input.blockHeight) :
    Shift address (.transaction facts (.withdraw tx) .applied) before ⟨saturatingAdd before.nonce 1,
        before.balance + maturedTotal before.queue facts.input.blockHeight - transactionFee facts (.withdraw tx),before.stake,
        storedRow (before.queue.filter fun entry => !decide (entry.matureAtHeight ≤ facts.input.blockHeight))⟩
  | deducted {done : Execution Hash Key} {before : Holding} (reward : Nat) (names : done.offender = address)
    (within : done.deducted ≤ saturatingAdd128 before.stake (withdrawalTotal before.queue)) (fits : before.balance + reward ≤ maxU128) :
    Shift address (.sanction done) before ⟨before.nonce,before.balance + reward,before.stake - min before.stake done.deducted,
        burnedRow before.row (done.deducted - min before.stake done.deducted)⟩

variable {host : Host Hash Key Sig} {facts : BlockFacts Hash Key Sig} {state next : State Hash Key Sig}

theorem Shift.same {event : Act Hash Key Sig} {before : Holding} (apart : event.signer ≠ some address)
    (spared : ∀ done, event = .sanction done → done.offender = address → done.deducted = 0) (fits : before.balance ≤ maxU128) :
    Shift address event before before := .gained 0 0 apart (fun done runs => ⟨rfl,spared done runs⟩) fits

variable {tx : Transaction Hash Key Sig}

theorem transaction_spares {fate : Fate Hash} (done : Execution Hash Key)
    (same : (Act.transaction facts tx fate : Act Hash Key Sig) = .sanction done) : done.offender = address → done.deducted = 0 := by
  cases same

theorem signed_apart {fate : Fate Hash} (signs : tx.signer = some signer)
    (apart : address ≠ signer) : (Act.transaction facts tx fate).signer ≠ some address := by
  rw [Act.signer,signs]
  split
  · exact fun same => apart (Option.some.inj same).symm
  · exact nofun

variable {debit : Nat}

theorem shift_paid (signs : tx.signer = some signer) (quiet : tx.movesQueue = false)
    (covered : debit ≤ (loadAccount state signer).balance) (ranged : (holding state address).balance ≤ maxU128)
    (moved : holding next address = holding (storeAccount state signer (spend (loadAccount state signer) debit)) address) :
    Shift address (.transaction facts tx .applied) (holding state address) (holding next address) := by
  rw [moved,holding_account]
  split
  next same =>
    subst same
    exact .spent debit 0 0 signs quiet covered (Nat.zero_le _)
  next apart => exact .same (signed_apart signs apart) transaction_spares ranged

theorem shift_bonded (validator : Hash) (bonded : Nat) (signs : tx.signer = some signer) (quiet : tx.movesQueue = false)
    (covered : debit ≤ (loadAccount state signer).balance) (ranged : (holding state address).balance ≤ maxU128)
    (moved : holding next address = if address = validator then
        {holding (storeAccount state signer (spend (loadAccount state signer) debit)) address with
          stake := (loadValidator state validator).stake + bonded}
      else holding (storeAccount state signer (spend (loadAccount state signer) debit)) address) :
    Shift address (.transaction facts tx .applied) (holding state address) (holding next address) := by
  by_cases own : address = validator
  · subst own
    rw [moved,if_pos rfl,holding_account]
    split
    next same =>
      subst same
      exact .spent debit 0 bonded signs quiet covered (Nat.zero_le _)
    next apart => exact .gained 0 bonded (signed_apart signs apart) (by simp) ranged
  · rw [if_neg own] at moved
    exact shift_paid signs quiet covered ranged moved

theorem shift_unbonded {amount : Nat} (signs : tx.signer = some signer)
    (unbonds : tx.unbonds (loadValidator state signer).stake = some amount)
    (covered : transactionFee facts tx ≤ (loadAccount state signer).balance) (within : amount ≤ (loadValidator state signer).stake)
    (ranged : (holding state address).balance ≤ maxU128) : Shift address (.transaction facts tx .applied) (holding state address)
      (holding (unbond state signer (loadAccount state signer) (transactionFee facts tx) (loadValidator state signer)
        ⟨amount,facts.maturity⟩) address) := by
  rw [unbond,holding_store_queue,holding_commit,holding_account]
  by_cases same : address = signer
  · subst same
    rw [if_pos rfl,if_pos rfl,if_pos rfl]
    exact .unbonded amount signs unbonds covered within
  · rw [if_neg same,if_neg same,if_neg same]
    exact .same (signed_apart signs same) transaction_spares ranged

theorem shift_returned {tx : TransferTx Hash Sig}
    (covered : tx.amount + transactionFee facts (.transfer tx) ≤ (loadAccount state tx.source).balance)
    (ranged : (holding state address).balance ≤ maxU128) :
    Shift address (.transaction facts (.transfer tx) .applied) (holding state address) (holding (storeAccount state tx.source
      {spend (loadAccount state tx.source) (tx.amount + transactionFee facts (.transfer tx)) with
        balance := saturatingAdd128 ((loadAccount state tx.source).balance -
          (tx.amount + transactionFee facts (.transfer tx))) tx.amount}) address) := by
  rw [holding_account]
  split
  next own =>
    subst own
    have back : saturatingAdd128 ((loadAccount state tx.source).balance - (tx.amount + transactionFee facts (.transfer tx))) tx.amount =
        (loadAccount state tx.source).balance - (tx.amount + transactionFee facts (.transfer tx)) + tx.amount :=
      saturating_exact (by
        simp only [holding] at ranged
        omega)
    simp only [spend,back]
    exact .spent _ tx.amount 0 rfl rfl covered (Nat.le_add_right _ _)
  next apart => exact .same (signed_apart rfl apart) transaction_spares ranged

theorem transaction_shift (applied : transactionResult host facts state (transactionFee facts tx) tx = .ok next)
    (ranged : (holding state address).balance ≤ maxU128) :
    Shift address (.transaction facts tx .applied) (holding state address) (holding next address) := by
  cases transaction_effect applied with
  | returned _ covered => exact shift_returned covered ranged
  | transferred apart covered fits =>
    rw [holding_account]
    split
    next target =>
      subst target
      rw [holding_account,if_neg (Ne.symm apart)]
      exact .gained _ 0 (signed_apart rfl (Ne.symm apart)) (by simp) fits
    next other => exact shift_paid rfl rfl covered ranged rfl
  | @bonded _ _ validator bond _ _ _ _ signs quiet _ _ checked =>
    obtain ⟨rfl,rfl,covered,-,stake,-,-⟩ := check_bond_ok checked
    refine shift_bonded validator bond.amount signs quiet covered ranged ?_
    rw [recordBond,holding_insert _ id,holding_commit,stake]
  | unbonded signs unbonds _ covered within => exact shift_unbonded signs unbonds covered within ranged
  | withdrew free sum fits covered =>
    subst sum
    rw [holding_settle_withdrawal,holding_account]
    split
    next same =>
      subst same
      exact .withdrew rfl free fits covered
    next apart => exact .same (signed_apart rfl apart) transaction_spares ranged
  | @registered tx registration index covered idle =>
    refine shift_bonded tx.validator tx.depositAmount rfl rfl covered ranged ?_
    rw [holding_commit,holding_frame (store_registrations_frame _ id _),holding_account,holding_insert _ id,holding_account,idle, Nat.zero_add]
  | evidence _ => exact .same (by rintro ⟨⟩) transaction_spares ranged
  | voted signs quiet _ covered _ =>
    exact shift_paid signs quiet covered ranged (holding_frame (settle_frame _ id id id _ _) address)

theorem signed_signer {chainId : Nat} {signed : SignedTx Hash Key Sig}
    (signing : tx.signed host chainId = some signed) : tx.signer = some signed.signer := by
  cases tx <;> cases signing <;> rfl

theorem execution_shift (facts : BlockFacts Hash Key Sig) (state : State Hash Key Sig) (tally : Tally) (tx : Transaction Hash Key Sig)
    (ranged : (holding state address).balance ≤ maxU128) :
    Shift address (.transaction facts tx (fate host facts state tally tx)) (holding state address)
      (holding (executeTransaction host facts (state,tally) tx).1 address) := by
  have step := execute_ran host facts state tally tx
  generalize executeTransaction host facts (state,tally) tx = after at step
  obtain ⟨next,counted⟩ := after
  rw [fate]
  cases step with
  | skipped full =>
    rw [if_pos full]
    exact .same nofun nofun ranged
  | succeeded fits applied =>
    rw [if_neg (Nat.not_lt.mpr fits),applied]
    exact transaction_shift applied ranged
  | @failed failure fits refused =>
    rw [if_neg (Nat.not_lt.mpr fits),refused]
    simp only
    cases charges : txChargesFee tx with
    | false =>
      cases failure.payer <;> exact .same nofun transaction_spares ranged
    | true =>
      cases blamed : failure.payer with
      | none => exact .same nofun transaction_spares ranged
      | some payer =>
        obtain ⟨signed,authorized⟩ := failure_authorized refused blamed
        have signs : tx.signer = some payer := authorized.signer ▸ signed_signer authorized.signing
        simp only [chargePayer,if_true,chargeFailure,Option.elim]
        rw [holding_account]
        split
        next same =>
          subst same
          exact .spent _ 0 0 signs rfl (Nat.min_le_right _ _) (Nat.zero_le _)
        next apart => exact .same (signed_apart signs apart) transaction_spares ranged

theorem deduction_holding {offender : Hash} {amount burned : Nat} (applied : applyDeduction state offender amount = .ok (burned,next))
    (address : Hash) : burned ≤ saturatingAdd128 (holding state offender).stake (withdrawalTotal (holding state offender).queue) ∧
    holding next address = if address = offender then {holding state address with
        stake := (holding state address).stake - min (holding state address).stake burned
        row := burnedRow (holding state address).row (burned - min (holding state address).stake burned)}
      else holding state address := by
  simp only [applyDeduction,bind_ok,ensure_ok,pure_ok,Prod.mk.injEq] at applied
  obtain ⟨_,-,rfl,rfl⟩ := applied
  refine ⟨Nat.min_le_left _ _,?_⟩
  generalize min (saturatingAdd128 _ _) amount = burned
  by_cases own : address = offender
  · subst own
    rw [if_pos rfl]
    by_cases burns : 0 < burned - min (loadValidator state address).stake burned ∧ loadWithdrawalQueue state address ≠ []
    · have row : burnedRow (holding state address).row (burned - min (holding state address).stake burned) =
          storedRow (burnQueue (loadWithdrawalQueue state address) (burned - min (loadValidator state address).stake burned)) :=
        if_pos burns
      rw [if_pos burns,holding_burned_queue,if_pos rfl,holding_commit,if_pos rfl,row]
      rfl
    · have row : burnedRow (holding state address).row (burned - min (holding state address).stake burned) = (holding state address).row :=
        if_neg burns
      rw [if_neg burns,holding_commit,if_pos rfl,row]
      rfl
  · rw [if_neg own]
    split
    · rw [holding_burned_queue,if_neg own,holding_commit,if_neg own]
    · rw [holding_commit,if_neg own]

theorem reward_holding {item : PendingSanction Hash Key} {deducted rewarded : Nat}
    (paid : rewardReporter state item deducted = .ok (rewarded,next)) (ranged : (holding state address).balance ≤ maxU128) :
    ∃ reward, (holding state address).balance + reward ≤ maxU128 ∧
      holding next address = {holding state address with balance := (holding state address).balance + reward} := by
  unfold rewardReporter at paid
  split at paid
  · obtain ⟨-,-,-,⟨rfl,-⟩ | ⟨account,rfl,room,rfl⟩⟩ := credit_reporter_ok paid
    · exact ⟨0,ranged,rfl⟩
    · rw [holding_account]
      split
      next same =>
        subst same
        refine ⟨rewarded,?_,rfl⟩
        simp only [holding] at ranged ⊢
        omega
      next => exact ⟨0,ranged,rfl⟩
  · cases paid
    exact ⟨0,ranged,rfl⟩

theorem sanction_shift {totals after : SettlementTotals} {item : PendingSanction Hash Key} {done : Execution Hash Key}
    (executed : executePending state totals item = .ok (done,after,next)) (ranged : (holding state address).balance ≤ maxU128) :
    Shift address (.sanction done : Act Hash Key Sig) (holding state address) (holding next address) := by
  simp only [executePending,bind_ok,pure_ok,Prod.mk.injEq] at executed
  obtain ⟨⟨_,middle⟩,deducted,_,-,rfl,-,rfl⟩ := executed
  have inert : Frame (¬Valued ·) middle (writeMarker middle item.sanction 1) :=
    (write_marker_frame middle item.sanction 1).widen fun key marker => by cases key <;> simp_all [IsMarker,Valued]
  rw [holding_frame inert]
  unfold deduct at deducted
  split at deducted
  · rename_i burned taken applied
    simp only [bind_ok,pure_ok,Prod.mk.injEq] at deducted
    obtain ⟨⟨rewarded,paid⟩,rewards,rfl,rfl⟩ := deducted
    obtain ⟨within,moved⟩ := deduction_holding applied address
    have balance : (holding taken address).balance = (holding state address).balance := by
      rw [moved]
      split <;> rfl
    obtain ⟨reward,fits,rewarded⟩ := reward_holding rewards (balance ▸ ranged)
    rw [balance] at fits rewarded
    rw [rewarded,moved]
    split
    next same =>
      subst same
      exact .deducted reward rfl within fits
    next apart =>
      refine .gained reward 0 (by rintro ⟨⟩) (fun done runs => ⟨rfl,fun names => ?_⟩) fits
      cases runs
      exact absurd names.symm apart
  · cases deducted
    refine .same (by rintro ⟨⟩) (fun done runs _ => ?_) ranged
    cases runs
    rfl
  · cases deducted

theorem fees_shift (state : State Hash Key Sig) (proposer : Hash) (amount : Nat) (ranged : (holding state address).balance ≤ maxU128) :
    Shift address (.fees proposer amount : Act Hash Key Sig) (holding state address) (holding (creditProposer state proposer amount) address) := by
  rw [creditProposer]
  split
  · exact .same (by rintro ⟨⟩) (by simp) ranged
  · rw [holding_account]
    split
    next same =>
      subst same
      have credited : saturatingAdd128 (loadAccount state address).balance amount =
          (loadAccount state address).balance + min amount (maxU128 - (loadAccount state address).balance) := by
        simp only [holding] at ranged
        simp only [saturatingAdd128]
        omega
      simp only [credited]
      refine .gained (min amount (maxU128 - (loadAccount state address).balance)) 0 (by rintro ⟨⟩) (by simp) ?_
      simp only [holding] at ranged ⊢
      omega
    next => exact .same (by rintro ⟨⟩) (by simp) ranged

theorem moment_shift {moment : Moment Hash Key Sig} (happens : Happens host moment)
    (ranged : (holding moment.before address).balance ≤ maxU128) :
    Shift address moment.event (holding moment.before address) (holding moment.after address) := by
  cases happens with
  | upkeep frame =>
    simp only [holding_frame frame]
    exact .same nofun nofun ranged
  | sanction executed => exact sanction_shift executed ranged
  | transaction facts before tally tx => exact execution_shift facts before tally tx ranged
  | fees before proposer amount => exact fees_shift before proposer amount ranged

theorem Shift.ranged {event : Act Hash Key Sig} {before after : Holding} (shift : Shift address event before after)
    (ranged : before.balance ≤ maxU128) : after.balance ≤ maxU128 := by
  cases shift with
  | gained more bonded apart spared fits => exact fits
  | spent debit refund bonded signs quiet covered refunds | unbonded amount signs unbonds covered within | withdrew signs free fits covered =>
    simp only
    omega
  | deducted reward names within fits => exact fits

def Ranged (state : State Hash Key Sig) : Prop := ∀ address, (holding state address).balance ≤ maxU128

theorem occurs_ranged {moment : Moment Hash Key Sig} (step : Occurs host state moment next) (ranged : Ranged state) : Ranged next := by
  obtain ⟨rfl,happens,rfl⟩ := step
  exact fun address => (moment_shift happens (ranged address)).ranged (ranged address)
end Neutrino.Runtime
