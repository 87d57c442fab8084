import Neutrino.Runtime.Settlement

-- Conservation: accounts, stakes and withdrawals only shrink by what sanctions burn.
namespace Neutrino.Runtime
open Checks Consensus Chain Ledger
open List (map_cons sum_cons foldl_cons map_nil sum_nil)

section
variable {Hash Key Sig : Type} [LinearOrder Hash] [DecidableEq Key]

def queueSum (queue : List Withdrawal) : Nat := (queue.map (·.amount)).sum

def worth : (key : StateKey Hash Key) → Row Hash Key Sig key → Nat
  | .account _,(account : Account) => account.balance
  | .validator _,(validator : RuntimeValidator) => validator.stake
  | .withdrawal _,(queue : List Withdrawal) => queueSum queue
  | _,_ => 0

def wealth (state : State Hash Key Sig) : Nat := total worth state

def Valued : StateKey Hash Key → Prop
  | .account _ | .validator _ | .withdrawal _ => True
  | _ => False

variable (state : State Hash Key Sig)

theorem worth_inert (inert : ¬Valued key) (row : Row Hash Key Sig key) : worth key row = 0 := by
  cases key <;> first | rfl | exact absurd trivial inert

variable {state} in
theorem wealth_frame (frame : Frame (¬Valued ·) state next) : wealth next = wealth state :=
  total_frame worth (fun _ row inert => worth_inert inert row) frame

theorem wealth_insert (inert : ¬Valued key) (row : Row Hash Key Sig key) : wealth (state.insert key row) = wealth state :=
  wealth_frame ((Frame.refl state).insert key inert row)

section
variable (address : Hash)
include address

theorem held_account : held worth state (.account address) = (loadAccount state address).balance := by
  rw [held,loadAccount]
  cases state.lookup (.account address) <;> rfl

theorem held_validator : held worth state (.validator address) = (loadValidator state address).stake := by
  rw [held,loadValidator,loadValidatorRecord]
  cases state.lookup (.validator address) <;> rfl

theorem held_withdrawal : held worth state (.withdrawal address) = queueSum (loadWithdrawalQueue state address) := by
  rw [held,loadWithdrawalQueue]
  cases state.lookup (.withdrawal address) <;> rfl

theorem wealth_account (account : Account) :
    wealth (storeAccount state address account) + (loadAccount state address).balance = wealth state + account.balance := by
  rw [← held_account]
  exact total_insert worth state (.account address) account

theorem wealth_withdrawal (queue : List Withdrawal) :
    wealth (storeWithdrawalQueue state address queue) + queueSum (loadWithdrawalQueue state address) = wealth state + queueSum queue := by
  rw [← held_withdrawal]
  exact total_insert worth state (.withdrawal address) queue

theorem balance_le : (loadAccount state address).balance ≤ wealth state := by
  rw [← held_account]
  exact held_le_total worth state _

theorem held_queue_le (apart : StateKey.withdrawal address ≠ key) :
    held worth state key + queueSum (loadWithdrawalQueue state address) ≤ wealth state := by
  have moved := total_erase worth state key
  have rest := held_le_total worth (state.erase key) (.withdrawal address)
  rw [held,AList.lookup_erase_ne apart,← held,held_withdrawal] at rest
  rw [wealth]
  omega

theorem bond_le : (loadValidator state address).stake + queueSum (loadWithdrawalQueue state address) ≤ wealth state := by
  rw [← held_validator]
  apply held_queue_le
  simp

theorem wealth_commit (validator : RuntimeValidator) :
    wealth (commitValidator state address validator) + (loadValidator state address).stake = wealth state + validator.stake := by
  rw [commitValidator,wealth_frame (sync_frame _ id _ _),storeValidatorSet,wealth_insert _ id]
  rw [← held_validator]
  exact total_insert worth state (.validator address) validator
end

theorem commit_lookup {address : Hash} {validator : RuntimeValidator} (other : key ≠ .validator address)
    (notSet : key ≠ .validatorSet) (notCandidates : key ≠ .consensusCandidates) :
    (commitValidator state address validator).lookup key = state.lookup key := by
  have synced (before : State Hash Key Sig) : Frame (Eq .consensusCandidates) before (syncConsensusCandidate before address (some validator)) :=
    sync_frame before rfl address (some validator)
  rw [commitValidator,synced _ key notCandidates.symm,storeValidatorSet,AList.lookup_insert_ne notSet,storeValidator,AList.lookup_insert_ne other]

theorem commit_withdrawals (address other : Hash) (validator : RuntimeValidator) :
    loadWithdrawalQueue (commitValidator state address validator) other = loadWithdrawalQueue state other := by
  rw [loadWithdrawalQueue,commit_lookup state (by simp) (by simp) (by simp),loadWithdrawalQueue]

theorem wealth_retire (address : Hash) :
    wealth (retireValidator state address) + (loadValidator state address).stake + queueSum (loadWithdrawalQueue state address) =
      wealth state := by
  rw [retireValidator,wealth_frame (sync_frame _ id _ _),wealth_frame (drop_registration_frame _ id id),
    wealth_frame ((Frame.refl _).erase (.bonding address) id)]
  have first := total_erase worth state (.validator address)
  have second := total_erase worth (state.erase (.validator address)) (.withdrawal address)
  rw [held_validator] at first
  rw [held,AList.lookup_erase_ne (by simp),← held,held_withdrawal] at second
  simp only [wealth]
  omega

theorem wealth_erase_withdrawal (address : Hash) :
    wealth (state.erase (.withdrawal address)) + queueSum (loadWithdrawalQueue state address) = wealth state := by
  rw [← held_withdrawal]
  exact total_erase worth state (.withdrawal address)
end
section
theorem saturating_exact {left right : Nat} (fits : left + right ≤ maxU128) : saturatingAdd128 left right = left + right :=
  Nat.min_eq_left fits

theorem withdrawal_total_exact {initial : Nat} (fits : initial + queueSum queue ≤ maxU128) :
    queue.foldl (fun total entry => saturatingAdd128 total entry.amount) initial = initial + queueSum queue := by
  induction queue generalizing initial with
  | nil => rfl
  | cons entry rest ih =>
    simp only [queueSum,map_cons,sum_cons] at fits
    rw [foldl_cons,saturating_exact (by omega),ih (by simp only [queueSum]; omega)]
    simp only [queueSum,map_cons,sum_cons]
    omega

theorem matured_total_exact {height initial : Nat} (fits : initial + queueSum queue ≤ maxU128) : queue.foldl (fun matured entry =>
      if entry.matureAtHeight ≤ height then saturatingAdd128 matured entry.amount else matured) initial +
      queueSum (queue.filter fun entry => !decide (entry.matureAtHeight ≤ height)) = initial + queueSum queue := by
  induction queue generalizing initial with
  | nil => rfl
  | cons entry rest ih =>
    simp only [queueSum,map_cons,sum_cons] at fits ih ⊢
    rw [foldl_cons]
    by_cases mature : entry.matureAtHeight ≤ height
    · rw [if_pos mature,List.filter_cons_of_neg (by simpa using mature),saturating_exact (by omega),ih (by omega)]
      omega
    · rw [if_neg mature,List.filter_cons_of_pos (by simpa using mature),map_cons,sum_cons]
      have later := @ih initial (by omega)
      omega

theorem withdrawn_split (queue : List Withdrawal) (height : Nat) (fits : queueSum queue ≤ maxU128) :
    maturedTotal queue height + queueSum (queue.filter fun entry => !decide (entry.matureAtHeight ≤ height)) = queueSum queue := by
  have split := @matured_total_exact queue height 0 (by omega)
  rwa [Nat.zero_add] at split

theorem queue_withdrawal_sum {withdrawal : Withdrawal} (fits : queueSum queue + withdrawal.amount ≤ maxU128) :
    queueSum (queueWithdrawal queue withdrawal) = queueSum queue + withdrawal.amount := by
  rcases List.eq_nil_or_concat queue with rfl | ⟨earlier,last,rfl⟩
  · simp [queueWithdrawal,queueSum]
  · rw [List.concat_eq_append] at fits ⊢
    simp only [queueSum,List.map_append,map_cons,map_nil,List.sum_append,List.sum_singleton] at fits
    simp only [queueWithdrawal,List.getLast?_append,List.getLast?_singleton,Option.some_or]
    split
    · simp only [queueSum,List.dropLast_concat,List.map_append,map_cons,map_nil,List.sum_append,List.sum_singleton]
      rw [saturating_exact (by omega)]
      omega
    · simp [queueSum,Nat.add_assoc]

theorem burn_queue_sum {remaining : Nat} (covered : remaining ≤ queueSum queue) :
    queueSum (burnQueue queue remaining) + remaining = queueSum queue := by
  induction queue generalizing remaining with
  | nil =>
    simp only [queueSum,map_nil,sum_nil] at covered
    simp only [burnQueue,queueSum,map_nil,sum_nil]
    omega
  | cons entry rest ih =>
    simp only [queueSum,map_cons,sum_cons] at covered ih ⊢
    rw [burnQueue]
    split
    · simp only [map_cons,sum_cons]
      omega
    · split
      · have later := @ih (remaining - entry.amount) (by omega)
        omega
      · simp only [map_cons,sum_cons]
        omega
end
section
variable {Hash Key Sig : Type} [LinearOrder Hash] [DecidableEq Key] {host : Host Hash Key Sig}
variable {state next : State Hash Key Sig} {fee : Nat}

theorem load_validator_account (payer address : Hash) (account : Account) :
    loadValidator (storeAccount state payer account) address = loadValidator state address := by
  rw [loadValidator,loadValidatorRecord,storeAccount,AList.lookup_insert_ne (by simp)]
  rfl

theorem load_withdrawal_account (payer address : Hash) (account : Account) :
    loadWithdrawalQueue (storeAccount state payer account) address = loadWithdrawalQueue state address := by
  rw [loadWithdrawalQueue,storeAccount,AList.lookup_insert_ne (by simp)]
  rfl

theorem load_account_other {payer address : Hash} (apart : address ≠ payer) (account : Account) :
    loadAccount (storeAccount state payer account) address = loadAccount state address := by
  rw [loadAccount,storeAccount,AList.lookup_insert_ne (by simpa using apart)]
  rfl

theorem wealth_spend {payer : Hash} {debit : Nat} (covered : debit ≤ (loadAccount state payer).balance) :
    wealth (storeAccount state payer (spend (loadAccount state payer) debit)) + debit = wealth state := by
  have moved := wealth_account state payer (spend (loadAccount state payer) debit)
  simp only [spend] at moved ⊢
  omega

theorem wealth_bond {funder validator : Hash} {bond : Bond} {account : Account} {debit height : Nat} {bonded : RuntimeValidator}
    (checked : checkBond state funder validator bond = .ok (account,debit,bonded)) :
    wealth (recordBond (commitValidator (storeAccount state funder (spend account debit)) validator bonded) validator bond.amount
      height) + bond.fee = wealth state := by
  obtain ⟨rfl,rfl,covered,-,stake,-,-⟩ := check_bond_ok checked
  have paid := wealth_spend covered
  have moved := wealth_commit (storeAccount state funder (spend (loadAccount state funder) (bond.amount + bond.fee))) validator bonded
  rw [load_validator_account,stake] at moved
  rw [recordBond,wealth_insert _ (by simp [Valued])]
  omega

theorem wealth_unbond {address : Hash} {withdrawal : Withdrawal} (bounded : wealth state ≤ maxU128)
    (covered : fee ≤ (loadAccount state address).balance) (bonded : withdrawal.amount ≤ (loadValidator state address).stake) :
    wealth (unbond state address (loadAccount state address) fee (loadValidator state address) withdrawal) + fee = wealth state := by
  have paid := wealth_spend covered
  have room := bond_le state address
  have sum := queue_withdrawal_sum (show queueSum (loadWithdrawalQueue state address) + withdrawal.amount ≤ maxU128 by omega)
  simp only [unbond]
  generalize left : (loadValidator state address).stake - withdrawal.amount = stake
  have committed := wealth_commit (storeAccount state address (spend (loadAccount state address) fee)) address ⟨stake,decide (0 < stake)⟩
  have queued := wealth_withdrawal (commitValidator (storeAccount state address (spend (loadAccount state address) fee)) address
    ⟨stake,decide (0 < stake)⟩) address (queueWithdrawal (loadWithdrawalQueue state address) withdrawal)
  rw [load_validator_account] at committed
  rw [commit_withdrawals,load_withdrawal_account,sum] at queued
  simp only at committed
  omega

theorem wealth_settle_withdrawal (state : State Hash Key Sig) (address : Hash) (queue : List Withdrawal) :
    wealth (settleWithdrawal state address queue) + queueSum (loadWithdrawalQueue state address) = wealth state + queueSum queue := by
  rw [settleWithdrawal]
  split
  · exact wealth_withdrawal state address queue
  · rename_i empty
    rw [not_not.mp empty]
    split
    · rename_i idle
      have retired := wealth_retire state address
      rw [idle.1] at retired
      exact retired
    · exact wealth_erase_withdrawal state address

theorem wealth_register {tx : RegisterValidatorTx Hash Key Sig} {registration : ValidatorRegistration Hash Key Sig}
    {index : AddressIndex Hash} (covered : tx.depositAmount + fee ≤ (loadAccount state tx.depositor).balance)
    (idle : (loadValidator state tx.validator).stake = 0) :
    wealth (commitValidator (storeValidatorRegistrations (storeAccount (state.insert (.registration tx.validator) registration)
      tx.depositor (spend (loadAccount state tx.depositor) (tx.depositAmount + fee))) index) tx.validator
        ⟨tx.depositAmount,true⟩) + fee = wealth state := by
  generalize registers : state.insert (.registration tx.validator) registration = registered
  have same : wealth registered = wealth state ∧ loadAccount registered tx.depositor = loadAccount state tx.depositor ∧
      loadValidator registered tx.validator = loadValidator state tx.validator := by
    rw [← registers]
    refine ⟨wealth_insert state (by simp [Valued]) _,?_,?_⟩
    · rw [loadAccount,AList.lookup_insert_ne (by simp),loadAccount]
    · rw [loadValidator,loadValidatorRecord,AList.lookup_insert_ne (by simp),loadValidator,loadValidatorRecord]
  rw [← same.2.1] at covered ⊢
  have paid := wealth_spend covered
  generalize charge : storeAccount registered tx.depositor
    (spend (loadAccount registered tx.depositor) (tx.depositAmount + fee)) = charged at paid ⊢
  have kept : loadValidator (storeValidatorRegistrations charged index) tx.validator = loadValidator state tx.validator := by
    have listed : (storeValidatorRegistrations charged index).lookup (.validator tx.validator) =
        charged.lookup (.validator tx.validator) := by
      have frame : Frame (Eq .validatorRegistrations) charged (storeValidatorRegistrations charged index) :=
        store_registrations_frame charged rfl index
      exact frame _ (by simp)
    rw [loadValidator,loadValidatorRecord,listed,← loadValidatorRecord,← loadValidator,← charge,load_validator_account,same.2.2]
  have moved := wealth_commit (storeValidatorRegistrations charged index) tx.validator ⟨tx.depositAmount,true⟩
  rw [kept,idle,wealth_frame (store_registrations_frame charged id index)] at moved
  simp only at moved
  omega

theorem transaction_wealth {tx : Transaction Hash Key Sig} (bounded : wealth state ≤ maxU128)
    (applied : transactionResult host facts state fee tx = .ok next) :
    wealth next + (if txChargesFee tx then fee else 0) = wealth state := by
  cases transaction_effect applied with
  | @returned tx _ covered =>
    have own := balance_le state tx.source
    have moved := wealth_account state tx.source {spend (loadAccount state tx.source) (tx.amount + fee) with
      balance := saturatingAdd128 ((loadAccount state tx.source).balance - (tx.amount + fee)) tx.amount}
    rw [saturating_exact (by omega)] at moved
    simp only [txChargesFee,if_true,spend] at moved ⊢
    rw [saturating_exact (by omega)]
    omega
  | @transferred tx apart covered =>
    have paid := wealth_spend covered
    have moved := wealth_account (storeAccount state tx.source (spend (loadAccount state tx.source) (tx.amount + fee))) tx.target
      {loadAccount state tx.target with balance := (loadAccount state tx.target).balance + tx.amount}
    rw [load_account_other (Ne.symm apart)] at moved
    simp only [txChargesFee,if_true] at moved ⊢
    omega
  | bonded _ _ _ charges own checked =>
    rw [if_pos charges,← own]
    exact wealth_bond checked
  | unbonded _ _ charges covered within =>
    rw [if_pos charges]
    exact wealth_unbond bounded covered within
  | @withdrew tx credited _ sum _ covered =>
    have room := bond_le state tx.validator
    have matured := withdrawn_split (loadWithdrawalQueue state tx.validator) facts.input.blockHeight (by omega)
    have settled := wealth_settle_withdrawal (storeAccount state tx.validator
      ⟨saturatingAdd (loadAccount state tx.validator).nonce 1,credited - fee⟩) tx.validator
      ((loadWithdrawalQueue state tx.validator).filter fun entry => !decide (entry.matureAtHeight ≤ facts.input.blockHeight))
    have paid := wealth_account state tx.validator ⟨saturatingAdd (loadAccount state tx.validator).nonce 1,credited - fee⟩
    rw [load_withdrawal_account] at settled
    simp only [txChargesFee,if_true] at paid ⊢
    omega
  | registered _ _ covered idle => exact wealth_register covered idle
  | evidence _ => rfl
  | voted _ _ charges covered _ =>
    rw [if_pos charges,wealth_frame (settle_frame _ id id id _ _)]
    exact wealth_spend covered

theorem charge_payer_wealth (state : State Hash Key Sig) (fee : Nat) (chargesFee : Bool) (payer : Option Hash) :
    wealth (chargePayer state chargesFee fee payer).2 + (chargePayer state chargesFee fee payer).1 = wealth state := by
  cases payer with
  | none => rfl
  | some payer =>
    rw [chargePayer]
    split
    · exact wealth_spend (Nat.min_le_right _ _)
    · rfl

theorem execute_transaction_wealth {tally : Tally} {amount : Nat} (bounded : amount ≤ maxU128)
    (balanced : wealth state + tally.proposerFee = amount) (tx : Transaction Hash Key Sig) :
    wealth (executeTransaction host facts (state,tally) tx).1 +
      (executeTransaction host facts (state,tally) tx).2.proposerFee = amount := by
  have step := execute_ran host facts state tally tx
  generalize executeTransaction host facts (state,tally) tx = after at step ⊢
  obtain ⟨next,counted⟩ := after
  cases step with
  | skipped => exact balanced
  | succeeded _ applied =>
    have moved := transaction_wealth (by omega) applied
    dsimp only at moved ⊢
    split at moved
    · rename_i charges
      rw [if_pos charges,saturating_exact (by omega)]
      omega
    · rename_i free
      rw [if_neg free]
      omega
  | @failed failure =>
    have moved := charge_payer_wealth state (transactionFee facts tx) (txChargesFee tx) failure.payer
    generalize chargePayer state (txChargesFee tx) (transactionFee facts tx) failure.payer = charge at moved ⊢
    change wealth charge.2 + saturatingAdd128 tally.proposerFee charge.1 = amount
    rw [saturating_exact (by omega)]
    omega

theorem execute_transactions_wealth (host : Host Hash Key Sig) (facts : BlockFacts Hash Key Sig) (state : State Hash Key Sig)
    (tally : Tally) {amount : Nat} (bounded : amount ≤ maxU128) (balanced : wealth state + tally.proposerFee = amount) :
    wealth (executeTransactions host facts state tally).1 + (executeTransactions host facts state tally).2.proposerFee = amount := by
  rw [executeTransactions]
  induction facts.input.transactions generalizing state tally with
  | nil => exact balanced
  | cons tx rest ih => exact ih _ _ (execute_transaction_wealth bounded balanced tx)

theorem credit_proposer_wealth {proposer : Hash} (bounded : wealth state + fee ≤ maxU128) :
    wealth (creditProposer state proposer fee) = wealth state + fee := by
  rw [creditProposer]
  split
  · rename_i free
    rw [free]
    rfl
  · have own := balance_le state proposer
    have moved := wealth_account state proposer {loadAccount state proposer with
      balance := saturatingAdd128 (loadAccount state proposer).balance fee}
    simp only at moved ⊢
    rw [saturating_exact (by omega)] at moved ⊢
    omega

theorem expire_wealth (chunk : Nat) : wealth (expire state chunk) = wealth state := by
  refine wealth_frame ((expire_frame state chunk).widen fun key scheduled => ?_)
  cases key <;> simp_all [Scheduling,Valued]

theorem ordinary_wealth (host : Host Hash Key Sig) (input : StfInput Hash Key Sig) (policy : RuntimePolicy)
    (mandatory : Mandatory Hash Key Sig) (bounded : wealth mandatory.state ≤ maxU128) :
    wealth (applyOrdinary host input policy mandatory).1 = wealth mandatory.state := by
  have executed := execute_transactions_wealth host (blockFacts input policy mandatory.queue)
    (expire mandatory.state input.evidenceAnchor.chunkId) ⟨0,0,mandatory.gas,0,mandatory.executed.map sanctionReceipt⟩
    bounded (expire_wealth _)
  simp only [applyOrdinary]
  rw [credit_proposer_wealth (by omega)]
  exact executed
end
section
variable {Hash Key Sig : Type} [LinearOrder Hash] [DecidableEq Key] {state next : State Hash Key Sig}

theorem wealth_burned_queue (state : State Hash Key Sig) (address : Hash) (queue : List Withdrawal) :
    wealth (storeBurnedQueue state address queue) + queueSum (loadWithdrawalQueue state address) = wealth state + queueSum queue := by
  rw [storeBurnedQueue]
  split
  · rename_i empty
    rw [empty]
    exact wealth_erase_withdrawal state address
  · exact wealth_withdrawal state address queue

theorem deduction_wealth {address : Hash} {amount deducted : Nat} (bounded : wealth state ≤ maxU128)
    (applied : applyDeduction state address amount = .ok (deducted,next)) : wealth next + deducted = wealth state := by
  have room := bond_le state address
  have queueTotal : withdrawalTotal (loadWithdrawalQueue state address) = queueSum (loadWithdrawalQueue state address) := by
    have precise := @withdrawal_total_exact (loadWithdrawalQueue state address) 0 (by omega)
    rwa [Nat.zero_add] at precise
  simp only [applyDeduction,bind_ok,ensure_ok,pure_ok,Prod.mk.injEq,queueTotal,saturating_exact (Nat.le_trans room bounded)] at applied
  obtain ⟨_,-,rfl,rfl⟩ := applied
  generalize burns : min ((loadValidator state address).stake + queueSum (loadWithdrawalQueue state address)) amount = burn
  generalize left : (loadValidator state address).stake - min (loadValidator state address).stake burn = stake
  have committed := wealth_commit state address ⟨stake,decide (0 < stake)⟩
  simp only at committed
  split
  · have burned := @burn_queue_sum (loadWithdrawalQueue state address) (burn - min (loadValidator state address).stake burn) (by omega)
    have stored := wealth_burned_queue (commitValidator state address ⟨stake,decide (0 < stake)⟩) address
      (burnQueue (loadWithdrawalQueue state address) (burn - min (loadValidator state address).stake burn))
    rw [commit_withdrawals] at stored
    omega
  · rename_i kept
    have nothing : burn - min (loadValidator state address).stake burn = 0 := by
      by_contra positive
      refine kept ⟨Nat.pos_of_ne_zero positive,fun empty => ?_⟩
      rw [empty] at burns
      simp only [queueSum,map_nil,sum_nil] at burns
      omega
    omega

theorem credit_reporter_wealth {reporter : Hash} {deducted bps rewarded : Nat}
    (credited : creditReporter state reporter deducted bps = .ok (rewarded,next)) : wealth next = wealth state + rewarded := by
  obtain ⟨-,-,-,⟨rfl,rfl⟩ | ⟨_,rfl,-,rfl⟩⟩ := credit_reporter_ok credited
  · rfl
  · have moved := wealth_account state reporter {loadAccount state reporter with balance := (loadAccount state reporter).balance + rewarded}
    simp only at moved
    omega

theorem deduct_wealth {item : PendingSanction Hash Key} {done : Execution Hash Key} (bounded : wealth state ≤ maxU128)
    (executed : deduct state item = .ok (done,next)) : wealth next + done.deducted = wealth state + done.rewarded := by
  unfold deduct at executed
  split at executed
  · rename_i burned middle applied
    simp only [bind_ok,pure_ok,Prod.mk.injEq] at executed
    obtain ⟨⟨rewarded,paid⟩,rewards,rfl,rfl⟩ := executed
    have taken := deduction_wealth bounded applied
    unfold rewardReporter at rewards
    split at rewards
    · have credited := credit_reporter_wealth rewards
      simp only
      omega
    · cases rewards
      exact taken
  · cases executed
    rfl
  · cases executed

theorem write_marker_wealth (state : State Hash Key Sig) (sanction : Sanction Hash Key) (byte : Nat) :
    wealth (writeMarker state sanction byte) = wealth state := by
  refine wealth_frame ((write_marker_frame state sanction byte).widen fun key marker => ?_)
  cases key <;> simp_all [IsMarker,Valued]

def burnedBy (executed : List (Execution Hash Key)) : Nat := (executed.map fun execution => execution.deducted - execution.rewarded).sum

theorem execute_all_wealth {totals after : SettlementTotals} {items : List (PendingSanction Hash Key)}
    {executed : List (Execution Hash Key)} (bounded : wealth state ≤ maxU128)
    (run : executeAll state totals items = .ok (executed,after,next)) : wealth next + burnedBy executed = wealth state := by
  induction items generalizing state totals executed with
  | nil =>
    cases run
    rfl
  | cons item rest ih =>
    simp only [executeAll,bind_ok,pure_ok,Prod.mk.injEq] at run
    obtain ⟨⟨first,_,middle⟩,one,⟨later,_,_⟩,tail,rfl,rfl,rfl⟩ := run
    have paid := (execute_pending_ok one).2.1
    simp only [executePending,bind_ok,pure_ok,Prod.mk.injEq] at one
    obtain ⟨⟨_,deducted⟩,taken,_,-,rfl,rfl,rfl⟩ := one
    have moved := deduct_wealth bounded taken
    have marked := write_marker_wealth deducted item.sanction 1
    simp only at paid moved tail
    have rest := ih (by omega) tail
    simp only [burnedBy,map_cons,sum_cons] at rest ⊢
    omega

theorem sweep_wealth (sound : BucketsSound state) (height retention : Nat) :
    wealth (sweepExpiredMarkers state height retention) = wealth state := by
  have frame : Frame (Sweeps state height retention) state (sweepExpiredMarkers state height retention) := fun _ => sweep_kept
  refine wealth_frame (frame.widen fun key swept => ?_)
  obtain ⟨expired,keys,_,found,listed | rfl⟩ := swept
  · obtain ⟨id,rfl⟩ := sound expired keys found key listed
    simp [Valued]
  · simp [Valued]

theorem participation_wealth (report : Option (ParticipationReport Hash)) : wealth (applyParticipation state report) = wealth state := by
  refine wealth_frame ((participation_frame report).widen fun key reported => ?_)
  cases key <;> simp_all [Participates,Valued]

theorem buckets_sound_participation (sound : BucketsSound state) (report : Option (ParticipationReport Hash)) :
    BucketsSound (applyParticipation state report) := by
  intro height keys found
  have same : bucket (applyParticipation state report) height = bucket state height := participation_lookup (by simp [Participates])
  exact sound height keys (same ▸ found)

theorem admission_wealth (input : StfInput Hash Key Sig) (sound : BucketsSound state) (policy : RuntimePolicy)
    (admitted : List (Sanction Hash Key)) : wealth (admissionState input state policy admitted) = wealth state := by
  rw [admissionState,wealth_frame ((record_bucket_frame _ _ _).widen fun key here => by simp [here,Valued]),enqueueAdmissions,
    wealth_frame ((write_markers_frame _ _).widen fun key marker => ?_),sweptState,sweep_wealth sound]
  cases key <;> simp_all [IsMarker,Valued]

theorem phase_wealth {input : StfInput Hash Key Sig} {policy : RuntimePolicy} {result : Mandatory Hash Key Sig} {totals : SettlementTotals}
    {after : State Hash Key Sig} (run : MandatoryRun host input state policy result totals after) : wealth result.state = wealth after := by
  rw [run.state,wealth_frame ((store_queue_frame _ _).widen fun key here => by simp [here,Valued]),
    wealth_frame ((store_totals_frame _ _ _).widen fun key here => by simp [here,Valued])]

theorem block_wealth {input : StfInput Hash Key Sig} {output : BlockOutput Hash Key Sig} (sound : BucketsSound state)
    (bounded : wealth state ≤ maxU128) (done : applyBlock host input state = .ok output) :
    wealth output.state + burnedBy output.mandatory.executed = wealth state := by
  obtain ⟨-,⟨totals,after,run⟩,ordinary⟩ := apply_block_ok done
  have opened := admission_wealth input (buckets_sound_participation sound input.participation)
    (loadRuntimePolicy state) output.mandatory.admitted
  rw [participation_wealth] at opened
  have executed := execute_all_wealth (by omega) run.executed
  have stored := phase_wealth run
  have final := ordinary_wealth host input (loadRuntimePolicy state) output.mandatory (by omega)
  rw [ordinary] at final
  simp only at final
  omega

theorem tokens_conserved {input : StfInput Hash Key Sig} {output : BlockOutput Hash Key Sig} (sound : BucketsSound state)
    (bounded : wealth state ≤ maxU128) (done : applyBlock host input state = .ok output) :
    wealth output.state = wealth state - burnedBy output.mandatory.executed ∧ burnedBy output.mandatory.executed ≤ wealth state := by
  have balanced := block_wealth sound bounded done
  constructor <;> omega

theorem burned_by_kind (executed : List (Execution Hash Key)) :
    burnedBy executed = burnedBy (ofKind .slash executed) + burnedBy (ofKind .inactivity executed) := by
  induction executed with
  | nil => rfl
  | cons execution rest ih =>
    simp only [burnedBy,ofKind,map_cons,sum_cons,List.filter_cons] at ih ⊢
    cases execution.item.sanction.kind <;> simp <;> omega

-- The state's own counters account for all that left the supply.
theorem supply_audited {host : Host Hash Key Sig} (injective : Function.Injective host.queueCommitment) (genesis : Unburdened start)
    (bounded : wealth start ≤ maxU128) (run : Runs (Completes host) start blocks final) :
    wealth final + burnedBy (executions blocks) = wealth start ∧
    ((loadTotals final).slash.burned.overflowed = false → (loadTotals final).inactivity.burned.overflowed = false →
      wealth final + (loadTotals final).slash.burned.value + (loadTotals final).inactivity.burned.value = wealth start) := by
  have balanced : wealth final + burnedBy (executions blocks) = wealth start := by
    refine run.invariant (fun blocks state => wealth state + burnedBy (executions blocks) = wealth start) rfl ?_
    intro earlier middle block after prior held step
    have sound := (settled_run injective genesis prior).sound
    have burned := block_wealth sound (by omega) step.completed
    rw [executions_append,burnedBy,List.map_append,List.sum_append,step.result]
    simp only [executions,List.flatMap_singleton,Executed.executed,burnedBy] at held burned ⊢
    omega
  refine ⟨balanced,fun slashes absences => ?_⟩
  have counts := (settled_run injective genesis run).counts
  have slashed : (loadTotals final).slash.burned.value = burnedBy (ofKind .slash (executions blocks)) := (counts .slash).burned slashes
  have charged : (loadTotals final).inactivity.burned.value = burnedBy (ofKind .inactivity (executions blocks)) :=
    (counts .inactivity).burned absences
  rw [slashed,charged,Nat.add_assoc,← burned_by_kind,balanced]
end

theorem sample_supply_audited : ∃ blocks tip, sampleRun 1 = .ok (blocks,tip) ∧
    wealth tip.state + burnedBy (executions blocks) = wealth (sampleGenesis 1).state ∧
    wealth tip.state + (loadTotals tip.state).slash.burned.value + (loadTotals tip.state).inactivity.burned.value =
      wealth (sampleGenesis 1).state := by
  have exact : (sampleRun 1).toOption.any (fun run => decide ((loadTotals run.2.state).slash.burned.overflowed = false ∧
      (loadTotals run.2.state).inactivity.burned.overflowed = false)) = true := by
    decide +kernel
  obtain ⟨⟨blocks,tip⟩,done,exact⟩ := completed_check exact
  obtain ⟨slashed,leaked⟩ := of_decide_eq_true exact
  have audited := supply_audited queue_code_injective (sample_genesis_unburdened 1) (by decide +kernel) (extends_completes (sample_runs done))
  exact ⟨blocks,tip,done,audited.1,audited.2 slashed leaked⟩

def strayBucket : State Nat Nat Nat :=
  (((∅ : AList (Row Nat Nat Nat)).insert .runtimePolicy (samplePolicy 1)).insert (.account 1) ⟨0,100⟩).insert (.expiry 1) [.account 1]

theorem stray_bucket_destroys : wealth strayBucket = 100 ∧ ∃ output,
    applyBlock sampleHost (sampleInput 4) strayBucket = .ok output ∧ output.mandatory.executed = [] ∧ wealth output.state = 0 := by
  have facts : (applyBlock sampleHost (sampleInput 4) strayBucket).toOption.any (fun output =>
      decide (output.mandatory.executed = [] ∧ wealth output.state = 0)) = true := by
    decide +kernel
  obtain ⟨output,done,facts⟩ := completed_check facts
  exact ⟨by decide +kernel,output,done,of_decide_eq_true facts⟩

theorem sample_leak_burns : ∃ output, applyBlock sampleHost (sampleInput 2) (sampleGenesis 1).state = .ok output ∧
    burnedBy output.mandatory.executed = 1 ∧ wealth output.state = wealth (sampleGenesis 1).state - 1 := by
  have facts : (applyBlock sampleHost (sampleInput 2) (sampleGenesis 1).state).toOption.any (fun output =>
      decide (burnedBy output.mandatory.executed = 1)) = true := by
    decide +kernel
  obtain ⟨output,done,facts⟩ := completed_check facts
  have burned := of_decide_eq_true facts
  have sound : BucketsSound (sampleGenesis 1).state := by
    intro height keys found
    rw [sample_genesis_clean] at found
    exact nomatch found
  have conserved := (tokens_conserved sound (by decide +kernel) done).1
  rw [burned] at conserved
  exact ⟨output,done,burned,conserved⟩
end Neutrino.Runtime
