import Neutrino.Runtime.Replay

-- Withdrawal queues over whole runs: entries mature in order, are paid at most once
-- and not before their delay; sanctions reach bonded and queued funds only.
namespace Neutrino.Runtime
open Checks Consensus Neutrino.Chain Ledger

section
def maturities (queue : List Withdrawal) : List Nat := queue.map (·.matureAtHeight)
def dueAt (queue : List Withdrawal) (maturity : Nat) : Nat := queueSum (queue.filter fun entry => decide (entry.matureAtHeight = maturity))

-- A stored queue has entries in order of maturity, none later than the bound.
structure Disciplined (bound : Nat) (queue : List Withdrawal) : Prop where
  nonempty : queue ≠ []
  increasing : (maturities queue).Pairwise (· < ·)
  bounded : ∀ maturity ∈ maturities queue, maturity ≤ bound

theorem due_append (one other : List Withdrawal) (maturity : Nat) : dueAt (one ++ other) maturity = dueAt one maturity + dueAt other maturity := by
  simp [dueAt,queueSum]

theorem due_single (entry : Withdrawal) (maturity : Nat) :
    dueAt [entry] maturity = if entry.matureAtHeight = maturity then entry.amount else 0 := by
  by_cases same : entry.matureAtHeight = maturity <;> simp [dueAt,queueSum,same]

theorem queue_cases (queue : List Withdrawal) (withdrawal : Withdrawal) :
    (∃ earlier last, queue = earlier ++ [last] ∧ last.matureAtHeight = withdrawal.matureAtHeight ∧
      queueWithdrawal queue withdrawal = earlier ++ [{last with amount := saturatingAdd128 last.amount withdrawal.amount}]) ∨
    (∀ last, queue.getLast? = some last → last.matureAtHeight ≠ withdrawal.matureAtHeight) ∧
      queueWithdrawal queue withdrawal = queue ++ [withdrawal] := by
  rcases List.eq_nil_or_concat queue with rfl | ⟨earlier,last,rfl⟩
  · exact .inr ⟨by simp,rfl⟩
  · rw [List.concat_eq_append]
    by_cases same : last.matureAtHeight = withdrawal.matureAtHeight
    · exact .inl ⟨earlier,last,rfl,same,by simp [queueWithdrawal,same]⟩
    · exact .inr ⟨by simp [same],by simp [queueWithdrawal,same]⟩

theorem queue_withdrawal_due (fits : queueSum queue + withdrawal.amount ≤ maxU128)
    (maturity : Nat) : dueAt (queueWithdrawal queue withdrawal) maturity =
      dueAt queue maturity + if withdrawal.matureAtHeight = maturity then withdrawal.amount else 0 := by
  rcases queue_cases queue withdrawal with ⟨earlier,last,rfl,same,merged⟩ | ⟨-,appended⟩
  · have room : last.amount + withdrawal.amount ≤ maxU128 := by
      simp only [queueSum,List.map_append,List.map_cons,List.map_nil,List.sum_append,List.sum_singleton] at fits
      omega
    rw [merged,due_append,due_append,due_single,due_single,same,saturating_exact room]
    dsimp only
    split <;> omega
  · rw [appended,due_append,due_single]

variable {bound : Nat}

theorem queue_withdrawal_disciplined (disciplined : ∀ queue, row = some queue → Disciplined bound queue) :
    Disciplined bound (queueWithdrawal (row.getD []) ⟨amount,bound⟩) := by
  have before : (maturities (row.getD [])).Pairwise (· < ·) ∧ ∀ maturity ∈ maturities (row.getD []), maturity ≤ bound := by
    cases row with
    | none => exact ⟨.nil,nofun⟩
    | some queue => exact ⟨(disciplined queue rfl).increasing,(disciplined queue rfl).bounded⟩
  obtain ⟨increasing,bounded⟩ := before
  rcases queue_cases (row.getD []) ⟨amount,bound⟩ with ⟨earlier,last,split,same,merged⟩ | ⟨later,appended⟩
  · have kept : maturities (queueWithdrawal (row.getD []) ⟨amount,bound⟩) = maturities (row.getD []) := by
      rw [merged,split]
      simp [maturities]
    exact ⟨by simp [merged],kept ▸ increasing,kept ▸ bounded⟩
  · have grown : maturities (queueWithdrawal (row.getD []) ⟨amount,bound⟩) = maturities (row.getD []) ++ [bound] := by
      rw [appended]
      simp [maturities]
    refine ⟨by simp [appended],?_,fun maturity member => ?_⟩
    · rw [grown]
      refine List.pairwise_append.mpr ⟨increasing,List.pairwise_singleton _ _,fun maturity member _ only => ?_⟩
      rw [List.mem_singleton.mp only]
      refine Nat.lt_of_le_of_ne (bounded maturity member) fun reached => ?_
      rcases List.eq_nil_or_concat (row.getD []) with empty | ⟨earlier,last,split⟩
      · rw [empty] at member
        cases member
      · rw [List.concat_eq_append] at split
        have apart : last.matureAtHeight ≠ bound := later last (by simp [split])
        rw [split] at member increasing bounded
        simp only [maturities,List.map_append,List.map_cons,List.map_nil] at member increasing bounded
        rcases List.mem_append.mp member with old | own
        · have less := (List.pairwise_append.mp increasing).2.2 maturity old last.matureAtHeight (by simp)
          have most := bounded last.matureAtHeight (by simp)
          omega
        · exact apart ((List.mem_singleton.mp own).symm.trans reached)
    · rw [grown] at member
      rcases List.mem_append.mp member with old | own
      · exact bounded maturity old
      · exact Nat.le_of_eq (List.mem_singleton.mp own)

theorem stored_disciplined (disciplined : Disciplined bound queue)
    (sublist : (maturities shorter).Sublist (maturities queue)) : ∀ stored, storedRow shorter = some stored → Disciplined bound stored := by
  intro stored same
  rw [storedRow] at same
  split at same
  next => cases same
  next nonempty =>
    cases same
    exact ⟨nonempty,disciplined.increasing.sublist sublist, fun maturity member => disciplined.bounded maturity (sublist.mem member)⟩

theorem burn_sublist (queue : List Withdrawal) (remaining : Nat) : (maturities (burnQueue queue remaining)).Sublist (maturities queue) := by
  induction queue generalizing remaining with
  | nil => exact .slnil
  | cons entry rest ih =>
    rw [burnQueue]
    split
    · exact .refl _
    · split
      · exact .cons _ (ih _)
      · exact .refl _

theorem burn_due_le (queue : List Withdrawal) (remaining maturity : Nat) : dueAt (burnQueue queue remaining) maturity ≤ dueAt queue maturity := by
  induction queue generalizing remaining with
  | nil => exact Nat.le_refl _
  | cons entry rest ih =>
    have split (one : Withdrawal) : dueAt (one::rest) maturity = (if one.matureAtHeight = maturity then one.amount else 0) + dueAt rest maturity := by
      rw [← due_single,← due_append]
      rfl
    rw [burnQueue]
    split
    · exact Nat.le_refl _
    · split
      · exact Nat.le_trans (ih _) (split entry ▸ Nat.le_add_left _ _)
      · rw [split,split]
        refine Nat.add_le_add_right ?_ _
        simp only
        split <;> omega

theorem stored_row_queue (queue : List Withdrawal) : (storedRow queue).getD [] = queue := by
  rw [storedRow]
  split
  next empty => exact empty.symm
  next => rfl

theorem kept_due (queue : List Withdrawal) (height maturity : Nat) :
    dueAt (queue.filter fun entry => !decide (entry.matureAtHeight ≤ height)) maturity = if maturity ≤ height then 0 else dueAt queue maturity := by
  simp only [dueAt,List.filter_filter]
  split
  next mature =>
    have bare : (queue.filter fun entry => decide (entry.matureAtHeight = maturity) && !decide (entry.matureAtHeight ≤ height)) = [] := by
      rw [List.filter_eq_nil_iff]
      intro entry _
      simp only [Bool.and_eq_true,decide_eq_true_eq,Bool.not_eq_true',decide_eq_false_iff_not,not_and,not_not]
      omega
    rw [bare]
    rfl
  next later =>
    congr 1
    refine List.filter_congr fun entry _ => ?_
    by_cases same : entry.matureAtHeight = maturity
    · simp [same,Nat.lt_of_not_le later]
    · simp [same]
end
section
variable {Hash Key Sig : Type} [LinearOrder Hash] [DecidableEq Key] {moment : Moment Hash Key Sig}

theorem sanctions_supply {items : List (PendingSanction Hash Key)}
    (bounded : wealth state ≤ maxU128) (run : executeAll state totals items = .ok (executed,final,after))
    (member : moment ∈ sanctionMoments state totals items) : wealth moment.before ≤ maxU128 := by
  induction items generalizing state totals executed with
  | nil => cases member
  | cons item rest ih =>
    simp only [executeAll,bind_ok,pure_ok,Prod.mk.injEq] at run
    obtain ⟨⟨done,next,middle⟩,one,⟨later,_,_⟩,tail,rfl,rfl,rfl⟩ := run
    simp only [sanctionMoments,one] at member
    rcases List.mem_cons.mp member with rfl | later
    · exact bounded
    · have single : executeAll state totals [item] = .ok ([done],next,middle) := by simp only [executeAll,one]; rfl
      have shrinks : wealth middle ≤ wealth state := execute_all_wealth bounded single ▸ Nat.le_add_right _ _
      exact ih (Nat.le_trans shrinks bounded) tail later

theorem transactions_supply (bounded : amount ≤ maxU128) (balanced : wealth current.1 + current.2.proposerFee = amount)
    (member : moment ∈ transactionMoments host facts current transactions) : wealth moment.before ≤ maxU128 := by
  induction transactions generalizing current with
  | nil => cases member
  | cons tx rest ih =>
    rcases List.mem_cons.mp member with rfl | later
    · simp only
      omega
    · exact ih (execute_transaction_wealth bounded balanced tx) later

theorem block_supply (step : Completes host state block after) (sound : BucketsSound state) (bounded : wealth state ≤ maxU128)
    (member : moment ∈ block.moments host) : wealth moment.before ≤ maxU128 := by
  obtain ⟨rfl,done,-⟩ := step
  obtain ⟨-,⟨totals,middle,run⟩,-⟩ := apply_block_ok done
  have opened : wealth block.opened ≤ maxU128 := by
    rwa [Executed.opened,Executed.reported,admission_wealth block.input (buckets_sound_participation sound block.input.participation),
      participation_wealth]
  have shrinks : wealth middle ≤ maxU128 := by
    have executed := execute_all_wealth opened run.executed
    exact Nat.le_trans (executed ▸ Nat.le_add_right _ _) opened
  have ready : wealth block.ready.1 + block.ready.2.proposerFee = wealth middle := by
    rw [Executed.ready]
    simp only [startTally]
    rw [expire_wealth,phase_wealth run]
    rfl
  have left : (block.sanctions.getLast?.map (·.after)).getD block.opened = middle := (sanctions_occur host run.executed).2.2
  simp only [Executed.moments,List.mem_append,List.mem_cons,List.not_mem_nil,or_false] at member
  rcases member with ((rfl | sanction) | rfl | transaction) | rfl
  · exact bounded
  · exact sanctions_supply opened run.executed sanction
  · rw [left]
    exact shrinks
  · exact transactions_supply shrinks ready transaction
  · have paid := execute_transactions_wealth host block.facts block.ready.1 block.ready.2 shrinks ready
    simp only
    omega

variable {blocks : List (Executed Hash Key Sig)}

theorem run_supply (sound : BucketsSound genesis) (bounded : wealth genesis ≤ maxU128) (run : Runs (Completes host) genesis blocks final) :
    wealth final ≤ maxU128 ∧ ∀ block ∈ blocks, ∀ moment ∈ block.moments host, wealth moment.before ≤ maxU128 := by
  refine run.invariant (fun blocks state => wealth state ≤ maxU128 ∧ ∀ block ∈ blocks, ∀ moment ∈ block.moments host, wealth moment.before ≤ maxU128)
    ⟨bounded,by simp⟩ ?_
  rintro blocks middle block after prior ⟨supply,earlier⟩ step
  have settled := completes_sound sound prior
  refine ⟨?_,fun other listed moment member => ?_⟩
  · obtain ⟨-,done,rfl⟩ := step
    have shrinks := block_wealth settled supply done
    omega
  · rcases List.mem_append.mp listed with old | own
    · exact earlier other old moment member
    · rw [List.mem_singleton.mp own] at member
      exact block_supply step settled supply member
end
section
variable {Hash Key Sig : Type} [LinearOrder Hash] [DecidableEq Key]

def Act.height : Act Hash Key Sig → Nat
  | .transaction facts _ _ => facts.input.blockHeight
  | _ => 0

def Act.unbonded (address : Hash) (stake : Nat) : Act Hash Key Sig → Nat
  | .transaction _ tx .applied => if tx.signer = some address then (tx.unbonds stake).getD 0 else 0
  | _ => 0

def Act.withdraws (address : Hash) : Act Hash Key Sig → Bool
  | .transaction _ (.withdraw tx) .applied => decide (tx.validator = address)
  | _ => false

def Act.sanctions (address : Hash) : Act Hash Key Sig → Bool
  | .sanction done => decide (done.offender = address)
  | _ => false

-- The event belongs to a block with this unbonding delay.
def Act.Delayed (delay : Nat) (event : Act Hash Key Sig) : Prop :=
  ∀ facts tx fate, event = .transaction facts tx fate → facts.input.evidenceAnchor.unbondingDelayBlocks = delay

variable {event : Act Hash Key Sig} {delay stake : Nat}

theorem unsigned_unbonded (apart : event.signer ≠ some address) : event.unbonded address stake = 0 := by
  unfold Act.unbonded
  split
  next => exact if_neg apart
  next => rfl

theorem unsigned_withdraws (apart : event.signer ≠ some address) : event.withdraws address = false := by
  unfold Act.withdraws
  split
  next => exact decide_eq_false fun same => apart (congrArg some same)
  next => rfl

theorem quiet_unbonded (quiet : event.movesQueue = false) : event.unbonded address stake = 0 := by
  unfold Act.unbonded
  split
  next facts tx =>
    have bare : tx.unbonds stake = none := by
      cases tx <;> first | rfl | exact nomatch quiet
    rw [bare]
    split <;> rfl
  next => rfl

theorem quiet_withdraws (quiet : event.movesQueue = false) : event.withdraws address = false := by
  unfold Act.withdraws
  split
  next => exact nomatch quiet
  next => rfl

theorem burned_row_due_le (row : Option (List Withdrawal)) (remaining maturity : Nat) :
    dueAt ((burnedRow row remaining).getD []) maturity ≤ dueAt (row.getD []) maturity := by
  rw [burnedRow]
  split
  · rw [stored_row_queue]
    exact burn_due_le _ _ _
  · exact Nat.le_refl _

theorem queue_stored (nonce balance stake : Nat) (queue : List Withdrawal) : Holding.queue ⟨nonce,balance,stake,storedRow queue⟩ = queue :=
  stored_row_queue queue

theorem Shift.flow (shift : Shift address event before after) (room : before.stake + queueSum before.queue ≤ maxU128)
    (constant : event.Delayed delay) (maturity : Nat) :
    dueAt before.queue maturity + (if event.height + delay = maturity then event.unbonded address before.stake else 0) =
      (if event.withdraws address then dueAt before.queue maturity - dueAt after.queue maturity else 0) +
      (if event.sanctions address then dueAt before.queue maturity - dueAt after.queue maturity else 0) + dueAt after.queue maturity := by
  cases shift with
  | gained more bonded apart spared fits =>
    rw [unsigned_unbonded apart,unsigned_withdraws apart]
    simp [Holding.queue]
  | spent debit refund bonded signs quiet covered refunds =>
    rw [quiet_unbonded quiet,quiet_withdraws quiet]
    simp [Holding.queue]
  | @unbonded facts tx _ amount signs unbonds covered within =>
    have due := @queue_withdrawal_due before.queue ⟨amount,facts.maturity⟩ (by simp only; omega) maturity
    have ends : facts.maturity = facts.input.blockHeight + delay := by rw [BlockFacts.maturity,constant _ _ _ rfl]
    have free : (Act.transaction facts tx .applied).withdraws address = false := by
      cases tx <;> first | rfl | cases unbonds
    rw [free]
    simp only [Act.unbonded,signs,if_true,unbonds,Option.getD_some,Act.height,Act.sanctions]
    simpa [Holding.queue,ends] using due.symm
  | @withdrew facts tx _ signs free fits covered =>
    have due := kept_due before.queue facts.input.blockHeight maturity
    have idle : (Act.transaction facts (.withdraw tx) .applied).unbonded address before.stake = 0 := by
      simp [Act.unbonded,Transaction.unbonds]
    have paid : (Act.transaction facts (.withdraw tx) .applied).withdraws address = true := decide_eq_true signs
    simp only [idle,paid,Act.sanctions,ite_self,if_true,Bool.false_eq_true,if_false,queue_stored,due]
    split <;> omega
  | @deducted done _ reward names within fits =>
    have less := burned_row_due_le before.row (done.deducted - min before.stake done.deducted) maturity
    have named : (Act.sanction done : Act Hash Key Sig).sanctions address = true := decide_eq_true names
    simp only [Act.unbonded,Act.withdraws,named,Holding.queue,if_true,ite_self,Bool.false_eq_true,if_false]
    omega

theorem Shift.withdrawal (shift : Shift address (.transaction facts (.withdraw tx) .applied) before after) (own : tx.validator = address)
    (room : before.stake + queueSum before.queue ≤ maxU128) :
    facts.held address = false ∧ after.queue = before.queue.filter (fun entry => !decide (entry.matureAtHeight ≤ facts.input.blockHeight)) ∧
    after.balance + transactionFee facts (.withdraw tx) + queueSum after.queue = before.balance + queueSum before.queue := by
  cases shift with
  | gained more bonded apart spared fits => exact absurd (congrArg some own) apart
  | spent debit refund bonded signs quiet covered refunds => cases quiet
  | unbonded amount signs unbonds covered within => cases unbonds
  | withdrew signs free fits covered =>
    have split := withdrawn_split before.queue facts.input.blockHeight (by omega)
    refine ⟨free,queue_stored _ _ _ _,?_⟩
    rw [queue_stored]
    simp only
    omega

theorem Shift.disciplined (shift : Shift address event before after)
    (maturing : ∀ facts tx fate, event = .transaction facts tx fate → facts.maturity = bound)
    (disciplined : ∀ queue, before.row = some queue → Disciplined bound queue) :
    ∀ queue, after.row = some queue → Disciplined bound queue := by
  have stored {shorter : List Withdrawal} (sublist : (maturities shorter).Sublist (maturities before.queue)) :
      ∀ queue, storedRow shorter = some queue → Disciplined bound queue := by
    cases row : before.row with
    | none =>
      intro queue same
      rw [Holding.queue,row] at sublist
      have empty : shorter = [] := List.map_eq_nil_iff.mp (List.sublist_nil.mp sublist)
      rw [empty] at same
      cases same
    | some queue =>
      rw [Holding.queue,row] at sublist
      exact stored_disciplined (disciplined queue row) sublist
  cases shift with
  | gained more bonded apart spared fits => exact disciplined
  | spent debit refund bonded signs quiet covered refunds => exact disciplined
  | unbonded amount signs unbonds covered within =>
    rintro _ ⟨⟩
    rw [maturing _ _ _ rfl]
    exact queue_withdrawal_disciplined disciplined
  | withdrew signs free fits covered => exact stored (List.filter_sublist.map _)
  | @deducted done _ reward names within fits =>
    simp only [burnedRow]
    split
    · exact stored (burn_sublist _ _)
    · exact disciplined

theorem Shift.deduction (shift : Shift address (.sanction done : Act Hash Key Sig) before after)
    (room : before.stake + queueSum before.queue ≤ maxU128) : before.balance ≤ after.balance ∧ after.nonce = before.nonce ∧
    after.stake + queueSum after.queue + (if done.offender = address then done.deducted else 0) = before.stake + queueSum before.queue := by
  cases shift with
  | gained more bonded apart spared fits =>
    obtain ⟨rfl,zero⟩ := spared done rfl
    refine ⟨Nat.le_add_right _ _,rfl,?_⟩
    split
    next names =>
      rw [zero names]
      rfl
    next => rfl
  | spent debit refund bonded signs quiet covered refunds => cases signs
  | deducted reward names within fits =>
    refine ⟨Nat.le_add_right _ _,rfl,?_⟩
    have total : withdrawalTotal before.queue = queueSum before.queue := by
      have precise := @withdrawal_total_exact before.queue 0 (by omega)
      rwa [Nat.zero_add] at precise
    rw [total,saturating_exact room] at within
    rw [if_pos names]
    by_cases burns : 0 < done.deducted - min before.stake done.deducted ∧ before.row.getD [] ≠ []
    · have burned := @burn_queue_sum before.queue (done.deducted - min before.stake done.deducted) (by omega)
      simp only [burnedRow,if_pos burns,queue_stored]
      simp only [Holding.queue] at burned ⊢
      omega
    · have covered : done.deducted ≤ before.stake := by
        by_contra more
        refine burns ⟨by omega,fun empty => more ?_⟩
        simp only [Holding.queue,empty,queueSum,List.map_nil,List.sum_nil] at within
        omega
      simp only [burnedRow,if_neg burns]
      simp only [Holding.queue]
      omega

theorem Shift.unbonding (shift : Shift address event before after) (moves : event.unbonded address before.stake ≠ 0) :
    after.stake + event.unbonded address before.stake = before.stake := by
  cases shift with
  | gained more bonded apart spared fits => exact absurd (unsigned_unbonded apart) moves
  | spent debit refund bonded signs quiet covered refunds => exact absurd (quiet_unbonded quiet) moves
  | unbonded amount signs unbonds covered within =>
    simp only [Act.unbonded,signs,if_true,unbonds,Option.getD_some]
    omega
  | withdrew signs free fits covered => exact absurd (by simp [Act.unbonded,Transaction.unbonds]) moves
  | deducted reward names within fits => exact absurd rfl moves
end
section
variable {Hash Key Sig : Type} [LinearOrder Hash] [DecidableEq Key]

def Moment.released (moment : Moment Hash Key Sig) (address : Hash) (maturity : Nat) : Nat :=
  dueAt (holding moment.before address).queue maturity - dueAt (holding moment.after address).queue maturity

def unbondedFor (delay : Nat) (address : Hash) (maturity : Nat) (moments : List (Moment Hash Key Sig)) : Nat := (moments.map fun moment =>
    if moment.event.height + delay = maturity then moment.event.unbonded address (holding moment.before address).stake else 0).sum

def creditedFor (address : Hash) (maturity : Nat) (moments : List (Moment Hash Key Sig)) : Nat :=
  (moments.map fun moment => if moment.event.withdraws address then moment.released address maturity else 0).sum

def deductedFor (address : Hash) (maturity : Nat) (moments : List (Moment Hash Key Sig)) : Nat :=
  (moments.map fun moment => if moment.event.sanctions address then moment.released address maturity else 0).sum

def Queued (bound : Nat) (state : State Hash Key Sig) : Prop :=
  ∀ address queue, state.lookup (.withdrawal address) = some queue → Disciplined bound queue

variable {host : Host Hash Key Sig} {blocks : List (Executed Hash Key Sig)} {delay : Nat}

theorem supplied_shift (happens : Happens host moment) (bounded : wealth moment.before ≤ maxU128) (address : Hash) :
    Shift address moment.event (holding moment.before address) (holding moment.after address) :=
  moment_shift happens (Nat.le_trans (balance_le moment.before address) bounded)

variable {state : State Hash Key Sig}

theorem bonded_room (bounded : wealth state ≤ maxU128) (address : Hash) :
    (holding state address).stake + queueSum (holding state address).queue ≤ maxU128 :=
  Nat.le_trans (bond_le state address) bounded

theorem run_flow (run : Runs (Occurs host) genesis moments final)
    (each : ∀ moment ∈ moments, wealth moment.before ≤ maxU128 ∧ moment.event.Delayed delay) (address : Hash) (maturity : Nat) :
    dueAt (holding genesis address).queue maturity + unbondedFor delay address maturity moments =
      creditedFor address maturity moments + deductedFor address maturity moments + dueAt (holding final address).queue maturity := by
  refine (run.labelled each).invariant (fun moments state =>
    dueAt (holding genesis address).queue maturity + unbondedFor delay address maturity moments =
      creditedFor address maturity moments + deductedFor address maturity moments + dueAt (holding state address).queue maturity)
    (by simp [unbondedFor,creditedFor,deductedFor]) ?_
  rintro moments middle moment after - balanced ⟨⟨rfl,happens,rfl⟩,bounded,constant⟩
  have flow := (supplied_shift happens bounded address).flow (bonded_room bounded address) constant maturity
  simp only [unbondedFor,creditedFor,deductedFor,Moment.released,List.map_append,List.map_cons,List.map_nil,List.sum_append,
    List.sum_singleton] at balanced ⊢
  omega

variable {bound : Nat}

theorem block_queued (step : Completes host state block after)
    (sound : BucketsSound state) (bounded : wealth state ≤ maxU128) (maturing : block.facts.maturity = bound) (queued : Queued bound state) :
    Queued bound after ∧ ∀ moment ∈ block.moments host, Queued bound moment.after := by
  have each : ∀ moment ∈ block.moments host, wealth moment.before ≤ maxU128 ∧
      ∀ facts tx fate, moment.event = .transaction facts tx fate → facts.maturity = bound := by
    refine fun moment member => ⟨block_supply step sound bounded member,fun facts tx fate runs => ?_⟩
    rw [moment_facts member runs,maturing]
  refine ((block_occurs step sound).labelled each).invariant
    (fun moments state => Queued bound state ∧ ∀ moment ∈ moments, Queued bound moment.after) ⟨queued,by simp⟩ ?_
  rintro moments middle moment next - ⟨held,earlier⟩ ⟨⟨rfl,happens,rfl⟩,supply,due⟩
  have kept : Queued bound moment.after := fun address => (supplied_shift happens supply address).disciplined due (held address)
  exact ⟨kept,List.forall_mem_append.mpr ⟨earlier,List.forall_mem_singleton.mpr kept⟩⟩

theorem Disciplined.weaken (disciplined : Disciplined bound queue) (wide : bound ≤ wider) : Disciplined wider queue :=
  ⟨disciplined.nonempty,disciplined.increasing,fun maturity member => Nat.le_trans (disciplined.bounded maturity member) wide⟩

theorem run_queued (sound : BucketsSound genesis) (supply : wealth genesis ≤ maxU128)
    (fresh : ∀ address, genesis.lookup (.withdrawal address) = none)
    (constant : ∀ block ∈ blocks, block.input.evidenceAnchor.unbondingDelayBlocks = delay)
    (increasing : (blocks.map (·.height)).Pairwise (· < ·)) (run : Runs (Completes host) genesis blocks final) :
    (∀ limit, (∀ block ∈ blocks, block.height ≤ limit) → Queued (limit + delay) final) ∧
    ∀ block ∈ blocks, ∀ moment ∈ block.moments host, Queued (block.height + delay) moment.after := by
  refine (run.labelled constant).invariant (fun blocks state => (blocks.map (·.height)).Pairwise (· < ·) →
    (∀ limit, (∀ block ∈ blocks, block.height ≤ limit) → Queued (limit + delay) state) ∧
    ∀ block ∈ blocks, ∀ moment ∈ block.moments host, Queued (block.height + delay) moment.after) ?_ ?_ increasing
  · refine fun _ => ⟨fun limit _ address queue found => ?_,by simp⟩
    rw [fresh address] at found
    cases found
  · rintro blocks middle block after prior held ⟨step,own⟩ ordered
    rw [List.map_append,List.pairwise_append] at ordered
    obtain ⟨past,-,later⟩ := ordered
    obtain ⟨queued,earlier⟩ := held past
    have completes := prior.mono fun _ _ _ => And.left
    have before : Queued (block.height + delay) middle :=
      queued block.height fun other member => Nat.le_of_lt (later _ (List.mem_map_of_mem member) _ (by simp))
    have maturing : block.facts.maturity = block.height + delay := congrArg (block.height + ·) own
    obtain ⟨ending,within⟩ := block_queued step (completes_sound sound completes) (run_supply sound supply completes).1 maturing before
    refine ⟨fun limit bounded address queue found => ?_,List.forall_mem_append.mpr ⟨earlier,List.forall_mem_singleton.mpr within⟩⟩
    have wide : block.height + delay ≤ limit + delay := Nat.add_le_add_right (bounded block (by simp)) _
    exact (ending address queue found).weaken wide

def QueuesOrdered (state : State Hash Key Sig) : Prop :=
  ∀ address queue, state.lookup (.withdrawal address) = some queue → queue ≠ [] ∧ (maturities queue).Pairwise (· < ·)

theorem Queued.ordered (queued : Queued bound state) : QueuesOrdered state :=
  fun address queue found => ⟨(queued address queue found).nonempty,(queued address queue found).increasing⟩

theorem history_delayed (constant : ∀ block ∈ blocks, block.input.evidenceAnchor.unbondingDelayBlocks = delay) :
    ∀ moment ∈ history host blocks, moment.event.Delayed delay := by
  intro moment member facts tx fate runs
  obtain ⟨block,listed,within⟩ := List.mem_flatMap.mp member
  rw [moment_facts within runs]
  exact constant block listed

variable (host delay)

theorem withdrawals_disciplined (sound : BucketsSound genesis) (fresh : ∀ address, genesis.lookup (.withdrawal address) = none)
    (supply : wealth genesis ≤ maxU128) (run : Runs (Completes host) genesis blocks final)
    (constant : ∀ block ∈ blocks, block.input.evidenceAnchor.unbondingDelayBlocks = delay)
    (increasing : (blocks.map (·.height)).Pairwise (· < ·)) : Runs (Occurs host) genesis (history host blocks) final ∧
    (QueuesOrdered final ∧ ∀ moment ∈ history host blocks, QueuesOrdered moment.after) ∧
    (∀ address maturity, unbondedFor delay address maturity (history host blocks) =
      creditedFor address maturity (history host blocks) + deductedFor address maturity (history host blocks) +
        dueAt (loadWithdrawalQueue final address) maturity) ∧
    (∀ moment ∈ history host blocks, ∀ address, moment.event.unbonded address (loadValidator moment.before address).stake ≠ 0 →
      (loadValidator moment.after address).stake + moment.event.unbonded address (loadValidator moment.before address).stake =
        (loadValidator moment.before address).stake) ∧
    (∀ block ∈ blocks, ∀ moment ∈ block.moments host, ∀ facts tx, moment.event = .transaction facts (.withdraw tx) .applied →
      (∀ maturity, moment.released tx.validator maturity ≠ 0 → maturity ≤ block.height) ∧
      (loadAccount moment.after tx.validator).balance + transactionFee facts (.withdraw tx) +
          queueSum (loadWithdrawalQueue moment.after tx.validator) =
        (loadAccount moment.before tx.validator).balance + queueSum (loadWithdrawalQueue moment.before tx.validator) ∧
      ∀ item ∈ block.output.mandatory.queue, item.sanction.offender.withdrawalCredentials ≠ tx.validator) ∧
    (∀ moment ∈ history host blocks, ∀ done, moment.event = .sanction done → ∀ address,
      (loadAccount moment.before address).balance ≤ (loadAccount moment.after address).balance ∧
      (loadValidator moment.after address).stake + queueSum (loadWithdrawalQueue moment.after address) +
          (if done.offender = address then done.deducted else 0) =
        (loadValidator moment.before address).stake + queueSum (loadWithdrawalQueue moment.before address)) := by
  have occurs := run_occurs sound run
  have bounded : ∀ moment ∈ history host blocks, wealth moment.before ≤ maxU128 := by
    intro moment member
    obtain ⟨block,listed,within⟩ := List.mem_flatMap.mp member
    exact (run_supply sound supply run).2 block listed moment within
  have shifts : ∀ moment ∈ history host blocks, ∀ address,
      Shift address moment.event (holding moment.before address) (holding moment.after address) := by
    intro moment member address
    obtain ⟨-,_,_,-,⟨rfl,happens,-⟩⟩ := occurs.at_member member
    exact supplied_shift happens (bounded moment member) address
  obtain ⟨ending,within⟩ := run_queued sound supply fresh constant increasing run
  refine ⟨occurs,⟨?_,fun moment member => ?_⟩,fun address maturity => ?_,fun moment member address => ?_,
    fun block listed moment member facts tx runs => ?_,fun moment member done runs address => ?_⟩
  · exact (ending (blocks.map (·.height)).sum fun block member =>
      List.single_le_sum (fun _ _ => Nat.zero_le _) _ (List.mem_map_of_mem member)).ordered
  · obtain ⟨block,listed,inside⟩ := List.mem_flatMap.mp member
    exact (within block listed moment inside).ordered
  · have flow := run_flow occurs (fun moment member => ⟨bounded moment member,history_delayed constant moment member⟩) address maturity
    have empty : (holding genesis address).queue = [] := by
      rw [Holding.queue,holding,fresh]
      rfl
    rw [empty] at flow
    have bare : dueAt [] maturity = 0 := rfl
    rw [bare,Nat.zero_add] at flow
    exact flow
  · exact (shifts moment member address).unbonding
  · have inside : moment ∈ history host blocks := List.mem_flatMap.mpr ⟨block,listed,member⟩
    have shift := shifts moment inside tx.validator
    rw [runs] at shift
    obtain ⟨free,rest,paid⟩ := shift.withdrawal rfl (bonded_room (bounded moment inside) tx.validator)
    obtain rfl := moment_facts member runs
    refine ⟨fun maturity leaves => ?_,paid,fun item queued names => ?_⟩
    · by_contra early
      have kept := kept_due (holding moment.before tx.validator).queue block.height maturity
      rw [if_neg early] at kept
      refine leaves ?_
      rw [Moment.released,rest]
      exact Nat.sub_eq_zero_of_le (Nat.le_of_eq kept.symm)
    · have free : (block.output.mandatory.queue.any fun item =>
          decide (item.sanction.offender.withdrawalCredentials = tx.validator)) = false := free
      rw [List.any_eq_false] at free
      exact free item queued (decide_eq_true names)
  · have shift := shifts moment member address
    rw [runs] at shift
    obtain ⟨balance,-,taken⟩ := shift.deduction (bonded_room (bounded moment member) address)
    exact ⟨balance,taken⟩
end
section
def stakerState : State Nat Nat Nat := storeValidator (storeAccount ((∅ : AList (Row Nat Nat Nat)).insert .runtimePolicy (samplePolicy 1))
  2 ⟨0,200000⟩) 2 ⟨100,true⟩

def unstakeInput : StfInput Nat Nat Nat := {sampleInput 3 with transactions := [.unstake ⟨2,40,0,0⟩]}
def withdrawInput : StfInput Nat Nat Nat := {sampleInput 5 with transactions := [.withdraw ⟨2,1,0⟩]}

def withdrawalCheck (done : BlockOutput Nat Nat Nat × BlockOutput Nat Nat Nat) : Bool :=
  decide (unbondedFor 2 2 5 (history sampleHost [⟨stakerState,unstakeInput,done.1⟩,⟨done.1.state,withdrawInput,done.2⟩]) = 40 ∧
    dueAt (loadWithdrawalQueue done.2.state 2) 5 = 0)

def withdrawalRun : Except Panic (BlockOutput Nat Nat Nat × BlockOutput Nat Nat Nat) := do
  let first ← applyBlock sampleHost unstakeInput stakerState
  let second ← applyBlock sampleHost withdrawInput first.state
  pure (first,second)

theorem staker_inert (account : key ≠ .account 2) (validator : key ≠ .validator 2) (policy : key ≠ .runtimePolicy) :
    stakerState.lookup key = none := by
  rw [stakerState,storeValidator,AList.lookup_insert_ne validator,storeAccount,AList.lookup_insert_ne account,AList.lookup_insert_ne policy]
  exact AList.lookup_empty _

theorem unstaked_amount_paid : ∃ first second, withdrawalRun = .ok (first,second) ∧
    creditedFor 2 5 (history sampleHost [⟨stakerState,unstakeInput,first⟩,⟨first.state,withdrawInput,second⟩]) +
      deductedFor 2 5 (history sampleHost [⟨stakerState,unstakeInput,first⟩,⟨first.state,withdrawInput,second⟩]) = 40 := by
  have facts : withdrawalRun.toOption.any withdrawalCheck = true := by
    decide +kernel
  obtain ⟨⟨first,second⟩,done,checked⟩ := completed_check facts
  obtain ⟨unbonded,settled⟩ := of_decide_eq_true checked
  refine ⟨first,second,done,?_⟩
  simp only [withdrawalRun,bind_ok,pure_ok,Prod.mk.injEq] at done
  obtain ⟨first,one,second,two,rfl,rfl⟩ := done
  have run : Runs (Completes sampleHost) stakerState [⟨stakerState,unstakeInput,first⟩,⟨first.state,withdrawInput,second⟩] second.state :=
    .snoc (.snoc .nil ⟨rfl,one,rfl⟩) ⟨rfl,two,rfl⟩
  have sound : BucketsSound stakerState := by
    intro height keys found
    rw [bucket,staker_inert (by simp) (by simp) (by simp)] at found
    cases found
  obtain ⟨-,-,flow,-⟩ := withdrawals_disciplined sampleHost 2 sound (fun address => staker_inert (by simp) (by simp) (by simp))
    (by decide +kernel) run (by simp [unstakeInput,withdrawInput,sampleInput]) (by simp [Executed.height,unstakeInput,withdrawInput,sampleInput])
  have balanced := flow 2 5
  dsimp only at unbonded settled
  omega
end
end Neutrino.Runtime
