import Neutrino.Runtime.Halting

-- Gas, receipts and counts of a block's transactions (lib.rs, accountability.rs, tx.rs).
namespace Neutrino.Runtime
open Checks Consensus Chain Ledger

section
variable {Hash Key Sig : Type} [LinearOrder Hash] [DecidableEq Key] {facts : BlockFacts Hash Key Sig}

def maxTxGas : Nat := 100000

theorem tx_gas_le (tx : Transaction Hash Key Sig) : txGas tx ≤ maxTxGas := by
  cases tx <;> simp [txGas,maxTxGas,gasEvidenceAdmission]

def gasSum (receipts : List Receipt) : Nat := (receipts.map (·.gasUsed)).sum

theorem gas_sum_append (earlier later : List Receipt) : gasSum (earlier ++ later) = gasSum earlier + gasSum later := by
  simp [gasSum]

structure Counted (facts : BlockFacts Hash Key Sig) (start : Tally) (processed : List (Transaction Hash Key Sig)) (tally : Tally)
    (receipts : List Receipt) : Prop where
  listed : tally.receipts = start.receipts ++ receipts
  length : receipts.length = processed.length
  gas : tally.gasUsed = start.gasUsed + gasSum receipts
  small : gasSum receipts ≤ processed.length * maxTxGas
  limit : tally.gasUsed ≤ facts.input.blockGasLimit
  count : tally.applied + tally.failed = start.applied + start.failed + processed.length

-- Room for one more transaction in 64 bits of gas and 32 bits of counters.
def Roomy (start : Tally) (processed : Nat) : Prop :=
  start.gasUsed + processed * maxTxGas < 2 ^ 64 ∧ start.applied + start.failed + processed < 2 ^ 32

theorem counted_step {tally after : Tally} (counted : Counted facts start processed tally receipts)
    (roomy : Roomy start (processed.length + 1)) (ran : Ran host facts state tally tx next after) :
    ∃ receipt, Counted facts start (processed ++ [tx]) after (receipts ++ [receipt]) := by
  have cost := tx_gas_le tx
  have precise : saturatingAdd tally.gasUsed (txGas tx) = tally.gasUsed + txGas tx := by
    have gas := counted.gas
    have small := counted.small
    have room := roomy.1
    rw [Nat.add_mul,Nat.one_mul] at room
    simp only [saturatingAdd,maxU64]
    omega
  have counters : tally.applied + 1 ≤ maxU32 ∧ tally.failed + 1 ≤ maxU32 := by
    have count := counted.count
    have room := roomy.2
    simp only [maxU32]
    omega
  have length : (processed ++ [tx]).length = processed.length + 1 := by simp
  have grown (receipt : Receipt) (bound : receipt.gasUsed ≤ maxTxGas) : gasSum (receipts ++ [receipt]) = gasSum receipts + receipt.gasUsed ∧
        gasSum (receipts ++ [receipt]) ≤ (processed ++ [tx]).length * maxTxGas := by
    have one : gasSum (receipts ++ [receipt]) = gasSum receipts + receipt.gasUsed := by rw [gas_sum_append]; rfl
    have small := counted.small
    rw [one,length,Nat.add_mul,Nat.one_mul]
    exact ⟨rfl,by omega⟩
  have more (receipt : Receipt) : (receipts ++ [receipt]).length = (processed ++ [tx]).length := by
    rw [length,List.length_append,counted.length]
    rfl
  have gas := counted.gas
  have count := counted.count
  cases ran with
  | skipped full =>
    obtain ⟨sum,small⟩ := grown ⟨ReceiptStatus.outOfBlockGas.asU32,0,txKindCode tx⟩ (Nat.zero_le _)
    refine ⟨_,by rw [counted.listed,List.append_assoc],more _,?_,small,counted.limit,?_⟩
    · rw [sum]
      exact gas
    · change tally.applied + min (tally.failed + 1) maxU32 = _
      rw [Nat.min_eq_left counters.2,length]
      omega
  | succeeded fits applied =>
    obtain ⟨sum,small⟩ := grown ⟨ReceiptStatus.success.asU32,txGas tx,txKindCode tx⟩ cost
    refine ⟨_,by rw [counted.listed,List.append_assoc],more _,?_,small,fits,?_⟩
    · change saturatingAdd tally.gasUsed (txGas tx) = _
      rw [precise,sum,gas,Nat.add_assoc]
    · change min (tally.applied + 1) maxU32 + tally.failed = _
      rw [Nat.min_eq_left counters.1,length]
      omega
  | @failed failure fits refused =>
    obtain ⟨sum,small⟩ := grown ⟨failure.status.asU32,txGas tx,txKindCode tx⟩ cost
    refine ⟨_,by rw [counted.listed,List.append_assoc],more _,?_,small,fits,?_⟩
    · change saturatingAdd tally.gasUsed (txGas tx) = _
      rw [precise,sum,gas,Nat.add_assoc]
    · change tally.applied + min (tally.failed + 1) maxU32 = _
      rw [Nat.min_eq_left counters.2,length]
      omega

theorem counted_run (state : State Hash Key Sig) (limit : start.gasUsed ≤ facts.input.blockGasLimit)
    (processed : List (Transaction Hash Key Sig)) (roomy : Roomy start processed.length) :
    ∃ receipts, Counted facts start processed (processed.foldl (executeTransaction host facts) (state,start)).2 receipts := by
  induction processed using List.reverseRecOn with
  | nil => exact ⟨[],by simp,rfl,rfl,Nat.zero_le _,limit,rfl⟩
  | append_singleton earlier tx ih =>
    rw [List.length_append,List.length_singleton] at roomy
    obtain ⟨receipts,counted⟩ := ih ⟨by have := roomy.1; rw [Nat.add_mul] at this; omega,by have := roomy.2; omega⟩
    obtain ⟨receipt,next⟩ := counted_step counted roomy (execute_ran host facts _ _ tx)
    exact ⟨receipts ++ [receipt],by rw [List.foldl_append]; exact next⟩

theorem receipts_grow (host : Host Hash Key Sig) (facts : BlockFacts Hash Key Sig) (current : State Hash Key Sig × Tally) (transactions : List (Transaction Hash Key Sig)) :
    ∃ more, (transactions.foldl (executeTransaction host facts) current).2.receipts = current.2.receipts ++ more := by
  induction transactions generalizing current with
  | nil => exact ⟨[],by simp⟩
  | cons tx rest ih =>
    obtain ⟨more,later⟩ := ih (executeTransaction host facts current tx)
    have step := execute_ran host facts current.1 current.2 tx
    have one : ∃ receipt, (executeTransaction host facts current tx).2.receipts = current.2.receipts ++ [receipt] := by
      generalize executeTransaction host facts (current.1,current.2) tx = after at step
      obtain ⟨next,tally⟩ := after
      cases step with
      | skipped | succeeded | failed => exact ⟨_,rfl⟩
    obtain ⟨receipt,first⟩ := one
    exact ⟨receipt::more,by rw [List.foldl_cons,later,first,List.append_assoc]; rfl⟩

def evidenceReceipt : Receipt := ⟨ReceiptStatus.success.asU32,gasEvidenceAdmission,7⟩

theorem evidence_step (state : State Hash Key Sig) (claim : EvidenceSubmission Hash Key)
    (fits : saturatingAdd start.gasUsed gasEvidenceAdmission ≤ facts.input.blockGasLimit) :
    executeTransaction host facts (state,start) (.submitEvidence claim) = (state,{start with
      applied := min (start.applied + 1) maxU32
      gasUsed := saturatingAdd start.gasUsed gasEvidenceAdmission
      receipts := start.receipts ++ [evidenceReceipt]}) := by
  have step := execute_ran host facts state start (.submitEvidence claim)
  generalize executeTransaction host facts (state,start) (.submitEvidence claim) = after at step ⊢
  obtain ⟨next,tally⟩ := after
  cases step with
  | skipped full => exact absurd fits (Nat.not_le.mpr full)
  | succeeded _ applied =>
    cases applied
    simp [txChargesFee,txGas,txKindCode,evidenceReceipt]
  | failed _ refused => cases refused

theorem evidence_run (host : Host Hash Key Sig) (facts : BlockFacts Hash Key Sig) (state : State Hash Key Sig)
    (claims : List (EvidenceSubmission Hash Key)) (start : Tally)
    (reserved : start.gasUsed + claims.length * gasEvidenceAdmission ≤ facts.input.blockGasLimit)
    (small : start.gasUsed + claims.length * gasEvidenceAdmission < 2 ^ 64) :
    ((claims.map Transaction.submitEvidence).foldl (executeTransaction host facts) (state,start)).2.receipts =
      start.receipts ++ claims.map fun _ => evidenceReceipt := by
  induction claims generalizing start with
  | nil => simp
  | cons claim rest ih =>
    rw [List.length_cons,Nat.add_mul,Nat.one_mul] at reserved small
    have precise : saturatingAdd start.gasUsed gasEvidenceAdmission = start.gasUsed + gasEvidenceAdmission := by
      simp only [saturatingAdd,maxU64]
      omega
    rw [List.map_cons,List.foldl_cons,evidence_step state claim (by omega),ih _ (by simp only [precise]; omega) (by simp only [precise]; omega)]
    simp
end
section
variable {Hash Key Sig : Type} [LinearOrder Hash] [DecidableEq Key] {output : BlockOutput Hash Key Sig}

def IsEvidence : Transaction Hash Key Sig → Prop
  | .submitEvidence _ => True
  | _ => False

variable {count : Nat} {transactions : List (Transaction Hash Key Sig)}

theorem order_ordinary {chainId height total : Nat}
    (ordered : checkOrder host chainId height anchor true count transactions = .ok total) : ∀ tx ∈ transactions, ¬IsEvidence tx := by
  induction transactions generalizing count with
  | nil => simp
  | cons tx rest ih =>
    cases tx with
    | submitEvidence claim =>
      simp only [checkOrder,bind_ok,ensure_ok] at ordered
      obtain ⟨_,wrong,_⟩ := ordered
      cases wrong
    | _ => exact List.forall_mem_cons.mpr ⟨id,ih ordered⟩

theorem order_split {chainId height total : Nat} (ordered : checkOrder host chainId height anchor false count transactions = .ok total) :
    ∃ rest, transactions = (submissions transactions).map .submitEvidence ++ rest ∧ ∀ tx ∈ rest, ¬IsEvidence tx := by
  induction transactions generalizing count with
  | nil => exact ⟨[],rfl,by simp⟩
  | cons tx rest ih =>
    cases tx with
    | submitEvidence claim =>
      simp only [checkOrder,bind_ok,ensure_ok] at ordered
      obtain ⟨_,-,_,-,_,-,later⟩ := ordered
      obtain ⟨plain,split,clean⟩ := ih later
      exact ⟨plain,by rw [submissions,List.map_cons,List.cons_append,← split],clean⟩
    | _ => exact ⟨_,rfl,List.forall_mem_cons.mpr ⟨id,order_ordinary ordered⟩⟩

def startTally (mandatory : Mandatory Hash Key Sig) : Tally := ⟨0,0,mandatory.gas,0,mandatory.executed.map sanctionReceipt⟩

def reached (host : Host Hash Key Sig) (input : StfInput Hash Key Sig) (state : State Hash Key Sig) (output : BlockOutput Hash Key Sig)
    (earlier : List (Transaction Hash Key Sig)) : State Hash Key Sig × Tally :=
  earlier.foldl (executeTransaction host (blockFacts input (loadRuntimePolicy state) output.mandatory.queue))
    (expire output.mandatory.state input.evidenceAnchor.chunkId,startTally output.mandatory)

theorem block_reached (done : applyBlock host input state = .ok output) :
    output.tally = (reached host input state output input.transactions).2 ∧
      output.state = creditProposer (reached host input state output input.transactions).1 input.proposerAddress output.tally.proposerFee := by
  obtain ⟨-,-,ordinary⟩ := apply_block_ok done
  obtain ⟨final,tally⟩ := Prod.mk.inj ordinary
  exact ⟨tally.symm,by rw [← final,← tally]; rfl⟩

theorem sanction_gas (executed : List (Execution Hash Key)) : gasSum (executed.map sanctionReceipt) = executed.length * gasSanction := by
  induction executed with
  | nil => simp [gasSum]
  | cons done rest ih =>
    rw [List.map_cons,List.length_cons,Nat.add_mul,← ih]
    simp only [gasSum,List.map_cons,List.sum_cons,sanctionReceipt]
    omega

theorem mandatory_gas (done : applyBlock host input state = .ok output) :
    gasSum (output.mandatory.executed.map sanctionReceipt) = output.mandatory.gas ∧ output.mandatory.gas ≤ maxPending * gasSanction ∧
      output.mandatory.gas + (submissions input.transactions).length * gasEvidenceAdmission ≤ input.blockGasLimit := by
  obtain ⟨-,⟨totals,after,run⟩,-⟩ := apply_block_ok done
  have count : output.mandatory.executed.length = executionCount input (applyParticipation state input.participation) (loadRuntimePolicy state) := by
    have items := congrArg List.length (execute_all_ok run.executed).1
    rw [List.length_map,List.length_take] at items
    rw [items]
    exact Nat.min_eq_left (Nat.min_le_left _ _)
  obtain ⟨⟨-,-,-,-,pending,-,-,-,executions,-⟩,-⟩ := run.valid
  have admitted : output.mandatory.admitted.length = (submissions input.transactions).length := by
    rw [run.admitted,List.length_map]
    rfl
  refine ⟨by rw [sanction_gas,run.reserved,count],?_,?_⟩
  · have bounded : executionCount input (applyParticipation state input.participation) (loadRuntimePolicy state) ≤ maxPending :=
      Nat.le_trans (Nat.min_le_right _ _) (Nat.le_trans executions pending)
    rw [run.reserved]
    exact Nat.mul_le_mul_right gasSanction bounded
  · rw [run.reserved,← admitted]
    exact run.gas

theorem block_roomy (done : applyBlock host input state = .ok output) (short : count < 2 ^ 32) :
    Roomy (startTally output.mandatory) count := by
  obtain ⟨-,small,-⟩ := mandatory_gas done
  have bound : count * maxTxGas ≤ 2 ^ 32 * maxTxGas := Nat.mul_le_mul_right _ (Nat.le_of_lt short)
  refine ⟨?_,by simpa [startTally] using short⟩
  simp only [startTally,maxPending,gasSanction,maxTxGas] at *
  omega

theorem block_counted (done : applyBlock host input state = .ok output) (short : earlier.length < 2 ^ 32) :
    ∃ receipts, Counted (blockFacts input (loadRuntimePolicy state) output.mandatory.queue) (startTally output.mandatory) earlier
      (reached host input state output earlier).2 receipts := by
  obtain ⟨-,-,reserved⟩ := mandatory_gas done
  exact counted_run _ (Nat.le_trans (Nat.le_add_right _ _) reserved) earlier (block_roomy done short)

theorem skipped_state (done : applyBlock host input state = .ok output) (short : (earlier ++ tx::later).length < 2 ^ 32)
    (full : input.blockGasLimit < (reached host input state output earlier).2.gasUsed + txGas tx) :
    (reached host input state output (earlier ++ [tx])).1 = (reached host input state output earlier).1 := by
  rw [List.length_append,List.length_cons] at short
  obtain ⟨receipts,counted⟩ := block_counted done (show earlier.length < 2 ^ 32 by omega)
  obtain ⟨room,-⟩ := block_roomy done (show earlier.length + 1 < 2 ^ 32 by omega)
  have precise : saturatingAdd (reached host input state output earlier).2.gasUsed (txGas tx) =
      (reached host input state output earlier).2.gasUsed + txGas tx := by
    have cost := tx_gas_le tx
    have gas := counted.gas
    have small := counted.small
    rw [Nat.add_mul,Nat.one_mul] at room
    simp only [saturatingAdd,maxU64]
    omega
  have step : (reached host input state output (earlier ++ [tx])) =
      executeTransaction host (blockFacts input (loadRuntimePolicy state) output.mandatory.queue) (reached host input state output earlier) tx := by
    rw [reached,List.foldl_append]
    rfl
  rw [← precise] at full
  rw [step]
  generalize reached host input state output earlier = current at full
  have ran := execute_ran host (blockFacts input (loadRuntimePolicy state) output.mandatory.queue) current.1 current.2 tx
  generalize executeTransaction host (blockFacts input (loadRuntimePolicy state) output.mandatory.queue) (current.1,current.2) tx = after at ran
  obtain ⟨next,tally⟩ := after
  cases ran with
  | skipped => rfl
  | succeeded fits | failed fits => exact absurd fits (Nat.not_le.mpr full)

theorem evidence_receipts (done : applyBlock host input state = .ok output) (short : input.transactions.length < 2 ^ 32)
    (listed : output.tally.receipts = output.mandatory.executed.map sanctionReceipt ++ receipts) {place : Nat}
    (found : input.transactions[place]? = some (.submitEvidence claim)) : receipts[place]? = some evidenceReceipt := by
  obtain ⟨checked,-,-⟩ := apply_block_ok done
  obtain ⟨-,small,reserved⟩ := mandatory_gas done
  simp only [checkAdmissions,bind_ok,ensure_ok] at checked
  obtain ⟨_,-,count,ordered,capped⟩ := checked
  obtain ⟨rest,split,clean⟩ := order_split ordered
  have few : (submissions input.transactions).length ≤ input.transactions.length := by
    have whole := congrArg List.length split
    rw [List.length_append,List.length_map] at whole
    omega
  have admissions := evidence_run host (blockFacts input (loadRuntimePolicy state) output.mandatory.queue)
    (expire output.mandatory.state input.evidenceAnchor.chunkId) (submissions input.transactions) (startTally output.mandatory)
    reserved (by simp only [startTally,gasEvidenceAdmission,maxPending,gasSanction] at *; omega)
  obtain ⟨more,final⟩ := receipts_grow host (blockFacts input (loadRuntimePolicy state) output.mandatory.queue)
    (reached host input state output ((submissions input.transactions).map .submitEvidence)) rest
  have whole : output.tally.receipts = output.mandatory.executed.map sanctionReceipt ++
      ((submissions input.transactions).map (fun _ => evidenceReceipt) ++ more) := by
    rw [(block_reached done).1,← List.append_assoc]
    refine Eq.trans ?_ (final.trans (congrArg (· ++ more) admissions))
    conv => lhs; rw [split]
    rw [reached,List.foldl_append]
    rfl
  rw [listed] at whole
  rw [List.append_cancel_left whole]
  rw [split] at found
  rcases Nat.lt_or_ge place ((submissions input.transactions).map (fun _ => evidenceReceipt)).length with inside | outside
  · rw [List.getElem?_append_left inside,List.getElem?_map]
    rw [List.length_map] at inside
    simp [inside]
  · rw [List.length_map] at outside
    rw [List.getElem?_append_right (by simpa using outside)] at found
    exact absurd trivial (clean _ (List.mem_of_getElem? found))

theorem gas_accounted (host : Host Hash Key Sig) (input : StfInput Hash Key Sig) (state : State Hash Key Sig)
    (output : BlockOutput Hash Key Sig) (short : input.transactions.length < 2 ^ 32) (done : applyBlock host input state = .ok output) :
    output.tally.gasUsed = (output.tally.receipts.map (·.gasUsed)).sum ∧ output.tally.gasUsed ≤ input.blockGasLimit ∧
      (∃ receipts, output.tally.receipts = output.mandatory.executed.map sanctionReceipt ++ receipts ∧
        receipts.length = input.transactions.length ∧
        ∀ (place : Nat) (claim : EvidenceSubmission Hash Key), input.transactions[place]? = some (Transaction.submitEvidence claim) →
          (receipts[place]?).map Receipt.statusCode = some ReceiptStatus.success.asU32) ∧
      output.tally.applied + output.tally.failed = input.transactions.length ∧
      ∀ earlier tx later, input.transactions = earlier ++ tx::later →
        input.blockGasLimit < (reached host input state output earlier).2.gasUsed + txGas tx →
        (reached host input state output (earlier ++ [tx])).1 = (reached host input state output earlier).1 := by
  obtain ⟨charged,-,-⟩ := mandatory_gas done
  obtain ⟨tally,-⟩ := block_reached done
  obtain ⟨receipts,counted⟩ := block_counted done short
  rw [← tally] at counted
  refine ⟨?_,counted.limit,⟨receipts,counted.listed,counted.length,fun place claim found => ?_⟩,?_,fun earlier tx later split full => ?_⟩
  · rw [counted.gas,show (output.tally.receipts.map (·.gasUsed)).sum = gasSum output.tally.receipts from rfl,counted.listed,gas_sum_append]
    exact congrArg (· + gasSum receipts) charged.symm
  · rw [evidence_receipts done short counted.listed found]
    rfl
  · rw [counted.count]
    exact Nat.zero_add _
  · exact skipped_state done (by rw [← split]; exact short) full
end
section
def crowdedProposal : Transaction Nat Nat Nat := .proposePolicy ⟨1,widePolicy,1,0⟩

-- Two admissions, one execution, a transfer and a proposal that does not fit.
def crowdedTransactions (height : Nat) : List (Transaction Nat Nat Nat) :=
  if height = 2 then slashClaims 2 2 ++ [.transfer ⟨1,2,5,0,0⟩,crowdedProposal] else []

def crowdedCheck (state : State Nat Nat Nat) : Bool :=
  (applyBlock sampleHost (tightInput crowdedTransactions 2) state).toOption.any fun output =>
    decide (output.tally.failed = 1 ∧ (tightInput crowdedTransactions 2).blockGasLimit <
      (reached sampleHost (tightInput crowdedTransactions 2) state output ((crowdedTransactions 2).take 3)).2.gasUsed + txGas crowdedProposal)

theorem crowded_block_accounted : ∃ start blocks state output, tightGenesis = .ok start ∧
    Runs (Advances sampleHost tightSpec) start blocks state ∧ applyBlock sampleHost (tightInput crowdedTransactions 2) state = .ok output ∧
    output.tally.gasUsed = (output.tally.receipts.map (·.gasUsed)).sum ∧ output.tally.gasUsed ≤ 105000 ∧
    output.tally.applied + output.tally.failed = 4 ∧ output.tally.failed = 1 ∧
    (reached sampleHost (tightInput crowdedTransactions 2) state output (crowdedTransactions 2)).1 =
      (reached sampleHost (tightInput crowdedTransactions 2) state output ((crowdedTransactions 2).take 3)).1 := by
  have facts : (tightRun sampleHost crowdedTransactions 1).toOption.any (fun done => crowdedCheck done.2.2.state) = true := by
    decide +kernel
  obtain ⟨⟨start,blocks,tip⟩,done,facts⟩ := completed_check facts
  change crowdedCheck tip.state = true at facts
  obtain ⟨output,applied,facts⟩ := completed_check facts
  obtain ⟨failed,full⟩ := of_decide_eq_true facts
  obtain ⟨built,run⟩ := tight_runs done
  obtain ⟨gas,limit,-,count,skipped⟩ := gas_accounted sampleHost (tightInput crowdedTransactions 2) tip.state output (by decide) applied
  have last : crowdedTransactions 2 = (crowdedTransactions 2).take 3 ++ [crowdedProposal] := by decide
  refine ⟨start,blocks,tip.state,output,built,run,applied,gas,limit,count,failed,?_⟩
  have unchanged := skipped ((crowdedTransactions 2).take 3) crowdedProposal [] last full
  rw [← last] at unchanged
  exact unchanged
end
end Neutrino.Runtime
