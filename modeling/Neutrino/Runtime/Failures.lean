import Neutrino.Runtime.Authorization
import Neutrino.Runtime.Conservation

-- A failed transaction touches its payer's account alone (neutrino-default, lib.rs).
namespace Neutrino.Runtime
open Checks Consensus Chain Ledger

section
variable {Hash Key Sig : Type} [LinearOrder Hash] [DecidableEq Key] (host : Host Hash Key Sig) (facts : BlockFacts Hash Key Sig)

-- Execution appends one receipt for the transaction; this one reports a failure.
def ReportsFailure (state : State Hash Key Sig) (tally : Tally) (tx : Transaction Hash Key Sig) : Prop :=
  ∃ receipt, (executeTransaction host facts (state,tally) tx).2.receipts = tally.receipts ++ [receipt] ∧
    receipt.statusCode ≠ ReceiptStatus.success.asU32

def chargedPayer (state : State Hash Key Sig) (tally : Tally) (tx : Transaction Hash Key Sig) : Option Hash :=
  if facts.input.blockGasLimit < saturatingAdd tally.gasUsed (txGas tx) then none
  else match transactionResult host facts state (transactionFee facts tx) tx with
    | .ok _ => none
    | .error failure => if txChargesFee tx then failure.payer else none

variable {host facts} {state : State Hash Key Sig} {tally : Tally}

structure Charges (facts : BlockFacts Hash Key Sig) (state : State Hash Key Sig) (tx : Transaction Hash Key Sig) (payer : Hash)
    (next : State Hash Key Sig) : Prop where
  frame : Frame (· = .account payer) state next
  covered : transactionFee facts tx ≤ (loadAccount state payer).balance
  balance : (loadAccount next payer).balance = (loadAccount state payer).balance - transactionFee facts tx
  nonce : (loadAccount state payer).nonce < maxU64 → (loadAccount next payer).nonce = (loadAccount state payer).nonce + 1

theorem store_account_self (state : State Hash Key Sig) (address : Hash) (account : Account) :
    loadAccount (storeAccount state address account) address = account := by
  rw [loadAccount,storeAccount,AList.lookup_insert]
  rfl

theorem charge_failure_charges (covered : transactionFee facts tx ≤ (loadAccount state payer).balance) :
    Charges facts state tx payer (chargeFailure state payer (transactionFee facts tx)).2 ∧
      (chargeFailure state payer (transactionFee facts tx)).1 = transactionFee facts tx := by
  have paid : min (transactionFee facts tx) (loadAccount state payer).balance = transactionFee facts tx := Nat.min_eq_left covered
  simp only [chargeFailure,paid]
  refine ⟨⟨fun key other => AList.lookup_insert_ne other,covered,?_,fun room => ?_⟩,trivial⟩
  · rw [store_account_self]
    rfl
  · rw [store_account_self]
    simp only [spend,saturatingAdd]
    omega

theorem failed_step (range : tally.proposerFee ≤ maxU128) (failed : ReportsFailure host facts state tally tx) :
    (∀ payer, chargedPayer host facts state tally tx = some payer →
      Charges facts state tx payer (executeTransaction host facts (state,tally) tx).1 ∧
      (executeTransaction host facts (state,tally) tx).2.proposerFee = saturatingAdd128 tally.proposerFee (transactionFee facts tx)) ∧
    (chargedPayer host facts state tally tx = none → (executeTransaction host facts (state,tally) tx).1 = state ∧
      (executeTransaction host facts (state,tally) tx).2.proposerFee = tally.proposerFee) := by
  obtain ⟨receipt,appended,status⟩ := failed
  have step := execute_ran host facts state tally tx
  generalize executeTransaction host facts (state,tally) tx = after at step appended ⊢
  obtain ⟨next,counted⟩ := after
  have free : saturatingAdd128 tally.proposerFee 0 = tally.proposerFee := Nat.min_eq_left range
  cases step with
  | skipped full =>
    rw [chargedPayer,if_pos full]
    exact ⟨nofun,fun _ => ⟨rfl,rfl⟩⟩
  | succeeded fits applied =>
    obtain rfl : receipt = _ := (List.cons.inj (List.append_cancel_left appended)).1.symm
    exact absurd rfl status
  | @failed failure fits refused =>
    rw [chargedPayer,if_neg (Nat.not_lt.mpr fits),refused]
    simp only
    cases charges : txChargesFee tx with
    | false =>
      refine ⟨nofun,fun _ => ?_⟩
      cases failure.payer <;> exact ⟨rfl,free⟩
    | true =>
      cases blamed : failure.payer with
      | none => exact ⟨nofun,fun _ => ⟨rfl,free⟩⟩
      | some payer =>
        obtain ⟨signed,authorized⟩ := failure_authorized refused blamed
        have covered := authorized.covered
        rw [authorized.signer] at covered
        obtain ⟨spends,paid⟩ := charge_failure_charges covered
        refine ⟨?_,nofun⟩
        rintro _ ⟨⟩
        exact ⟨spends,congrArg (saturatingAdd128 tally.proposerFee) paid⟩

variable (host facts state tally tx)

theorem failed_transactions_frame (range : tally.proposerFee ≤ maxU128) (failed : ReportsFailure host facts state tally tx) :
    (∀ payer, chargedPayer host facts state tally tx = some payer → (loadAccount state payer).nonce < maxU64 →
      Frame (· = .account payer) state (executeTransaction host facts (state,tally) tx).1 ∧
      (loadAccount (executeTransaction host facts (state,tally) tx).1 payer).balance + transactionFee facts tx =
        (loadAccount state payer).balance ∧
      (loadAccount (executeTransaction host facts (state,tally) tx).1 payer).nonce = (loadAccount state payer).nonce + 1 ∧
      (executeTransaction host facts (state,tally) tx).2.proposerFee = min (tally.proposerFee + transactionFee facts tx) maxU128 ∧
      (wealth state + tally.proposerFee ≤ maxU128 →
        (executeTransaction host facts (state,tally) tx).2.proposerFee = tally.proposerFee + transactionFee facts tx)) ∧
    (chargedPayer host facts state tally tx = none → (executeTransaction host facts (state,tally) tx).1 = state ∧
      (executeTransaction host facts (state,tally) tx).2.proposerFee = tally.proposerFee) := by
  obtain ⟨charging,sparing⟩ := failed_step range failed
  refine ⟨fun payer blamed room => ?_,sparing⟩
  obtain ⟨spends,pot⟩ := charging payer blamed
  have covered := spends.covered
  have balance := spends.balance
  refine ⟨spends.frame,by omega,spends.nonce room,pot,fun supply => ?_⟩
  have own := balance_le state payer
  rw [pot,saturating_exact (by omega)]
end
section
def dearPolicy : RuntimePolicy := {samplePolicy 1 with gasPrice := 2 ^ 113}

def richState : State Nat Nat Nat :=
  (((∅ : AList (Row Nat Nat Nat)).insert .runtimePolicy dearPolicy).insert (.account 1) ⟨0,maxU128⟩).insert (.account 2) ⟨0,maxU128⟩

def paidTransfer : Transaction Nat Nat Nat := .transfer ⟨1,3,0,0,0⟩
def overflowingTransfer : Transaction Nat Nat Nat := .transfer ⟨2,3,maxU128,0,0⟩
def richInput : StfInput Nat Nat Nat := {sampleInput 3 with transactions := [paidTransfer,overflowingTransfer]}
def richFacts : BlockFacts Nat Nat Nat := blockFacts richInput dearPolicy []
def afterFirst : State Nat Nat Nat × Tally := executeTransaction sampleHost richFacts (richState,⟨0,0,0,0,[]⟩) paidTransfer

-- The second fee no longer fits the pot, which keeps only a part of it.
theorem pot_loses_fee : ReportsFailure sampleHost richFacts afterFirst.1 afterFirst.2 overflowingTransfer ∧
    chargedPayer sampleHost richFacts afterFirst.1 afterFirst.2 overflowingTransfer = some 2 ∧ (loadAccount afterFirst.1 2).nonce < maxU64 ∧
    (executeTransaction sampleHost richFacts afterFirst overflowingTransfer).2.proposerFee <
      afterFirst.2.proposerFee + transactionFee richFacts overflowingTransfer ∧
    ∃ output, applyBlock sampleHost richInput richState = .ok output ∧
      (executeTransaction sampleHost richFacts afterFirst overflowingTransfer).2 = output.tally := by
  have facts : (applyBlock sampleHost richInput richState).toOption.any (fun output =>
      decide ((executeTransaction sampleHost richFacts afterFirst overflowingTransfer).2 = output.tally)) = true := by
    decide +kernel
  obtain ⟨output,done,same⟩ := completed_check facts
  refine ⟨⟨⟨5,21000,0⟩,by decide +kernel,by decide⟩,by decide +kernel,by decide +kernel,by decide +kernel,output,done,of_decide_eq_true same⟩

def modestState : State Nat Nat Nat := ((∅ : AList (Row Nat Nat Nat)).insert .runtimePolicy (samplePolicy 1)).insert (.account 2) ⟨0,30000⟩
def modestFacts : BlockFacts Nat Nat Nat := blockFacts richInput (samplePolicy 1) []

theorem overdrawn_transfer_charged : chargedPayer sampleHost modestFacts modestState ⟨0,0,0,0,[]⟩ overflowingTransfer = some 2 ∧
    (executeTransaction sampleHost modestFacts (modestState,⟨0,0,0,0,[]⟩) overflowingTransfer).2.proposerFee =
      transactionFee modestFacts overflowingTransfer ∧
    (loadAccount (executeTransaction sampleHost modestFacts (modestState,⟨0,0,0,0,[]⟩) overflowingTransfer).1 2).nonce = 1 := by
  have blamed : chargedPayer sampleHost modestFacts modestState ⟨0,0,0,0,[]⟩ overflowingTransfer = some 2 := by decide +kernel
  have fresh : (loadAccount modestState 2).nonce = 0 := by decide +kernel
  have failed : ReportsFailure sampleHost modestFacts modestState ⟨0,0,0,0,[]⟩ overflowingTransfer :=
    ⟨⟨5,21000,0⟩,by decide +kernel,by decide⟩
  obtain ⟨charging,_⟩ := failed_transactions_frame sampleHost modestFacts modestState ⟨0,0,0,0,[]⟩ overflowingTransfer (by decide) failed
  obtain ⟨_,_,nonce,_,pot⟩ := charging 2 blamed (by rw [fresh]; decide)
  have supply : wealth modestState + 0 ≤ maxU128 := by decide +kernel
  exact ⟨blamed,(pot supply).trans (Nat.zero_add _),nonce.trans (by rw [fresh])⟩
end
end Neutrino.Runtime
