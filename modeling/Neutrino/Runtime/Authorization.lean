import Neutrino.Runtime.Gas

-- Every payer of a failed transaction signed it, has its nonce and covers the fee
-- (neutrino-default, staking.rs and governance.rs).
namespace Neutrino.Runtime
open Checks Consensus Chain Effects Ledger

section
variable {Hash Key Sig : Type} [LinearOrder Hash] [DecidableEq Key] (host : Host Hash Key Sig) (chainId : Nat)

structure SignedTx (Hash Key Sig : Type) where
  signer : Hash
  nonce : Nat
  message : SigMessage Hash Key
  signature : Sig

def Transaction.signed : Transaction Hash Key Sig → Option (SignedTx Hash Key Sig)
  | .transfer tx => some ⟨tx.source,tx.nonce,.transfer chainId tx.source tx.target tx.amount tx.nonce,tx.signature⟩
  | .stake tx => some ⟨tx.validator,tx.nonce,.stake chainId tx.validator tx.amount tx.nonce,tx.signature⟩
  | .unstake tx => some ⟨tx.validator,tx.nonce,.unstake chainId tx.validator tx.amount tx.nonce,tx.signature⟩
  | .deposit tx => some ⟨tx.depositor,tx.nonce,.deposit chainId tx.depositor tx.validator tx.amount tx.nonce,tx.signature⟩
  | .voluntaryExit tx => some ⟨tx.validator,tx.nonce,.voluntaryExit chainId tx.validator tx.nonce,tx.signature⟩
  | .withdraw tx => some ⟨tx.validator,tx.nonce,.withdraw chainId tx.validator tx.nonce,tx.signature⟩
  | .registerValidator tx => some ⟨tx.depositor,tx.nonce,
      .registerValidator chainId tx.depositor tx.validator tx.blsPubkey tx.depositAmount tx.nonce,tx.signature⟩
  | .submitEvidence _ => none
  | .proposeUpgrade tx => some ⟨tx.proposer,tx.nonce,.proposeUpgrade chainId tx.proposer
      (host.proposalId tx.proposer (.programs tx.programs tx.artifacts tx.activateAtChunk)) tx.nonce,tx.signature⟩
  | .voteUpgrade tx => some ⟨tx.voter,tx.nonce,.voteUpgrade chainId tx.voter tx.proposalId tx.nonce,tx.signature⟩
  | .proposePolicy tx => some ⟨tx.proposer,tx.nonce,.proposePolicy chainId tx.proposer
      (host.proposalId tx.proposer (.policy tx.policy)) tx.nonce,tx.signature⟩

def SignedTx.Verified (signed : SignedTx Hash Key Sig) : Prop := host.verifySignature signed.signer signed.message signed.signature = true

-- The signature verifies and the nonce is the signer's next.
@[mk_iff] structure Carries (state : State Hash Key Sig) (signed : SignedTx Hash Key Sig) : Prop where
  verified : signed.Verified host
  next : (loadAccount state signed.signer).nonce = signed.nonce

@[mk_iff] structure Entitled (state : State Hash Key Sig) (fee : Nat) (signed : SignedTx Hash Key Sig) : Prop extends Carries host state signed where
  covered : fee ≤ (loadAccount state signed.signer).balance

-- It carries the payer's signature and next nonce, and the payer covers the fee.
structure Authorized (state : State Hash Key Sig) (fee : Nat) (tx : Transaction Hash Key Sig) (payer : Hash)
    (signed : SignedTx Hash Key Sig) : Prop extends Entitled host state fee signed where
  signing : tx.signed host chainId = some signed
  signer : signed.signer = payer
end
variable {Hash Key Sig : Type} [LinearOrder Hash] [DecidableEq Key] {host : Host Hash Key Sig} {state : State Hash Key Sig} {fee : Nat}

def Consents (host : Host Hash Key Sig) (chainId : Nat) : Transaction Hash Key Sig → Prop
  | .registerValidator tx => host.verifySignature tx.validator
      (.registerValidator chainId tx.depositor tx.validator tx.blsPubkey tx.depositAmount tx.nonce) tx.validatorSignature = true
  | _ => True

section
variable {fails : Failure Hash → Prop} (signed : SignedTx Hash Key Sig) (free : ¬Entitled host state fee signed → ∀ status, fails (uncharged status))
include free

-- Signature, nonce and fee come first, in this order, and refuse at nobody's cost.
theorem authorize_ends {passes : Account → Prop} (tail : Entitled host state fee signed → passes (loadAccount state signed.signer)) :
    Ends (fun _ => Ends passes fails (authorize state signed.signer signed.nonce fee)) fails
      (authenticate host.verifySignature signed.signer signed.message signed.signature) := by
  simp only [authenticate,authorize,signerAccount,ends_bind,ends_ensure,ends_pure]
  refine ⟨fun verified => ⟨fun next => ⟨fun covered => tail ⟨⟨verified,next⟩,covered⟩,fun short => ?_⟩,fun other => ?_⟩,fun forged => ?_⟩
  · exact free (fun entitled => short entitled.covered) _
  · exact free (fun entitled => other entitled.next) _
  · exact free (fun entitled => forged entitled.verified) _

-- Then what the transaction moves beside the fee.
theorem payer_ends (blamed : Entitled host state fee signed → ∀ status, fails (charged signed.signer status))
    {passes : Account × Nat → Prop} (tail : ∀ debit, Entitled host state fee signed → passes (loadAccount state signed.signer,debit)) :
    Ends (fun _ => Ends passes fails (checkPayer state signed.signer signed.nonce amount fee)) fails
      (authenticate host.verifySignature signed.signer signed.message signed.signature) := by
  simp only [checkPayer,ends_bind]
  refine authorize_ends signed free fun entitled => ?_
  simp only [ends_required,ends_ensure,ends_pure]
  exact ⟨fun debit _ => ⟨fun _ => tail debit entitled,fun _ => blamed entitled _⟩,fun _ => blamed entitled _⟩
end

-- A failure is charged once the signature, the nonce and the fee are checked.
theorem transaction_ends {fails : Failure Hash → Prop} (signing : tx.signed host facts.input.chainId = some signed)
    (carried : Carries host state signed → passes) (blamed : Entitled host state fee signed → ∀ status, fails (charged signed.signer status))
    (free : (Entitled host state fee signed → Consents host facts.input.chainId tx → ¬(loadAccount state signed.signer).balance +
        maturedTotal (loadWithdrawalQueue state signed.signer) facts.input.blockHeight ≤ maxU128) → ∀ status, fails (uncharged status)) :
    Ends (fun _ => passes) fails (transactionResult host facts state fee tx) := by
  have unpaid (refused : ¬Entitled host state fee signed) := free fun entitled => absurd entitled refused
  cases tx with
  | transfer tx | stake tx | deposit tx | unstake tx | voluntaryExit tx =>
    cases signing
    simp only [transactionResult,applyTransaction,applyTransfer,checkTransfer,applyStake,checkStake,applyDeposit,checkDeposit,applyUnstake,
      checkUnstake,applyVoluntaryExit,checkVoluntaryExit,checkBond,result_get,result_attempt,ends_bind]
    refine payer_ends _ unpaid blamed fun debit entitled => ?_
    simp [-bind_pure_comp,requireAmount,requireBonded,carried entitled.toCarries,blamed entitled,apply_ite (Ends _ fails)]
  | withdraw tx =>
    cases signing
    simp only [entitled_iff,carries_iff,SignedTx.Verified,Consents] at carried blamed free
    simp [-bind_pure_comp,transactionResult,applyTransaction,applyWithdraw,checkWithdraw,signerAccount,authenticate,apply_ite fails]
    grind [checkedAdd128]
  | registerValidator tx =>
    cases signing
    simp only [entitled_iff,carries_iff,SignedTx.Verified,Consents] at carried blamed free
    simp [-bind_pure_comp,transactionResult,applyTransaction,applyRegisterValidator,checkRegisterValidator,checkPayer,authorize,signerAccount,authenticate,
      requireAmount,requireBonded]
    refine ⟨fun verified => ?_,fun unverified => ?_⟩
    · grind
    · grind
  | submitEvidence => cases signing
  | proposeUpgrade tx | voteUpgrade tx | proposePolicy tx =>
    cases signing
    simp only [transactionResult,applyTransaction,applyPropose,checkPropose,applyProposePolicy,checkProposePolicy,applyVote,checkVote,
      checkNewProposal,authorizeSigner,result_get,result_attempt,ends_bind]
    refine authorize_ends _ unpaid fun entitled => ?_
    simp [-bind_pure_comp,carried entitled.toCarries,blamed entitled]

theorem transaction_authorized (tx : Transaction Hash Key Sig) :
    Ends (fun _ => ∀ signed, tx.signed host facts.input.chainId = some signed → Carries host state signed)
      (fun failure => ∀ payer, failure.payer = some payer → ∃ signed, Authorized host facts.input.chainId state fee tx payer signed)
      (transactionResult host facts state fee tx) := by
  cases signing : tx.signed host facts.input.chainId with
  | none =>
    cases tx <;> cases signing
    exact nofun
  | some signed =>
    apply transaction_ends signing
    · intro carries other same
      cases same
      exact carries
    · intro entitled status payer same
      cases same
      exact ⟨signed,entitled,signing,rfl⟩
    · intro _ status payer same
      cases same

theorem failure_authorized {tx : Transaction Hash Key Sig} {failure : Failure Hash}
    (refused : transactionResult host facts state fee tx = .error failure) (blamed : failure.payer = some payer) :
    ∃ signed, Authorized host facts.input.chainId state fee tx payer signed := by
  have ends : Ends _ _ (transactionResult host facts state fee tx) := transaction_authorized tx
  rw [refused] at ends
  exact ends payer blamed
end Neutrino.Runtime
