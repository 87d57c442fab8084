import Neutrino.Runtime.Holdings

-- Only its own signature or a sanction takes tokens from an address, and no signed
-- transaction takes effect twice.
namespace Neutrino.Runtime
open Checks Consensus Neutrino.Chain Ledger

section
variable {Hash Key Sig : Type} [LinearOrder Hash] [DecidableEq Key] (host : Host Hash Key Sig) (chainId : Nat)

-- Nothing is taken: neither balance nor stake falls and the queue stays as it is.
structure Untaken (before after : Holding) : Prop where
  balance : before.balance ≤ after.balance
  stake : before.stake ≤ after.stake
  queue : after.queue = before.queue

def Act.effect : Act Hash Key Sig → Option (SignedTx Hash Key Sig)
  | .transaction _ tx fate => if fate.effective then tx.signed host chainId else none
  | _ => none

-- The address signed this transaction with its next nonce, or was sanctioned.
inductive Licensed (address : Hash) (state : State Hash Key Sig) : Act Hash Key Sig → Prop where
  | signed {facts : BlockFacts Hash Key Sig} {tx : Transaction Hash Key Sig} {fate : Fate Hash} {signed : SignedTx Hash Key Sig}
    (chain : facts.input.chainId = chainId) (signing : tx.signed host chainId = some signed) (signer : signed.signer = address)
    (carries : Carries host state signed) : Licensed address state (.transaction facts tx fate)
  | sanctioned {done : Execution Hash Key} (names : done.offender = address) : Licensed address state (.sanction done)

def effects (address : Hash) (moments : List (Moment Hash Key Sig)) : List (SignedTx Hash Key Sig) :=
  (moments.filterMap (·.event.effect host chainId)).filter (decide <| ·.signer = address)

variable {host chainId} {tx : Transaction Hash Key Sig}

theorem effective_carries {tally : Tally}
    (effective : (fate host facts state tally tx).effective = true) (signing : tx.signed host facts.input.chainId = some signed) :
    Carries host state signed := by
  rw [fate] at effective
  split at effective
  · cases effective
  · split at effective
    next applied =>
      have ends : Ends _ _ (transactionResult host facts state (transactionFee facts tx) tx) := transaction_authorized tx
      rw [applied] at ends
      exact ends _ signing
    next failure refused =>
      split at effective
      · cases blamed : failure.payer with
        | none =>
          rw [blamed] at effective
          cases effective
        | some payer =>
          obtain ⟨other,authorized⟩ := failure_authorized refused blamed
          obtain rfl : other = signed := Option.some.inj (authorized.signing.symm.trans signing)
          exact authorized.toCarries
      · cases effective

theorem signed_exists (host : Host Hash Key Sig) (chainId : Nat) (signs : tx.signer = some signer) :
    ∃ signed, tx.signed host chainId = some signed ∧ signed.signer = signer := by
  cases tx with
  | submitEvidence submission => cases signs
  | _ =>
    cases signs
    exact ⟨_,rfl,rfl⟩

variable {event : Act Hash Key Sig}

theorem Shift.untaken (shift : Shift address event before after)
    (unsigned : event.signer ≠ some address) (spared : ∀ done, event = .sanction done → done.offender ≠ address) : Untaken before after := by
  cases shift with
  | gained more bonded apart spared fits => exact ⟨Nat.le_add_right _ _,Nat.le_add_right _ _,rfl⟩
  | spent debit refund bonded signs quiet covered refunds | unbonded amount signs unbonds covered within =>
    exact absurd signs unsigned
  | withdrew signs free fits covered => exact absurd (congrArg some signs) unsigned
  | deducted reward names within fits => exact absurd names (spared _ rfl)

theorem Shift.nonce (shift : Shift address event before after) :
    after.nonce = if event.signer = some address then saturatingAdd before.nonce 1 else before.nonce := by
  cases shift with
  | gained more bonded apart spared fits => rw [if_neg apart]
  | spent debit refund bonded signs quiet covered refunds => rw [if_pos signs]
  | unbonded amount signs unbonds covered within => exact (if_pos signs).symm
  | withdrew signs free fits covered => exact (if_pos (congrArg some signs)).symm
  | deducted reward names within fits => exact (if_neg nofun).symm

theorem effect_signer (effect : event.effect host chainId = some signed) : event.signer = some signed.signer := by
  cases event with
  | transaction facts tx fate =>
    simp only [Act.effect] at effect
    split at effect
    next effective => rw [Act.signer,if_pos effective,signed_signer effect]
    next => cases effect
  | _ => cases effect

theorem signer_effect (host : Host Hash Key Sig) (chainId : Nat) (signs : event.signer = some address) :
    ∃ signed, event.effect host chainId = some signed ∧ signed.signer = address := by
  cases event with
  | transaction facts tx fate =>
    simp only [Act.signer] at signs
    split at signs
    next effective =>
      obtain ⟨signed,signing,signer⟩ := signed_exists host chainId signs
      exact ⟨signed,by rw [Act.effect,if_pos effective,signing],signer⟩
    next => cases signs
  | _ => cases signs

def OfChain (chainId : Nat) (moment : Moment Hash Key Sig) : Prop :=
  ∀ facts tx fate, moment.event = .transaction facts tx fate → facts.input.chainId = chainId

theorem effect_carries (happens : Happens host moment) (chain : OfChain chainId moment)
    (effect : moment.event.effect host chainId = some signed) : Carries host moment.before signed := by
  cases happens with
  | transaction facts before tally tx =>
    obtain rfl := chain _ _ _ rfl
    simp only [Act.effect] at effect
    split at effect
    next effective => exact effective_carries effective effect
    next => cases effect
  | _ => cases effect

theorem moment_licensed (happens : Happens host moment) (ranged : Ranged moment.before) (chain : OfChain chainId moment)
    (taken : ¬Untaken (holding moment.before address) (holding moment.after address)) :
    Licensed host chainId address moment.before moment.event := by
  by_contra unlicensed
  refine taken ((moment_shift happens (ranged address)).untaken (fun signs => unlicensed ?_) fun done runs names => unlicensed ?_)
  · obtain ⟨signed,effect,signer⟩ := signer_effect host chainId signs
    have carries := effect_carries happens chain effect
    cases happens with
    | transaction facts before tally tx =>
      simp only [Act.effect] at effect
      split at effect
      next => exact .signed (chain _ _ _ rfl) effect signer carries
      next => cases effect
    | _ => cases effect
  · rw [runs]
    exact .sanctioned names

theorem effects_append (moments : List (Moment Hash Key Sig)) (moment : Moment Hash Key Sig) :
    effects host chainId address (moments ++ [moment]) = effects host chainId address moments ++
      ((moment.event.effect host chainId).filter (decide <| ·.signer = address)).toList := by
  simp only [effects,List.filterMap_append,List.filter_append]
  congr 1
  cases effect : moment.event.effect host chainId with
  | none => simp [effect]
  | some signed => by_cases own : signed.signer = address <;> simp [effect,own,Option.filter]

-- The signer's nonce counts what it signed and had executed.
def Numbered (host : Host Hash Key Sig) (chainId : Nat) (address : Hash) (start : Nat) (moments : List (Moment Hash Key Sig))
    (state : State Hash Key Sig) : Prop :=
  (holding state address).nonce < maxU64 →
    (effects host chainId address moments).map (·.nonce) = List.range' start (effects host chainId address moments).length ∧
    (holding state address).nonce = start + (effects host chainId address moments).length

theorem numbered_step (happens : Happens host moment) (ranged : Ranged moment.before)
    (chain : OfChain chainId moment) (numbered : Numbered host chainId address start moments moment.before) :
    Numbered host chainId address start (moments ++ [moment]) moment.after := by
  intro low
  have nonce := (moment_shift happens (ranged address)).nonce
  rw [effects_append]
  by_cases signs : moment.event.signer = some address
  · obtain ⟨signed,effect,signer⟩ := signer_effect host chainId signs
    rw [if_pos signs,saturatingAdd] at nonce
    obtain ⟨order,count⟩ := numbered (by omega)
    have own : (loadAccount moment.before signed.signer).nonce = signed.nonce := (effect_carries happens chain effect).next
    rw [signer] at own
    have next : (holding moment.before address).nonce = signed.nonce := own
    simp only [effect,Option.filter,signer,decide_true,if_true,Option.toList,List.map_append,List.map_cons,List.map_nil,List.length_append,
      List.length_singleton]
    rw [List.range'_concat,order,← next,count]
    exact ⟨by simp,by omega⟩
  · have silent : (moment.event.effect host chainId).filter (decide <| ·.signer = address) = none := by
      cases effect : moment.event.effect host chainId with
      | none => rfl
      | some signed =>
        have apart : signed.signer ≠ address := fun same => signs (same ▸ effect_signer effect)
        simp [apart]
    rw [if_neg signs] at nonce
    rw [silent,Option.toList,List.append_nil,nonce]
    exact numbered (nonce ▸ low)
end
section
variable {Hash Key Sig : Type} [LinearOrder Hash] [DecidableEq Key] {host : Host Hash Key Sig} {chainId : Nat}
variable {blocks : List (Executed Hash Key Sig)}

theorem history_chain (chain : ∀ block ∈ blocks, block.input.chainId = chainId) : ∀ moment ∈ history host blocks, OfChain chainId moment := by
  intro moment member facts tx fate runs
  obtain ⟨block,listed,within⟩ := List.mem_flatMap.mp member
  rw [moment_facts within runs]
  exact chain block listed

theorem run_numbered (ranged : Ranged genesis) (chain : ∀ moment ∈ moments, OfChain chainId moment)
    (run : Runs (Occurs host) genesis moments final) (address : Hash) :
    Numbered host chainId address (holding genesis address).nonce moments final := by
  have states := (run.labelled chain).invariant
    (fun moments state => Ranged state ∧ Numbered host chainId address (holding genesis address).nonce moments state)
    ⟨ranged,fun _ => ⟨rfl,rfl⟩⟩ ?_
  · exact states.2
  · rintro moments middle moment after - ⟨typed,numbered⟩ ⟨step,own⟩
    refine ⟨occurs_ranged step typed,?_⟩
    obtain ⟨rfl,happens,rfl⟩ := step
    exact numbered_step happens typed own numbered

def SigMessage.nonce : SigMessage Hash Key → Nat
  | .transfer _ _ _ _ nonce | .stake _ _ _ nonce | .unstake _ _ _ nonce | .deposit _ _ _ _ nonce | .voluntaryExit _ _ nonce
  | .withdraw _ _ nonce | .registerValidator _ _ _ _ _ nonce | .proposeUpgrade _ _ _ nonce | .voteUpgrade _ _ _ nonce
  | .proposePolicy _ _ _ nonce => nonce

theorem effect_nonce {address : Hash} (member : signed ∈ effects host chainId address moments) : signed.message.nonce = signed.nonce := by
  obtain ⟨moment,-,effect⟩ := List.mem_filterMap.mp (List.mem_filter.mp member).1
  cases event : moment.event with
  | transaction facts tx fate =>
    rw [event,Act.effect] at effect
    split at effect
    next => cases tx <;> cases effect <;> rfl
    next => cases effect
  | _ =>
    rw [event] at effect
    cases effect

variable (host chainId)

-- Tokens leave by signature or sanction; signed transactions take effect once, in the
-- order of their nonces.
theorem authorized_once (ranged : Ranged genesis) (sound : BucketsSound genesis) (run : Runs (Completes host) genesis blocks final)
    (chain : ∀ block ∈ blocks, block.input.chainId = chainId) : Runs (Occurs host) genesis (history host blocks) final ∧
    (∀ moment ∈ history host blocks, ∀ address, ¬Untaken (holding moment.before address) (holding moment.after address) →
      Licensed host chainId address moment.before moment.event) ∧
    (∀ moment ∈ history host blocks, ∀ signed, moment.event.effect host chainId = some signed → Carries host moment.before signed) ∧
    ∀ address, (loadAccount final address).nonce < maxU64 →
      ((effects host chainId address (history host blocks)).map (·.nonce)).Pairwise (· < ·) ∧
      ((effects host chainId address (history host blocks)).map (·.message)).Nodup := by
  have occurs := run_occurs sound run
  have moments : ∀ moment ∈ history host blocks, Happens host moment ∧ Ranged moment.before := by
    intro moment member
    obtain ⟨earlier,middle,_,prior,⟨rfl,happens,-⟩⟩ := occurs.at_member member
    exact ⟨happens,prior.invariant (fun _ => Ranged) ranged fun _ _ _ _ _ held step => occurs_ranged step held⟩
  refine ⟨occurs,fun moment member address => ?_,fun moment member signed effect => ?_,fun address low => ?_⟩
  · obtain ⟨happens,typed⟩ := moments moment member
    exact moment_licensed happens typed (history_chain chain moment member)
  · exact effect_carries (moments moment member).1 (history_chain chain moment member) effect
  · obtain ⟨order,-⟩ := run_numbered ranged (history_chain chain) occurs address low
    have increasing : ((effects host chainId address (history host blocks)).map (·.nonce)).Pairwise (· < ·) := by
      rw [order]
      exact List.pairwise_lt_range'
    refine ⟨increasing,List.pairwise_map.mpr ((List.pairwise_map.mp increasing).imp_of_mem ?_)⟩
    intro one other first second less same
    rw [← effect_nonce first,← effect_nonce second,same] at less
    exact Nat.lt_irrefl _ less
end
section
def spenderState : State Nat Nat Nat := storeAccount ((∅ : AList (Row Nat Nat Nat)).insert .runtimePolicy (samplePolicy 1)) 2 ⟨0,60000⟩

def replayInput : StfInput Nat Nat Nat :=
  {sampleInput 3 with transactions := [overflowingTransfer,.transfer ⟨2,3,5,1,0⟩,.transfer ⟨2,3,5,1,0⟩]}

def replayCheck (output : BlockOutput Nat Nat Nat) : Bool :=
  decide ((effects sampleHost 7 2 (history sampleHost [⟨spenderState,replayInput,output⟩])).map (·.nonce) = [0,1] ∧
    (loadAccount output.state 2).nonce = 2)

theorem spender_ranged : Ranged spenderState := by
  intro address
  rw [spenderState,holding_account]
  split
  · exact show 60000 ≤ maxU128 by decide
  · rw [holding_insert _ id]
    exact Nat.zero_le _

theorem spender_sound : BucketsSound spenderState := by
  intro height keys found
  have absent : bucket spenderState height = none := by
    rw [bucket,spenderState,storeAccount,AList.lookup_insert_ne (by simp),AList.lookup_insert_ne (by simp)]
    exact AList.lookup_empty _
  rw [absent] at found
  cases found

theorem replay_refused : ∃ output, applyBlock sampleHost replayInput spenderState = .ok output ∧
    (effects sampleHost 7 2 (history sampleHost [⟨spenderState,replayInput,output⟩])).length = 2 ∧
    ((effects sampleHost 7 2 (history sampleHost [⟨spenderState,replayInput,output⟩])).map (·.message)).Nodup := by
  have facts : (applyBlock sampleHost replayInput spenderState).toOption.any replayCheck = true := by
    decide +kernel
  obtain ⟨output,done,checked⟩ := completed_check facts
  obtain ⟨nonces,spent⟩ := of_decide_eq_true checked
  have run : Runs (Completes sampleHost) spenderState [⟨spenderState,replayInput,output⟩] output.state := .snoc .nil ⟨rfl,done,rfl⟩
  obtain ⟨-,-,-,once⟩ := authorized_once sampleHost 7 spender_ranged spender_sound run (by simp [replayInput,sampleInput])
  refine ⟨output,done,?_,(once 2 (by rw [spent]; decide)).2⟩
  rw [← List.length_map (·.nonce),nonces]
  rfl
end
end Neutrino.Runtime
