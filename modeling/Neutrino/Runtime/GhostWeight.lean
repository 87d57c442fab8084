import Neutrino.Chain.ValidatorSet
import Neutrino.Runtime.Halting

-- Runtime blocks and rotations together: is there stake behind every weight?
namespace Neutrino.Runtime
open Checks Consensus Chain Ledger
open AList (lookup_insert lookup_insert_ne lookup_erase_ne)

section
variable {Hash Key Sig : Type} [LinearOrder Hash] [DecidableEq Key]

def stakeOf (state : State Hash Key Sig) (address : Hash) : Nat := (loadValidator state address).stake

-- Every candidate entry reports the stake of its validator record, and those
-- addresses have one.
structure Mirrors (listed : Hash → Prop) (state : State Hash Key Sig) : Prop where
  stake : ∀ address entry, (loadConsensusCandidates state).get address = some entry → entry.stake = stakeOf state address
  entry : ∀ address, listed address → (loadConsensusCandidates state).contains address = true

variable {state next : State Hash Key Sig} {listed : Hash → Prop}

theorem stake_of_congr (validators : ∀ address, next.lookup (.validator address) = state.lookup (.validator address))
    (address : Hash) : stakeOf next address = stakeOf state address := by
  rw [stakeOf,loadValidator,loadValidatorRecord,validators]
  rfl

theorem Mirrors.congr (mirrors : Mirrors listed state) (candidates : next.lookup .consensusCandidates = state.lookup .consensusCandidates)
    (validators : ∀ address, next.lookup (.validator address) = state.lookup (.validator address)) : Mirrors listed next := by
  have same : loadConsensusCandidates next = loadConsensusCandidates state := by rw [loadConsensusCandidates,candidates,loadConsensusCandidates]
  refine ⟨fun address entry found => ?_,fun address known => same ▸ mirrors.entry address known⟩
  rw [stake_of_congr validators]
  exact mirrors.stake address entry (same ▸ found)

theorem load_stored_candidates (candidates : CandidateRecord Hash Key Sig) :
    loadConsensusCandidates (storeConsensusCandidates state candidates) = candidates := by
  rw [loadConsensusCandidates,storeConsensusCandidates,lookup_insert]
  rfl

-- Only an entry without a record is removed.
theorem sync_mirrors (own : stakeOf state address = (validator.map (·.stake)).getD 0) (held : listed address → validator ≠ none)
    (others : ∀ other, other ≠ address → (∀ entry, (loadConsensusCandidates state).get other = some entry → entry.stake = stakeOf state other) ∧
      (listed other → (loadConsensusCandidates state).contains other = true)) :
    Mirrors listed (syncConsensusCandidate state address validator) := by
  have kept (candidates : CandidateRecord Hash Key Sig) (other : Hash) :
      stakeOf (storeConsensusCandidates state candidates) other = stakeOf state other :=
    stake_of_congr (fun _ => lookup_insert_ne (by simp)) other
  simp only [syncConsensusCandidate]
  split
  · rename_i bare
    have elsewhere : ∀ other, listed other → other ≠ address := by
      rintro other known rfl
      exact held known bare.1
    split
    · constructor
      · intro other entry found
        rw [load_stored_candidates,SortedTable.get_remove] at found
        split at found
        · cases found
        · rename_i apart
          rw [kept]
          exact (others other apart).1 entry found
      · intro other known
        have apart := elsewhere other known
        rw [load_stored_candidates,SortedTable.contains,SortedTable.get_remove,if_neg apart]
        exact (others other apart).2 known
    · rename_i absent
      refine ⟨fun other entry found => (others other ?_).1 entry found,fun other known => (others other (elsewhere other known)).2 known⟩
      rintro rfl
      rw [SortedTable.contains,found] at absent
      exact absent rfl
  · constructor
    · intro other entry found
      rw [load_stored_candidates,SortedTable.get_upsert] at found
      rw [kept]
      split at found
      · rename_i same
        cases found
        have here : address = other := same
        rw [← here,own]
      · rename_i apart
        exact (others other fun same => apart same.symm).1 entry found
    · intro other known
      rw [load_stored_candidates,SortedTable.contains,SortedTable.get_upsert]
      split
      · rfl
      · rename_i apart
        exact (others other fun same => apart same.symm).2 known

theorem commit_mirrors (mirrors : Mirrors listed state) (address : Hash) (validator : RuntimeValidator) :
    Mirrors listed (commitValidator state address validator) := by
  rw [commitValidator]
  generalize (if validator.active then (loadValidatorSet state).upsert ⟨address,validator.stake⟩
    else (loadValidatorSet state).remove address) = set
  have stored : (storeValidatorSet (storeValidator state address validator) set).lookup (.validator address) = some validator := by
    rw [storeValidatorSet,lookup_insert_ne (by simp),storeValidator,lookup_insert]
  refine sync_mirrors ?_ (fun _ => nofun) fun other apart => ?_
  · rw [stakeOf,loadValidator,loadValidatorRecord,stored]
    rfl
  · have entries : loadConsensusCandidates (storeValidatorSet (storeValidator state address validator) set) = loadConsensusCandidates state := by
      rw [loadConsensusCandidates,storeValidatorSet,lookup_insert_ne (by simp),storeValidator,lookup_insert_ne (by simp)]
      rfl
    have same : stakeOf (storeValidatorSet (storeValidator state address validator) set) other = stakeOf state other := by
      rw [stakeOf,loadValidator,loadValidatorRecord,storeValidatorSet,lookup_insert_ne (by simp),storeValidator,
        lookup_insert_ne (by simpa using apart)]
      rfl
    rw [entries,same]
    exact ⟨mirrors.stake other,mirrors.entry other⟩

def Aside : StateKey Hash Key → Prop
  | .validator _ | .consensusCandidates => False
  | _ => True

theorem retire_mirrors (mirrors : Mirrors listed state) (unlisted : ¬listed address) : Mirrors listed (retireValidator state address) := by
  rw [retireValidator]
  have frame : Frame Aside (state.erase (.validator address)) (dropRegistration _ address) :=
    (((Frame.refl _).erase (.withdrawal address) trivial).erase (.bonding address) trivial).trans (drop_registration_frame _ trivial trivial)
  generalize dropRegistration (((state.erase (.validator address)).erase (.withdrawal address)).erase (.bonding address)) address = after at frame ⊢
  have stakes (other : Hash) : stakeOf after other = stakeOf (state.erase (.validator address)) other :=
    stake_of_congr (fun _ => frame _ (by simp [Aside])) other
  refine sync_mirrors ?_ (fun known => absurd known unlisted) fun other apart => ?_
  · rw [stakes,stakeOf,loadValidator,loadValidatorRecord,AList.lookup_erase]
    rfl
  · have entries : loadConsensusCandidates after = loadConsensusCandidates state := by
      rw [loadConsensusCandidates,frame _ (by simp [Aside]),lookup_erase_ne (by simp)]
      rfl
    rw [entries,stakes,stakeOf,loadValidator,loadValidatorRecord,lookup_erase_ne (by simpa using apart)]
    exact ⟨mirrors.stake other,mirrors.entry other⟩

section
variable (mirrors : Mirrors listed state)
include mirrors

theorem Mirrors.frame (frame : Frame Aside state next) : Mirrors listed next :=
  mirrors.congr (frame _ (by simp [Aside])) fun _ => frame _ (by simp [Aside])

theorem store_account_mirrors (address : Hash) (account : Account) : Mirrors listed (storeAccount state address account) :=
  mirrors.frame ((Frame.refl state).insert (.account address) trivial account)

theorem store_withdrawal_mirrors (address : Hash) (queue : List Withdrawal) : Mirrors listed (storeWithdrawalQueue state address queue) :=
  mirrors.frame ((Frame.refl state).insert (.withdrawal address) trivial queue)

theorem settle_withdrawal_mirrors (queue : List Withdrawal) (staked : listed address → stakeOf state address ≠ 0) :
    Mirrors listed (settleWithdrawal state address queue) := by
  rw [settleWithdrawal]
  split
  · exact store_withdrawal_mirrors mirrors address queue
  · split
    · rename_i empty
      exact retire_mirrors mirrors fun known => staked known empty.1
    · exact mirrors.frame ((Frame.refl state).erase (.withdrawal address) trivial)

theorem register_mirrors (address payer : Hash) (registration : ValidatorRegistration Hash Key Sig)
    (account : Account) (index : AddressIndex Hash) (validator : RuntimeValidator) : Mirrors listed (commitValidator (storeValidatorRegistrations
      (storeAccount (state.insert (.registration address) registration) payer account) index) address validator) := by
  refine commit_mirrors (mirrors.frame ?_) address validator
  have paid : Frame Aside state (storeAccount (state.insert (.registration address) registration) payer account) :=
    ((Frame.refl state).insert (.registration address) trivial registration).insert (.account payer) trivial account
  exact paid.trans (store_registrations_frame _ trivial index)
end
variable {fee : Nat}

-- No withdrawal of a listed address without stake.
def Spares (listed : Hash → Prop) (state : State Hash Key Sig) : Transaction Hash Key Sig → Prop
  | .withdraw tx => listed tx.validator → stakeOf state tx.validator ≠ 0
  | _ => True

theorem transaction_mirrors (mirrors : Mirrors listed state) (spares : Spares listed state tx)
    (applied : transactionResult host facts state fee tx = .ok next) : Mirrors listed next := by
  cases transaction_effect applied with
  | returned => exact store_account_mirrors mirrors _ _
  | transferred => exact store_account_mirrors (store_account_mirrors mirrors _ _) _ _
  | bonded =>
    exact (commit_mirrors (store_account_mirrors mirrors _ _) _ _).frame ((Frame.refl _).insert (StateKey.bonding _) trivial _)
  | unbonded => exact store_withdrawal_mirrors (commit_mirrors (store_account_mirrors mirrors _ _) _ _) _ _
  | withdrew =>
    refine settle_withdrawal_mirrors (store_account_mirrors mirrors _ _) _ fun known => ?_
    rw [storeAccount,stake_of_congr fun _ => lookup_insert_ne (by simp)]
    exact spares known
  | registered => exact register_mirrors mirrors _ _ _ _ _ _
  | evidence => exact mirrors
  | voted => exact (store_account_mirrors mirrors _ _).frame (settle_frame _ trivial trivial trivial _ _)

theorem execute_transaction_mirrors (mirrors : Mirrors listed state) (spares : Spares listed state tx) (tally : Tally) :
    Mirrors listed (executeTransaction host facts (state,tally) tx).1 := by
  have step := execute_ran host facts state tally tx
  generalize executeTransaction host facts (state,tally) tx = after at step ⊢
  obtain ⟨next,counted⟩ := after
  cases step with
  | skipped => exact mirrors
  | succeeded _ applied => exact transaction_mirrors mirrors spares applied
  | failed => exact mirrors.frame (charge_payer_frame (fun _ => trivial) _ _)

def SparesAll (host : Host Hash Key Sig) (facts : BlockFacts Hash Key Sig) (listed : Hash → Prop) :
    State Hash Key Sig × Tally → List (Transaction Hash Key Sig) → Prop
  | _,[] => True
  | current,tx::rest => Spares listed current.1 tx ∧ SparesAll host facts listed (executeTransaction host facts current tx) rest

theorem transactions_mirror {current : State Hash Key Sig × Tally} (mirrors : Mirrors listed current.1)
    (spares : SparesAll host facts listed current txs) : Mirrors listed (txs.foldl (executeTransaction host facts) current).1 := by
  induction txs generalizing current with
  | nil => exact mirrors
  | cons tx rest ih => exact ih (execute_transaction_mirrors mirrors spares.1 current.2) spares.2

theorem deduct_mirrors (mirrors : Mirrors listed state) (executed : deduct state item = .ok (done,next)) : Mirrors listed next := by
  unfold deduct at executed
  split at executed
  · rename_i burned middle applied
    simp only [bind_ok,pure_ok,Prod.mk.injEq] at executed
    obtain ⟨⟨rewarded,paid⟩,rewards,-,rfl⟩ := executed
    have taken : Mirrors listed middle := by
      simp only [applyDeduction,bind_ok,ensure_ok,pure_ok,Prod.mk.injEq] at applied
      obtain ⟨_,-,-,rfl⟩ := applied
      split
      · exact (commit_mirrors mirrors _ _).frame (burned_queue_frame _ trivial _)
      · exact commit_mirrors mirrors _ _
    unfold rewardReporter at rewards
    split at rewards
    · obtain ⟨-,-,-,⟨rfl,-⟩ | ⟨_,-,-,rfl⟩⟩ := credit_reporter_ok rewards
      · exact taken
      · exact store_account_mirrors taken _ _
    · cases rewards
      exact taken
  · cases executed
    exact mirrors
  · cases executed

theorem execute_all_mirrors {items : List (PendingSanction Hash Key)} (mirrors : Mirrors listed state)
    (run : executeAll state totals items = .ok (executed,after,next)) : Mirrors listed next := by
  induction items generalizing state totals executed with
  | nil =>
    cases run
    exact mirrors
  | cons item rest ih =>
    simp only [executeAll,bind_ok,pure_ok,Prod.mk.injEq] at run
    obtain ⟨⟨_,_,middle⟩,one,⟨_,_,_⟩,tail,-,rfl,rfl⟩ := run
    simp only [executePending,bind_ok,pure_ok,Prod.mk.injEq] at one
    obtain ⟨⟨_,deducted⟩,taken,_,-,-,-,rfl⟩ := one
    refine ih ((deduct_mirrors mirrors taken).frame ((write_marker_frame deducted item.sanction 1).widen fun key marker => ?_)) tail
    cases key <;> simp_all [IsMarker,Aside]

-- Each withdrawal of the block against the state it starts from.
def Executed.Spares (host : Host Hash Key Sig) (listed : Hash → Prop) (block : Executed Hash Key Sig) : Prop :=
  SparesAll host (blockFacts block.input (loadRuntimePolicy block.before) block.output.mandatory.queue) listed
    (expire block.output.mandatory.state block.input.evidenceAnchor.chunkId,
      ⟨0,0,block.output.mandatory.gas,0,block.output.mandatory.executed.map sanctionReceipt⟩) block.input.transactions

theorem Completes.mirrors (step : Completes host state block next) (sound : BucketsSound state) (spares : block.Spares host listed)
    (mirrors : Mirrors listed state) : Mirrors listed next := by
  obtain ⟨-,⟨totals,after,run⟩,ordinary⟩ := apply_block_ok step.completed
  have opened : Mirrors listed (admissionState block.input (applyParticipation state block.input.participation)
      (loadRuntimePolicy state) block.output.mandatory.admitted) :=
    mirrors.congr (admission_lookup sound ⟨by simp [IsMarker],by simp [Participates],by simp⟩ _ _)
      fun address => admission_lookup sound ⟨by simp [IsMarker],by simp [Participates],by simp⟩ _ _
  have executed := execute_all_mirrors opened run.executed
  have settled : Mirrors listed block.output.mandatory.state :=
    executed.congr (phase_lookup run (by simp) (by simp)) fun _ => phase_lookup run (by simp) (by simp)
  have expired : Mirrors listed (expire block.output.mandatory.state block.input.evidenceAnchor.chunkId) :=
    settled.congr (expire_frame _ _ _ (by simp [Scheduling])) fun _ => expire_frame _ _ _ (by simp [Scheduling])
  have final : Mirrors listed (applyOrdinary host block.input (loadRuntimePolicy state) block.output.mandatory).1 := by
    rw [Executed.Spares,step.start] at spares
    have transacted := transactions_mirror expired spares
    simp only [applyOrdinary,creditProposer]
    split
    · exact transacted
    · exact store_account_mirrors transacted _ _
  rw [ordinary] at final
  rw [step.result]
  exact final
end
section
variable {Hash Key Sig : Type} [LinearOrder Hash] [DecidableEq Key] {popValid : Key → Hash → Sig → Bool}
variable {unbondingDelayBlocks : Nat}

-- The candidate record as consensus decodes it; a u128 stake needs no clamp.
def consensusCandidates (state : State Hash Key Sig) : ConsensusCandidates Hash Key Sig where
  entries := (loadConsensusCandidates state).items.map fun entry =>
    ⟨entry.address,⟨min entry.stake maxU128,by simp only [maxU128]; omega⟩,entry.identity⟩
  distinct := by
    rw [List.map_map]
    exact (loadConsensusCandidates state).distinct

theorem consensus_candidates_get (state : State Hash Key Sig) (address : Hash) : (consensusCandidates state).stakeFor address =
      ((loadConsensusCandidates state).get address).map fun entry => min entry.stake maxU128 := by
  rw [ConsensusCandidates.stakeFor,ConsensusCandidates.get,consensusCandidates,List.find?_map,Option.map_map,SortedTable.get]
  rfl

theorem candidates_contain {state : State Hash Key Sig} (listed : (loadConsensusCandidates state).contains address = true) :
    (consensusCandidates state).contains address = true := by
  obtain ⟨entry,found⟩ := Option.isSome_iff_exists.mp listed
  have stake := consensus_candidates_get state address
  rw [found,ConsensusCandidates.stakeFor,Option.map_some,Option.map_eq_some_iff] at stake
  obtain ⟨candidate,held,-⟩ := stake
  rw [ConsensusCandidates.contains,held]
  rfl

-- Seats that rotation would keep at their weight if the runtime had no entry for them.
def Guarded (validators : List (Validator Hash Key)) (address : Hash) : Prop :=
  ∃ validator ∈ validators, validator.withdrawalCredentials = address ∧ 0 < validator.effectiveStake ∧ validator.slashed = false ∧
    validator.activationEpoch = 0

instance guardedDecidable (validators : List (Validator Hash Key)) : DecidablePred (Guarded validators) := fun _ => inferInstanceAs (Decidable (∃ _ ∈ _, _))

theorem mark_offender_guarded {offender : Validator Hash Key} (guarded : Guarded (markOffender validators offender) address) :
    Guarded validators address := by
  obtain ⟨validator,member,seat,weighted,honest,genesis⟩ := guarded
  rw [markOffender] at member
  split at member
  · obtain ⟨origin,listed,rfl⟩ := List.mem_map.mp member
    by_cases hit : origin.pubkey = offender.pubkey
    · rw [if_pos hit] at honest
      cases honest
    · rw [if_neg hit] at seat weighted honest genesis
      exact ⟨origin,listed,seat,weighted,honest,genesis⟩
  · rcases List.mem_append.mp member with old | new
    · exact ⟨validator,old,seat,weighted,honest,genesis⟩
    · rw [List.mem_singleton.mp new] at weighted
      exact absurd weighted (Nat.lt_irrefl 0)

theorem mark_offenders_guarded {offenders : List (Validator Hash Key)} (guarded : Guarded (markOffenders validators offenders) address) :
    Guarded validators address := by
  induction offenders generalizing validators with
  | nil => exact guarded
  | cons offender rest ih => exact mark_offender_guarded (ih guarded)

theorem known_rotation_backed (known : ∀ address, Guarded previous address → candidates.contains address = true)
    (derived : deriveNextValidators popValid previous candidates params unbondingDelayBlocks chunkId = .ok next) :
    ∀ validator ∈ next, 0 < validator.effectiveStake → 0 < (candidates.stakeFor validator.withdrawalCredentials).getD 0 := by
  obtain ⟨boundary,shift,-,rfl⟩ := derive_next_ok derived
  intro validator member weighted
  obtain ⟨seat,listed,rfl⟩ := List.mem_map.mp member
  have placed := next_seats_placed popValid seat listed
  have origin := next_seats_origin popValid seat listed
  obtain ⟨body,stake⟩ := seat
  cases stake with
  | some stake =>
    have backing : stake = runtimeStake candidates body := by
      rw [Placed] at placed
      split at placed
      · exact Option.some.inj placed
      · cases placed
    have positive : 0 < stake := Nat.pos_of_ne_zero fun zero => by
      simp [projected,zero] at weighted
    exact backing ▸ positive
  | none =>
    cases origin with
    | carried before listed kept =>
      have same := (carry_some.mp kept).2
      have weight : body.effectiveStake = (updatedSeat candidates params boundary before).1.effectiveStake := by rw [← same]
      have unstaked : none = (updatedSeat candidates params boundary before).2 := by rw [← same]
      have positive : 0 < body.effectiveStake := weighted
      rw [weight] at positive
      simp only [updatedSeat] at positive unstaked
      by_cases stopped : idle before (exitEpochAfter before candidates params boundary) boundary.epoch = true
      · rw [if_pos stopped] at positive
        exact absurd positive (Nat.lt_irrefl 0)
      · rw [if_neg stopped] at positive unstaked
        have registers : registered before candidates = true := by
          by_cases genesis : before.activationEpoch = 0
          · have honest : before.slashed = false := by
              cases slashed : before.slashed with
              | false => rfl
              | true => simp [idle,slashed] at stopped
            rw [registered,known _ ⟨before,listed,rfl,positive,honest,genesis⟩,Bool.or_true]
          · simp [registered,Nat.pos_of_ne_zero genesis]
        rw [if_pos registers] at unstaked
        cases unstaked
    | created address pubkey entry new fresh =>
      have weight : body.effectiveStake = (newSeat candidates params boundary address pubkey).1.effectiveStake := by rw [← new]
      have positive : 0 < body.effectiveStake := weighted
      rw [weight] at positive
      exact absurd positive (Nat.lt_irrefl 0)
end
section
variable {Hash Key Sig : Type} [LinearOrder Hash] [DecidableEq Key]

-- The runtime state and the validator set consensus runs with.
structure Joint (Hash Key Sig : Type) [LinearOrder Hash] where
  state : State Hash Key Sig
  active : ActiveSet Hash Key

inductive Event (Hash Key Sig : Type) [LinearOrder Hash] where
  | block (block : Executed Hash Key Sig)
  | boundary (offenders : List (Validator Hash Key))

def Evolves (host : Host Hash Key Sig) (popValid : Key → Hash → Sig → Bool) (params : ConsensusConstants)
    (unbondingDelayBlocks : Nat) (before : Joint Hash Key Sig) (event : Event Hash Key Sig) (after : Joint Hash Key Sig) : Prop :=
  match event with
  | .block block => Completes host before.state block after.state ∧ after.active = before.active
  | .boundary offenders =>
    Rotates popValid params unbondingDelayBlocks before.active ⟨offenders,consensusCandidates before.state⟩ after.active ∧
      after.state = before.state

-- While its seat is guarded, an address without stake does not withdraw.
def Careful (host : Host Hash Key Sig) (popValid : Key → Hash → Sig → Bool) (params : ConsensusConstants)
    (unbondingDelayBlocks : Nat) (before : Joint Hash Key Sig) (event : Event Hash Key Sig) (after : Joint Hash Key Sig) : Prop :=
  Evolves host popValid params unbondingDelayBlocks before event after ∧
    ∀ block, event = .block block → block.Spares host (Guarded before.active.validators)

def Backed (chain : Joint Hash Key Sig) : Prop :=
  ∀ validator ∈ chain.active.validators, 0 < validator.effectiveStake → 0 < stakeOf chain.state validator.withdrawalCredentials

structure Coherent (chain : Joint Hash Key Sig) : Prop where
  sound : BucketsSound chain.state
  mirrors : Mirrors (Guarded chain.active.validators) chain.state

variable {popValid : Key → Hash → Sig → Bool} {unbondingDelayBlocks : Nat}

theorem boundary_backed {offenders : List (Validator Hash Key)} (coherent : Coherent before)
    (step : Evolves host popValid params unbondingDelayBlocks before (.boundary offenders) after) :
    Backed after ∧ Mirrors (Guarded after.active.validators) after.state := by
  obtain ⟨rotates,same⟩ := step
  simp only [Rotates,rotate,bind_ok,pure_ok] at rotates
  obtain ⟨next,derived,active⟩ := rotates
  have positive := known_rotation_backed
    (fun _ guarded => candidates_contain (coherent.mirrors.entry _ (mark_offenders_guarded guarded))) derived
  have entry : ∀ validator ∈ after.active.validators, 0 < validator.effectiveStake →
      ∃ entry, (loadConsensusCandidates before.state).get validator.withdrawalCredentials = some entry ∧ 0 < entry.stake := by
    intro validator member weighted
    rw [← active] at member
    have backed := positive validator member weighted
    rw [consensus_candidates_get] at backed
    cases found : (loadConsensusCandidates before.state).get validator.withdrawalCredentials with
    | none =>
      rw [found] at backed
      exact absurd backed (Nat.lt_irrefl 0)
    | some entry =>
      rw [found] at backed
      exact ⟨entry,rfl,Nat.lt_of_lt_of_le backed (Nat.min_le_left _ _)⟩
  rw [Backed,same]
  refine ⟨fun validator member weighted => ?_,coherent.mirrors.stake,fun address guarded => ?_⟩
  · obtain ⟨entry,found,stake⟩ := entry validator member weighted
    rw [← coherent.mirrors.stake _ entry found]
    exact stake
  · obtain ⟨validator,member,rfl,weighted,-⟩ := guarded
    obtain ⟨entry,found,-⟩ := entry validator member weighted
    rw [SortedTable.contains,found]
    rfl

theorem coherent_step (step : Careful host popValid params unbondingDelayBlocks before event after)
    (coherent : Coherent before) : Coherent after := by
  obtain ⟨evolves,careful⟩ := step
  cases event with
  | block block =>
    obtain ⟨completes,same⟩ := evolves
    refine ⟨?_,same ▸ completes.mirrors coherent.sound (careful block rfl) coherent.mirrors⟩
    rw [completes.result]
    exact buckets_sound_block completes.completed coherent.sound
  | boundary offenders => exact ⟨evolves.2 ▸ coherent.sound,(boundary_backed coherent evolves).2⟩

variable {zeroHash : Hash} {state next : State Hash Key Sig}

def Reports (state : State Hash Key Sig) (candidates : CandidateRecord Hash Key Sig) : Prop :=
  ∀ address entry, candidates.get address = some entry → entry.stake = stakeOf state address

theorem seed_validators_report {set finalSet : ValidatorSet Hash} (reports : Reports state candidates)
    (seeded : seedValidators zeroHash state set candidates validators = .ok (next,finalSet,final)) :
    Reports next final ∧ (∀ address, candidates.contains address = true → final.contains address = true) ∧
    ∀ validator ∈ validators, validator.withdrawalCredentials ≠ zeroHash → final.contains validator.withdrawalCredentials = true := by
  induction validators generalizing state set candidates with
  | nil =>
    cases seeded
    exact ⟨reports,fun _ => id,by simp⟩
  | cons validator rest ih =>
    rw [seedValidators] at seeded
    split at seeded
    · rename_i unnamed
      obtain ⟨mirrored,kept,listed⟩ := ih reports seeded
      exact ⟨mirrored,kept,List.forall_mem_cons.mpr ⟨fun named => absurd unnamed named,listed⟩⟩
    · simp only [bind_ok,ensure_ok] at seeded
      obtain ⟨_,-,later⟩ := seeded
      have stepped : Reports (storeValidator state validator.withdrawalCredentials
          ⟨validator.effectiveStake,decide (0 < validator.effectiveStake)⟩)
          (candidates.upsert ⟨validator.withdrawalCredentials,validator.effectiveStake,none⟩) := by
        intro address entry found
        rw [SortedTable.get_upsert] at found
        split at found
        · rename_i same
          cases found
          have here : validator.withdrawalCredentials = address := same
          rw [← here,stakeOf,loadValidator,loadValidatorRecord,storeValidator,lookup_insert]
          rfl
        · rename_i apart
          have elsewhere : address ≠ validator.withdrawalCredentials := fun same => apart same.symm
          rw [stakeOf,loadValidator,loadValidatorRecord,storeValidator,lookup_insert_ne (by simpa using elsewhere)]
          exact reports address entry found
      obtain ⟨mirrored,kept,listed⟩ := ih stepped later
      have grows : ∀ address, address = validator.withdrawalCredentials ∨ candidates.contains address = true →
          (candidates.upsert ⟨validator.withdrawalCredentials,validator.effectiveStake,none⟩).contains address = true := by
        intro address known
        rw [SortedTable.contains,SortedTable.get_upsert]
        split
        · rfl
        · rename_i apart
          exact known.resolve_left fun same => apart same.symm
      refine ⟨mirrored,fun address known => kept address (grows address (.inr known)),?_⟩
      exact List.forall_mem_cons.mpr ⟨fun _ => kept _ (grows _ (.inl rfl)),listed⟩

theorem genesis_coherent (built : buildGenesisState zeroHash accounts validators runtime = .ok state)
    (named : ∀ validator ∈ validators, validator.withdrawalCredentials ≠ zeroHash) : Coherent ⟨state,⟨validators,0⟩⟩ := by
  have clean := (genesis_unburdened built).buckets
  simp only [buildGenesisState,bind_ok,pure_ok] at built
  obtain ⟨seeded,accounted,⟨validated,set,candidates⟩,staked,rfl⟩ := built
  have blank : Reports seeded (SortedTable.empty : CandidateRecord Hash Key Sig) := fun _ _ found => by cases found
  obtain ⟨reports,-,listed⟩ := seed_validators_report blank staked
  have absent : validated.lookup .consensusCandidates = none :=
    ((seed_accounts_frame accounted).trans (seed_validators_frame staked) _ (by simp [Seeded])).trans (AList.lookup_empty _)
  have listing (key : StateKey Hash Key) (other : key ≠ .validatorSet) :
      (if set.items = [] then validated else storeValidatorSet validated set).lookup key = validated.lookup key := by
    split
    · rfl
    · exact lookup_insert_ne other
  generalize (if set.items = [] then validated else storeValidatorSet validated set) = withSet at listing clean
  have loaded : loadConsensusCandidates ((if candidates.items = [] then withSet
      else storeConsensusCandidates withSet candidates).insert .runtimePolicy (RuntimePolicy.fromParams runtime)) = candidates := by
    rw [loadConsensusCandidates,lookup_insert_ne (by simp)]
    split
    · rename_i empty
      rw [listing _ (by simp),absent]
      obtain ⟨items,sorted⟩ := candidates
      cases empty
      rfl
    · rw [storeConsensusCandidates,lookup_insert]
      rfl
  have records (address : Hash) : stakeOf ((if candidates.items = [] then withSet
      else storeConsensusCandidates withSet candidates).insert .runtimePolicy (RuntimePolicy.fromParams runtime)) address =
      stakeOf validated address := by
    refine stake_of_congr (fun other => ?_) address
    rw [lookup_insert_ne (by simp)]
    split
    · exact listing _ (by simp)
    · exact (lookup_insert_ne (by simp)).trans (listing _ (by simp))
  refine ⟨fun height keys found => ?_,fun address entry found => ?_,fun address guarded => ?_⟩
  · rw [clean height] at found
    cases found
  · rw [loaded] at found
    rw [records]
    exact reports address entry found
  · obtain ⟨validator,member,rfl,-⟩ := guarded
    rw [loaded]
    exact listed validator member (named validator member)

theorem no_ghost_weight {accounts : List (Hash × Nat)} {validators offenders : List (Validator Hash Key)} {runtime : RuntimeParams}
    {events : List (Event Hash Key Sig)} {final : Joint Hash Key Sig}
    (built : buildGenesisState zeroHash accounts validators runtime = .ok state)
    (named : ∀ validator ∈ validators, validator.withdrawalCredentials ≠ zeroHash)
    (run : Runs (Careful host popValid params unbondingDelayBlocks) ⟨state,⟨validators,0⟩⟩ (events ++ [.boundary offenders]) final) :
    Backed final := by
  obtain ⟨before,prior,step⟩ := run.snoc_inv
  have coherent : Coherent before :=
    prior.invariant (fun _ chain => Coherent chain) (genesis_coherent built named) fun _ _ _ _ _ held step => coherent_step step held
  exact (boundary_backed coherent step.1).1
end

-- The second block leaks the first validator's whole stake. A withdrawal in the same
-- block retires the record before the boundary; in the third block it comes too late.
section
def leakRuntime : RuntimeParams := {tightRuntime with inactivityLeakAmount := 10}
def leakValidators : List (Validator Nat Nat) := [⟨1,1,10,false,0,2^64-1,0⟩,⟨2,2,10,false,0,2^64-1,0⟩]

def leakInput (withdrawal height : Nat) : StfInput Nat Nat Nat := {tightInput (fun height =>
      (if height = 2 then [.submitEvidence (sampleClaim 1)] else []) ++ if height = withdrawal then [.withdraw ⟨1,0,0⟩] else []) height with
    participation := if height = 2 then some ⟨0,[2],[1]⟩ else none}

-- Every chunk is one block, with a boundary after it.
def leakChunk (chain : Joint Nat Nat Nat) (input : StfInput Nat Nat Nat) : Except Panic (BlockOutput Nat Nat Nat × Joint Nat Nat Nat) := do
  let output ← applyBlock sampleHost input chain.state
  let active ← (rotate (fun _ _ _ => true) tightSpec.consensus 2 chain.active ⟨[],consensusCandidates output.state⟩).mapError
    fun _ => .invalidPolicy
  pure (output,⟨output.state,active⟩)

structure LeakRun where
  start : State Nat Nat Nat
  first : BlockOutput Nat Nat Nat × Joint Nat Nat Nat
  second : BlockOutput Nat Nat Nat × Joint Nat Nat Nat
  third : BlockOutput Nat Nat Nat × Joint Nat Nat Nat

def leakRun (withdrawal : Nat) : Except Panic LeakRun := do
  let start ← (buildGenesisState 0 [(1,100000)] leakValidators leakRuntime).mapError fun _ => .invalidPolicy
  let first ← leakChunk ⟨start,⟨leakValidators,0⟩⟩ (leakInput withdrawal 1)
  let second ← leakChunk first.2 (leakInput withdrawal 2)
  let third ← leakChunk second.2 (leakInput withdrawal 3)
  pure ⟨start,first,second,third⟩

abbrev LeakStep := Evolves sampleHost (fun _ _ _ => true) tightSpec.consensus 2
abbrev CarefulLeakStep := Careful sampleHost (fun _ _ _ => true) tightSpec.consensus 2

theorem leak_chunk_ok (done : leakChunk chain input = .ok (output,next)) :
    LeakStep chain (.block ⟨chain.state,input,output⟩) ⟨output.state,chain.active⟩ ∧
      LeakStep ⟨output.state,chain.active⟩ (.boundary []) next := by
  simp only [leakChunk,bind_ok,mapError_ok,pure_ok,Prod.mk.injEq] at done
  obtain ⟨_,applied,active,turned,rfl,rfl⟩ := done
  exact ⟨⟨⟨rfl,applied,rfl⟩,rfl⟩,turned,rfl⟩

theorem leak_run_ok (done : leakRun withdrawal = .ok run) : buildGenesisState 0 [(1,100000)] leakValidators leakRuntime = .ok run.start ∧
    leakChunk ⟨run.start,⟨leakValidators,0⟩⟩ (leakInput withdrawal 1) = .ok run.first ∧
    leakChunk run.first.2 (leakInput withdrawal 2) = .ok run.second ∧ leakChunk run.second.2 (leakInput withdrawal 3) = .ok run.third := by
  simp only [leakRun,bind_ok,mapError_ok,pure_ok] at done
  obtain ⟨start,built,first,one,second,two,third,three,rfl⟩ := done
  exact ⟨built,one,two,three⟩

theorem leaked_validator_keeps_weight : (∀ validator ∈ leakValidators, validator.withdrawalCredentials ≠ 0) ∧
    ∃ start events final, buildGenesisState 0 [(1,100000)] leakValidators leakRuntime = .ok start ∧
      Runs LeakStep ⟨start,⟨leakValidators,0⟩⟩ (events ++ [.boundary []]) final ∧
      ∃ validator ∈ final.active.validators, 0 < validator.effectiveStake ∧ stakeOf final.state validator.withdrawalCredentials = 0 := by
  have facts : (leakRun 2).toOption.any (fun run => decide (∃ validator ∈ run.third.2.active.validators, 0 < validator.effectiveStake ∧
      stakeOf run.third.2.state validator.withdrawalCredentials = 0)) = true := by
    decide +kernel
  obtain ⟨run,done,facts⟩ := completed_check facts
  obtain ⟨built,one,two,three⟩ := leak_run_ok done
  have first := leak_chunk_ok one
  have second := leak_chunk_ok two
  have third := leak_chunk_ok three
  have runs := (((Runs.nil.snoc first.1).snoc first.2).snoc second.1).snoc second.2
  exact ⟨by decide,run.start,_,_,built,(runs.snoc third.1).snoc third.2,of_decide_eq_true facts⟩

theorem sample_seats_backed : ∃ run, leakRun 3 = .ok run ∧ stakeOf run.start 1 = 10 ∧ stakeOf run.second.2.state 1 = 0 ∧
    (consensusCandidates run.second.2.state).contains 1 = true ∧ (consensusCandidates run.third.2.state).contains 1 = false ∧
    Backed run.third.2 := by
  have facts : (leakRun 3).toOption.any (fun run => decide (¬Guarded run.second.2.active.validators 1 ∧ stakeOf run.start 1 = 10 ∧
      stakeOf run.second.2.state 1 = 0 ∧ (consensusCandidates run.second.2.state).contains 1 = true ∧
      (consensusCandidates run.third.2.state).contains 1 = false)) = true := by
    decide +kernel
  obtain ⟨run,done,facts⟩ := completed_check facts
  obtain ⟨unguarded,bonded,leaked,listed,retired⟩ := of_decide_eq_true facts
  obtain ⟨built,one,two,three⟩ := leak_run_ok done
  have first := leak_chunk_ok one
  have second := leak_chunk_ok two
  have third := leak_chunk_ok three
  have turn {chain next : Joint Nat Nat Nat} (turned : LeakStep chain (.boundary []) next) : CarefulLeakStep chain (.boundary []) next := by
    refine ⟨turned,fun _ same => ?_⟩
    cases same
  have block {chain next : Joint Nat Nat Nat} {block : Executed Nat Nat Nat} (stepped : LeakStep chain (.block block) next)
      (spares : block.Spares sampleHost (Guarded chain.active.validators)) : CarefulLeakStep chain (.block block) next := by
    refine ⟨stepped,fun _ same => ?_⟩
    cases same
    exact spares
  have opened := (Runs.nil.snoc (block first.1 trivial)).snoc (turn first.2)
  have leaking := (opened.snoc (block second.1 ⟨trivial,trivial⟩)).snoc (turn second.2)
  have withdrawn := (leaking.snoc (block third.1 ⟨fun guarded => absurd guarded unguarded,trivial⟩)).snoc (turn third.2)
  exact ⟨run,done,bonded,leaked,listed,retired,no_ghost_weight built (by decide) withdrawn⟩
end
end Neutrino.Runtime
