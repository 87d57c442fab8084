import Neutrino.Library.Runs
import Neutrino.Runtime.Outcomes

-- The mandatory phase by its rows: replay markers, expiry buckets and the queue.
namespace Neutrino.Runtime
open Checks Consensus Chain Ledger

section
variable {Hash Key Sig : Type} [LinearOrder Hash] [DecidableEq Key] {state : State Hash Key Sig}

theorem erase_all_lookup (keys : List (StateKey Hash Key)) (state : State Hash Key Sig) (key : StateKey Hash Key) :
    (keys.foldl (fun swept key => swept.erase key) state).lookup key = if key ∈ keys then none else state.lookup key := by
  induction keys generalizing state with
  | nil => simp
  | cons head rest ih =>
    rw [List.foldl_cons,ih]
    by_cases same : key = head
    · subst same
      simp
    · rw [AList.lookup_erase_ne same]
      simp [same]

def bucket (state : State Hash Key Sig) (height : Nat) : Option (List (StateKey Hash Key)) := state.lookup (.expiry height)

-- The sweep at a height empties the bucket one retention and one block earlier.
def Sweeps (state : State Hash Key Sig) (height retention : Nat) (key : StateKey Hash Key) : Prop :=
  ∃ expired keys, expired + retention + 1 = height ∧ bucket state expired = some keys ∧ (key ∈ keys ∨ key = .expiry expired)

theorem sweep_kept (kept : ¬Sweeps state height retention key) :
    (sweepExpiredMarkers state height retention).lookup key = state.lookup key := by
  unfold sweepExpiredMarkers
  split
  · rfl
  · rename_i expired due
    split
    · rfl
    · rename_i keys found
      simp only [Option.bind_eq_some_iff,checked_sub_some] at due
      obtain ⟨_,left,right⟩ := due
      have height : expired + retention + 1 = height := by omega
      have listed : key ∉ keys := fun member => kept ⟨expired,keys,height,found,.inl member⟩
      have other : key ≠ .expiry expired := fun same => kept ⟨expired,keys,height,found,.inr same⟩
      rw [AList.lookup_erase_ne other,erase_all_lookup,if_neg listed]

theorem sweep_gone (swept : Sweeps state height retention key) : (sweepExpiredMarkers state height retention).lookup key = none := by
  obtain ⟨expired,keys,due,found,listed⟩ := swept
  have first : (checkedSub height retention).bind (checkedSub · 1) = some expired := by
    simp only [Option.bind_eq_some_iff,checked_sub_some]
    exact ⟨expired + 1,by omega,by omega⟩
  have stored : (state.lookup (.expiry expired) : Option (List (StateKey Hash Key))) = some keys := found
  simp only [sweepExpiredMarkers,first,stored]
  by_cases own : key = .expiry expired
  · subst own
    exact AList.lookup_erase _ _
  · rw [AList.lookup_erase_ne own,erase_all_lookup,if_pos (listed.resolve_right own)]
end
section
variable {Hash Key Sig : Type} [LinearOrder Hash] [DecidableEq Key]

def taken (identities : List Key) (offences : List Hash) : List (StateKey Hash Key) := identities.map .slashed ++ offences.map .offence

variable {identities : List Key} {offences : List Hash}

theorem taken_grows (known : key = markerKey claim ∨ key ∈ taken identities offences) : key ∈ taken (match claim.kind with
      | .slash => claim.offender.pubkey::identities
      | .inactivity => identities) (claim.offenceId::offences) := by
  simp only [markerKey,replayMarker,taken,List.mem_append,List.mem_map] at known ⊢
  cases kind : claim.kind with
  | slash =>
    rw [kind] at known
    rcases known with rfl | ⟨identity,member,rfl⟩ | ⟨offence,member,rfl⟩
    · exact .inl ⟨claim.offender.pubkey,by simp,rfl⟩
    · exact .inl ⟨identity,List.mem_cons_of_mem _ member,rfl⟩
    · exact .inr ⟨offence,List.mem_cons_of_mem _ member,rfl⟩
  | inactivity =>
    rw [kind] at known
    rcases known with rfl | ⟨identity,member,rfl⟩ | ⟨offence,member,rfl⟩
    · exact .inr ⟨claim.offenceId,by simp,rfl⟩
    · exact .inl ⟨identity,member,rfl⟩
    · exact .inr ⟨offence,List.mem_cons_of_mem _ member,rfl⟩

structure Admissible (state : State Hash Key Sig) (known : List (StateKey Hash Key))
    (claims : List (EvidenceSubmission Hash Key)) : Prop where
  unmarked : ∀ claim ∈ claims, marked state claim.statement = false
  distinct : (claims.map (markerKey ·.statement)).Nodup
  fresh : ∀ claim ∈ claims, markerKey claim.statement ∉ known

theorem collect_ok (collected : collectFrom state identities offences claims = .ok admitted) :
    admitted = claims.map (·.statement.toSanction) ∧ Admissible state (taken identities offences) claims := by
  induction claims generalizing identities offences admitted with
  | nil =>
    cases collected
    exact ⟨rfl,by simp,by simp,by simp⟩
  | cons claim rest ih =>
    simp only [collectFrom,bind_ok,ensure_ok,pure_ok] at collected
    obtain ⟨_,unmarked,_,-,_,fresh,later,tail,rfl⟩ := collected
    obtain ⟨rfl,accepted⟩ := ih tail
    refine ⟨rfl,by simpa using ⟨unmarked,accepted.unmarked⟩,?_,fun other member => ?_⟩
    · rw [List.map_cons,List.nodup_cons]
      refine ⟨fun found => ?_,accepted.distinct⟩
      obtain ⟨other,member,same⟩ := List.mem_map.mp found
      exact accepted.fresh other member (taken_grows (.inl same))
    · rcases List.mem_cons.mp member with rfl | later
      · simp only [isFreshClaim] at fresh
        simp only [markerKey,replayMarker,taken]
        cases kind : other.statement.kind <;> simp_all
      · exact fun found => accepted.fresh other later (taken_grows (.inr found))
end
section
variable {Hash Key Sig : Type} [LinearOrder Hash] [DecidableEq Key]

def Stands (state : State Hash Key Sig) (key : StateKey Hash Key) : Prop := (state.lookup key).isSome = true

theorem insert_stands (state : State Hash Key Sig) (written : StateKey Hash Key) (row : Row Hash Key Sig written)
    (key : StateKey Hash Key) : Stands (state.insert written row) key ↔ key = written ∨ Stands state key := by
  by_cases same : key = written
  · subst same
    simp [Stands]
  · simp [Stands,AList.lookup_insert_ne same,same]

theorem write_marker_stands (state : State Hash Key Sig) (sanction : Sanction Hash Key) (byte : Nat)
    (key : StateKey Hash Key) : Stands (writeMarker state sanction byte) key ↔ key = sanction.markerKey ∨ Stands state key := by
  obtain ⟨id,offender,kind⟩ := sanction
  cases kind with
  | slash => exact insert_stands state (.slashed offender.pubkey) byte key
  | inactivity => exact insert_stands state (.offence id) byte key

def IsMarker : StateKey Hash Key → Prop
  | .slashed _ | .offence _ => True
  | _ => False

theorem write_marker_frame (state : State Hash Key Sig) (sanction : Sanction Hash Key) (byte : Nat) :
    Frame IsMarker state (writeMarker state sanction byte) := by
  obtain ⟨id,offender,kind⟩ := sanction
  cases kind with
  | slash => exact (Frame.refl state).insert (.slashed offender.pubkey) trivial byte
  | inactivity => exact (Frame.refl state).insert (.offence id) trivial byte

theorem marker_key_is_marker (sanction : Sanction Hash Key) : IsMarker sanction.markerKey := by
  obtain ⟨id,offender,kind⟩ := sanction
  cases kind <;> trivial

theorem marker_not_ordinary (marker : IsMarker key) : ¬Ordinary key := by
  cases key <;> simp_all [IsMarker,Ordinary]

theorem write_markers_stand (claims : List (EvidenceSubmission Hash Key)) (state : State Hash Key Sig) (key : StateKey Hash Key) :
    Stands (claims.foldl (fun written claim => writeMarker written claim.statement.toSanction 0) state) key ↔
      key ∈ claims.map (markerKey ·.statement) ∨ Stands state key := by
  induction claims generalizing state with
  | nil => simp
  | cons claim rest ih =>
    rw [List.foldl_cons,ih,write_marker_stands,List.map_cons,List.mem_cons]
    exact ⟨fun found => by tauto,fun found => by tauto⟩

theorem write_markers_frame (claims : List (EvidenceSubmission Hash Key)) (state : State Hash Key Sig) :
    Frame IsMarker state (claims.foldl (fun written claim => writeMarker written claim.statement.toSanction 0) state) := by
  induction claims generalizing state with
  | nil => exact .refl state
  | cons claim rest ih => exact (write_marker_frame state claim.statement.toSanction 0).trans (ih _)
end
section
variable {Hash Key Sig : Type} [LinearOrder Hash] [DecidableEq Key] {state next : State Hash Key Sig}

theorem credit_reporter_ok (credited : creditReporter state reporter deducted bps = .ok (rewarded,next)) :
    rewarded ≤ mulDivFloor deducted bps basisPoints ∧ bps ≤ basisPoints ∧ Frame Bonded state next ∧
    (next = state ∧ rewarded = 0 ∨ ∃ account, account = loadAccount state reporter ∧ rewarded ≤ maxU128 - account.balance ∧
      next = storeAccount state reporter {account with balance := account.balance + rewarded}) := by
  simp only [creditReporter,bind_ok,ensure_ok] at credited
  obtain ⟨_,share,credited⟩ := credited
  split at credited
  · cases credited
    exact ⟨Nat.zero_le _,share,.refl state,.inl ⟨rfl,rfl⟩⟩
  · cases credited
    exact ⟨Nat.min_le_left _ _,share,store_account_frame state _ _,.inr ⟨_,rfl,Nat.min_le_right _ _,rfl⟩⟩

theorem reward_reporter_ok (paid : rewardReporter state item deducted = .ok (rewarded,next)) : Frame Bonded state next := by
  unfold rewardReporter at paid
  split at paid
  · exact (credit_reporter_ok paid).2.2.1
  · cases paid
    exact .refl state

theorem deduct_ok (deducted : deduct state item = .ok (done,next)) : done.item = item ∧ Frame Bonded state next := by
  unfold deduct at deducted
  split at deducted
  · rename_i burned middle applied
    simp only [bind_ok,pure_ok,Prod.mk.injEq] at deducted
    obtain ⟨⟨rewarded,paid⟩,rewards,rfl,rfl⟩ := deducted
    exact ⟨rfl,(deduction_frame state applied).trans (reward_reporter_ok rewards)⟩
  · cases deducted
    exact ⟨rfl,.refl state⟩
  · cases deducted

theorem execute_pending_ok (executed : executePending state totals item = .ok (done,after,next)) :
    done.item = item ∧ done.rewarded ≤ done.deducted ∧ Frame (fun key => Bonded key ∨ IsMarker key) state next ∧
    ∀ key, IsMarker key → (Stands next key ↔ key = item.sanction.markerKey ∨ Stands state key) := by
  simp only [executePending,SettlementTotals.noteExecuted,bind_ok,ensure_ok,pure_ok,Prod.mk.injEq] at executed
  obtain ⟨⟨outcome,middle⟩,deducted,_,⟨_,paid,-⟩,rfl,-,rfl⟩ := executed
  obtain ⟨same,frame⟩ := deduct_ok deducted
  refine ⟨same,paid,?_,fun key marker => ?_⟩
  · exact (frame.widen fun _ => .inl).trans ((write_marker_frame middle item.sanction 1).widen fun _ => .inr)
  · rw [write_marker_stands,Stands,frame key fun bonded => marker_not_ordinary marker (bonded_ordinary bonded)]
    exact Iff.rfl

theorem execute_all_ok {items : List (PendingSanction Hash Key)} (done : executeAll state totals items = .ok (executed,after,next)) :
    executed.map (·.item) = items ∧ (∀ done ∈ executed, done.rewarded ≤ done.deducted) ∧
    Frame (fun key => Bonded key ∨ IsMarker key) state next ∧
    ∀ key, IsMarker key → (Stands next key ↔ key ∈ items.map (·.sanction.markerKey) ∨ Stands state key) := by
  induction items generalizing state totals executed with
  | nil =>
    cases done
    exact ⟨rfl,by simp,.refl _,by simp⟩
  | cons item rest ih =>
    simp only [executeAll,bind_ok,pure_ok,Prod.mk.injEq] at done
    obtain ⟨⟨first,middleTotals,middle⟩,one,⟨later,final,last⟩,tail,rfl,rfl,rfl⟩ := done
    obtain ⟨same,paid,frame,marks⟩ := execute_pending_ok one
    obtain ⟨items,paids,frames,others⟩ := ih tail
    refine ⟨by simp [same,items],by simpa using ⟨paid,paids⟩,frame.trans frames,fun key marker => ?_⟩
    rw [others key marker,marks key marker,List.map_cons,List.mem_cons]
    tauto
end
section
variable {Hash Key Sig : Type} [LinearOrder Hash] [DecidableEq Key] (host : Host Hash Key Sig)
variable (input : StfInput Hash Key Sig) (state : State Hash Key Sig) (policy : RuntimePolicy)

def claimsOf : List (EvidenceSubmission Hash Key) := submissions input.transactions
def sweptState : State Hash Key Sig := sweepExpiredMarkers state input.blockHeight input.evidenceAnchor.unbondingDelayBlocks

-- The obligations a block admits, with what the policy fixes of them.
def obligations : List (PendingSanction Hash Key) := (claimsOf input).map (obligation policy ·.statement)
def queued : List (PendingSanction Hash Key) := loadQueue state ++ obligations input policy
def executionCount : Nat := min (queued input state policy).length policy.evidenceExecutionsPerBlock

def admissionState (admitted : List (Sanction Hash Key)) : State Hash Key Sig :=
  recordExpiryBucket (enqueueAdmissions (sweptState input state) policy (claimsOf input)).1 input.blockHeight admitted

def openTotals (admitted : List (Sanction Hash Key)) : SettlementTotals :=
  admitted.foldl (fun totals sanction => totals.noteAdmitted sanction.kind)
    (if decide (admitted ≠ [] ∨ 0 < executionCount input state policy) then
      loadTotals (admissionState input state policy admitted) else {})

def storeQueue (settled : State Hash Key Sig) (residual : List (PendingSanction Hash Key)) : State Hash Key Sig :=
  if host.queueCommitment (loadQueue state) = host.queueCommitment residual then settled else settled.insert .queue residual

-- Everything a completed mandatory phase has checked and written.
structure MandatoryRun (result : Mandatory Hash Key Sig) (totals : SettlementTotals) (after : State Hash Key Sig) : Prop where
  valid : policy.IsValidFor input.evidenceAnchor
  timely : ∀ claim ∈ claimsOf input, claim.withinAge input.blockHeight policy.evidenceMaxAgeBlocks = true
  bounded : (loadQueue state).length ≤ policy.evidenceMaxPending
  admitted : result.admitted = (claimsOf input).map (·.statement.toSanction)
  admissible : Admissible (sweptState input state) [] (claimsOf input)
  gas : executionCount input state policy * gasSanction + result.admitted.length * gasEvidenceAdmission ≤ input.blockGasLimit
  capacity : result.queue.length ≤ policy.evidenceMaxPending
  executed : executeAll (admissionState input state policy result.admitted) (openTotals input state policy result.admitted)
    ((queued input state policy).take (executionCount input state policy)) = .ok (result.executed,totals,after)
  queue : result.queue = (queued input state policy).drop (executionCount input state policy)
  reserved : result.gas = executionCount input state policy * gasSanction
  state : result.state = storeQueue host state (storeTotals after
    (decide (result.admitted ≠ [] ∨ 0 < executionCount input state policy)) totals) result.queue

variable {host input state policy}

theorem apply_mandatory_ok (done : applyMandatory host input state policy = .ok result) :
    ∃ totals after, MandatoryRun host input state policy result totals after := by
  simp only [applyMandatory,checkPolicy,collectAdmissions,bind_ok,ensure_ok] at done
  obtain ⟨_,⟨_,valid,_,timely,-⟩,_,bounded,admitted,collected,_,-,_,-,_,⟨-,gas⟩,_,capacity,done⟩ := done
  obtain ⟨same,admissible⟩ := collect_ok collected
  have length : (obligations input policy).length = admitted.length := by simp [same,obligations,claimsOf]
  have count : executionCount input state policy = min ((loadQueue state).length + admitted.length) policy.evidenceExecutionsPerBlock := by
    rw [executionCount,queued,List.length_append,length]
  have left : ((queued input state policy).drop (executionCount input state policy)).length ≤ policy.evidenceMaxPending := by
    rw [List.length_drop,count,queued,List.length_append,length]
    exact capacity
  simp only [enqueueAdmissions,pure_ok] at done
  obtain ⟨⟨executed,totals,after⟩,run,rfl⟩ := done
  rw [← count] at gas run
  refine ⟨totals,after,valid,fun claim member => ensure_ok.mp (each_ok.mp timely claim member),bounded,same,admissible,gas,?_,?_,?_,?_,?_⟩
  · rw [← count]
    exact left
  · rw [openTotals,count]
    exact count ▸ run
  · rw [count]
    rfl
  · rw [count]
  · simp only [storeQueue,count]
    rfl

theorem store_queue_frame (settled : State Hash Key Sig) (residual : List (PendingSanction Hash Key)) :
    Frame (· = .queue) settled (storeQueue host state settled residual) := by
  rw [storeQueue]
  split
  · exact .refl settled
  · intro key outside
    exact AList.lookup_insert_ne outside

theorem store_totals_frame (settles : Bool) (totals : SettlementTotals) (after : State Hash Key Sig) :
    Frame (· = .settlementTotals) after (storeTotals after settles totals) := by
  rw [storeTotals]
  split
  · intro key outside
    exact AList.lookup_insert_ne outside
  · exact .refl after

def livenessMarkers (admitted : List (Sanction Hash Key)) : List (StateKey Hash Key) :=
  (admitted.filter fun sanction => decide (sanction.kind = .inactivity)).map Sanction.markerKey

theorem record_bucket_frame (settled : State Hash Key Sig) (height : Nat) (admitted : List (Sanction Hash Key)) :
    Frame (· = .expiry height) settled (recordExpiryBucket settled height admitted) := by
  simp only [recordExpiryBucket]
  split
  · exact .refl settled
  · intro key outside
    exact AList.lookup_insert_ne outside

theorem record_bucket_self (settled : State Hash Key Sig) (height : Nat) (admitted : List (Sanction Hash Key)) :
    bucket (recordExpiryBucket settled height admitted) height =
      if livenessMarkers admitted = [] then bucket settled height else some (livenessMarkers admitted) := by
  by_cases empty : livenessMarkers admitted = []
  · rw [if_pos empty]
    simp only [livenessMarkers] at empty
    simp only [recordExpiryBucket,empty,if_true]
  · rw [if_neg empty]
    simp only [livenessMarkers] at empty ⊢
    simp only [recordExpiryBucket,empty,if_false]
    exact AList.lookup_insert _

theorem phase_lookup (run : MandatoryRun host input state policy result totals after)
    (notQueue : key ≠ .queue) (notTotals : key ≠ .settlementTotals) : result.state.lookup key = after.lookup key := by
  rw [run.state,store_queue_frame _ _ key notQueue,store_totals_frame _ _ _ key notTotals]

theorem phase_markers (run : MandatoryRun host input state policy result totals after) (marker : IsMarker key) :
    Stands result.state key ↔ Stands (sweptState input state) key ∨ key ∈ result.admitted.map Sanction.markerKey ∨
      key ∈ result.executed.map (·.item.sanction.markerKey) := by
  obtain ⟨items,-,-,marks⟩ := execute_all_ok run.executed
  have plain : key ≠ .queue ∧ key ≠ .settlementTotals ∧ key ≠ .expiry input.blockHeight := by
    refine ⟨?_,?_,?_⟩ <;> rintro rfl <;> exact marker
  have written : Stands (admissionState input state policy result.admitted) key ↔
      key ∈ (claimsOf input).map (markerKey ·.statement) ∨ Stands (sweptState input state) key := by
    rw [Stands,admissionState,record_bucket_frame _ _ _ key plain.2.2]
    exact write_markers_stand _ _ key
  have names : result.admitted.map Sanction.markerKey = (claimsOf input).map (markerKey ·.statement) := by
    rw [run.admitted,List.map_map]
    rfl
  have done : result.executed.map (·.item.sanction.markerKey) =
      ((queued input state policy).take (executionCount input state policy)).map (·.sanction.markerKey) := by
    rw [← items,List.map_map]
    rfl
  rw [Stands,phase_lookup run plain.1 plain.2.1,names,done]
  exact (marks key marker).trans (by rw [written]; tauto)

theorem phase_bucket (run : MandatoryRun host input state policy result totals after) (height : Nat) : bucket result.state height =
      if height = input.blockHeight ∧ livenessMarkers result.admitted ≠ [] then some (livenessMarkers result.admitted)
      else bucket (sweptState input state) height := by
  obtain ⟨-,-,frame,-⟩ := execute_all_ok run.executed
  have outside : ¬(Bonded (.expiry height : StateKey Hash Key) ∨ IsMarker (.expiry height : StateKey Hash Key)) := by
    simp [Bonded,IsMarker]
  have settled : bucket result.state height = bucket (admissionState input state policy result.admitted) height :=
    (phase_lookup run (by simp) (by simp)).trans (frame _ outside)
  have unmarked := write_markers_frame (claimsOf input) (sweptState input state) (.expiry height) (by simp [IsMarker])
  rw [settled,admissionState]
  by_cases own : height = input.blockHeight
  · subst own
    rw [record_bucket_self]
    by_cases empty : livenessMarkers result.admitted = []
    · rw [if_pos empty,if_neg (fun both => both.2 empty)]
      exact unmarked
    · rw [if_neg empty,if_pos ⟨rfl,empty⟩]
  · rw [if_neg (fun both => own both.1)]
    have apart : (.expiry height : StateKey Hash Key) ≠ .expiry input.blockHeight := by simpa using own
    exact (record_bucket_frame _ _ _ _ apart).trans unmarked
end
section
variable {Hash Key Sig : Type} [LinearOrder Hash] [DecidableEq Key] {state : State Hash Key Sig}

theorem apply_block_ok (done : applyBlock host input state = .ok output) : checkAdmissions host input = .ok () ∧
    (∃ totals after, MandatoryRun host input (applyParticipation state input.participation) (loadRuntimePolicy state)
      output.mandatory totals after) ∧
    applyOrdinary host input (loadRuntimePolicy state) output.mandatory = (output.state,output.tally) := by
  simp only [applyBlock,bind_ok,mapError_ok,pure_ok] at done
  obtain ⟨_,checked,mandatory,run,rfl⟩ := done
  exact ⟨checked,apply_mandatory_ok run,rfl⟩

def Participates : StateKey Hash Key → Prop
  | .participation | .absent _ => True
  | _ => False

theorem participation_frame (report : Option (ParticipationReport Hash)) : Frame Participates state (applyParticipation state report) := by
  unfold applyParticipation
  split
  · exact .refl state
  · rename_i report
    split
    · have recorded : Frame Participates state ((state.insert .participation report).insert (.absent report.chunkId) report.absent) :=
        ((Frame.refl state).insert .participation trivial report).insert (.absent report.chunkId) trivial report.absent
      simp only
      split
      · exact recorded.erase (.absent _) trivial
      · exact recorded
    · exact .refl state

theorem participation_lookup (outside : ¬Participates key) : (applyParticipation state report).lookup key = state.lookup key :=
  participation_frame report key outside

theorem participation_queue (state : State Hash Key Sig) (report : Option (ParticipationReport Hash)) :
    loadQueue (applyParticipation state report) = loadQueue state := by
  rw [loadQueue,participation_lookup (by simp [Participates]),loadQueue]

theorem block_lookup (done : applyBlock host input state = .ok output) (outside : ¬Ordinary key) :
    output.state.lookup key = output.mandatory.state.lookup key := by
  obtain ⟨-,-,ordinary⟩ := apply_block_ok done
  have frame := ordinary_frame host input (loadRuntimePolicy state) output.mandatory key outside
  rwa [ordinary] at frame

theorem sweeps_participation : Sweeps (applyParticipation state report) height retention key ↔ Sweeps state height retention key := by
  have same : ∀ level, bucket (applyParticipation state report) level = bucket state level :=
    fun level => participation_lookup (by simp [Participates])
  simp only [Sweeps,same]

theorem swept_stands (marker : IsMarker key) : Stands (sweptState input (applyParticipation state input.participation)) key ↔
      Stands state key ∧ ¬Sweeps state input.blockHeight input.evidenceAnchor.unbondingDelayBlocks key := by
  have outside : ¬Participates key := by cases key <;> simp_all [IsMarker,Participates]
  rw [Stands,sweptState]
  by_cases swept : Sweeps state input.blockHeight input.evidenceAnchor.unbondingDelayBlocks key
  · rw [sweep_gone (sweeps_participation.mpr swept)]
    simp [swept]
  · rw [sweep_kept (fun found => swept (sweeps_participation.mp found)),participation_lookup outside]
    simp [swept,Stands]

theorem block_markers (done : applyBlock host input state = .ok output) (marker : IsMarker key) : Stands output.state key ↔
      (Stands state key ∧ ¬Sweeps state input.blockHeight input.evidenceAnchor.unbondingDelayBlocks key) ∨
      key ∈ output.mandatory.admitted.map Sanction.markerKey ∨ key ∈ output.mandatory.executed.map (·.item.sanction.markerKey) := by
  obtain ⟨-,⟨totals,after,run⟩,-⟩ := apply_block_ok done
  rw [Stands,block_lookup done (marker_not_ordinary marker)]
  exact (phase_markers run marker).trans (or_congr_left (swept_stands marker))

def BucketsSound (state : State Hash Key Sig) : Prop :=
  ∀ height keys, bucket state height = some keys → ∀ key ∈ keys, ∃ id, key = .offence id

theorem block_bucket (done : applyBlock host input state = .ok output) (sound : BucketsSound state) (height : Nat) :
    bucket output.state height = if height = input.blockHeight ∧ livenessMarkers output.mandatory.admitted ≠ [] then
        some (livenessMarkers output.mandatory.admitted)
      else if height + input.evidenceAnchor.unbondingDelayBlocks + 1 = input.blockHeight then none else bucket state height := by
  obtain ⟨-,⟨totals,after,run⟩,-⟩ := apply_block_ok done
  have settled : bucket output.state height = bucket output.mandatory.state height := block_lookup done (by simp [Ordinary])
  rw [settled,phase_bucket run]
  refine ite_congr rfl (fun _ => rfl) fun _ => ?_
  have untouched : bucket (applyParticipation state input.participation) height = bucket state height :=
    participation_lookup (by simp [Participates])
  by_cases swept : Sweeps state input.blockHeight input.evidenceAnchor.unbondingDelayBlocks (.expiry height)
  · have gone : bucket (sweptState input (applyParticipation state input.participation)) height = none :=
      sweep_gone (sweeps_participation.mpr swept)
    obtain ⟨expired,keys,due,found,listed⟩ := swept
    rcases listed with member | same
    · obtain ⟨id,wrong⟩ := sound expired keys found _ member
      cases wrong
    · have height : height = expired := by simpa using same
      rw [gone,height,if_pos due]
  · have kept : bucket (sweptState input (applyParticipation state input.participation)) height = bucket state height :=
      (sweep_kept (fun found => swept (sweeps_participation.mp found))).trans untouched
    rw [kept]
    split
    · rename_i due
      cases found : bucket state height with
      | none => rfl
      | some keys => exact absurd ⟨height,keys,due,found,.inr rfl⟩ swept
    · rfl

theorem buckets_sound_block (done : applyBlock host input state = .ok output) (sound : BucketsSound state) : BucketsSound output.state := by
  intro height keys found key member
  rw [block_bucket done sound] at found
  split at found
  · cases found
    simp only [livenessMarkers,List.mem_map,List.mem_filter,decide_eq_true_eq] at member
    obtain ⟨sanction,⟨-,kind⟩,rfl⟩ := member
    exact ⟨sanction.offenceId,by simp [Sanction.markerKey,replayMarker,kind]⟩
  · split at found
    · exact nomatch found
    · exact sound height keys found key member

-- Rows that neither the participation report nor the admissions write.
structure Carried (key : StateKey Hash Key) : Prop where
  notMarker : ¬IsMarker key
  notReport : ¬Participates key
  notBucket : ∀ height, key ≠ .expiry height

theorem admission_kept (kept : ¬Sweeps state input.blockHeight input.evidenceAnchor.unbondingDelayBlocks key) (carried : Carried key)
    (policy : RuntimePolicy) (admitted : List (Sanction Hash Key)) :
    (admissionState input (applyParticipation state input.participation) policy admitted).lookup key = state.lookup key := by
  rw [admissionState,record_bucket_frame _ _ _ key (carried.notBucket _)]
  refine (write_markers_frame (claimsOf input) _ key carried.notMarker).trans ?_
  exact (sweep_kept (mt sweeps_participation.mp kept)).trans (participation_lookup carried.notReport)

theorem admission_lookup (sound : BucketsSound state) (carried : Carried key) (policy : RuntimePolicy)
    (admitted : List (Sanction Hash Key)) :
    (admissionState input (applyParticipation state input.participation) policy admitted).lookup key = state.lookup key := by
  refine admission_kept ?_ carried policy admitted
  rintro ⟨expired,keys,-,found,member | own⟩
  · obtain ⟨id,rfl⟩ := sound expired keys found key member
    exact carried.notMarker trivial
  · exact carried.notBucket expired own

theorem executions_lookup (sound : BucketsSound state)
    (run : MandatoryRun host input (applyParticipation state input.participation) policy result totals after)
    (carried : Carried key) (notBonded : ¬Bonded key) : after.lookup key = state.lookup key := by
  obtain ⟨-,-,frame,-⟩ := execute_all_ok run.executed
  exact (frame key (not_or.mpr ⟨notBonded,carried.notMarker⟩)).trans (admission_lookup sound carried _ _)
end
variable {Hash Key Sig : Type} [LinearOrder Hash] [DecidableEq Key]

structure Tip (Hash Key Sig : Type) [LinearOrder Hash] where
  state : State Hash Key Sig
  height : Nat

structure Executed (Hash Key Sig : Type) [LinearOrder Hash] where
  before : State Hash Key Sig
  input : StfInput Hash Key Sig
  output : BlockOutput Hash Key Sig

def Executed.height (block : Executed Hash Key Sig) : Nat := block.input.blockHeight
def Executed.admitted (block : Executed Hash Key Sig) : List (Sanction Hash Key) := block.output.mandatory.admitted
def Executed.executed (block : Executed Hash Key Sig) : List (Execution Hash Key) := block.output.mandatory.executed

-- Completed blocks at consecutive heights under one unbonding delay.
structure Extends (host : Host Hash Key Sig) (unbondingDelay : Nat) (before : Tip Hash Key Sig) (block : Executed Hash Key Sig)
    (after : Tip Hash Key Sig) : Prop where
  start : block.before = before.state
  completed : applyBlock host block.input before.state = .ok block.output
  consecutive : block.height = before.height + 1
  delay : block.input.evidenceAnchor.unbondingDelayBlocks = unbondingDelay
  result : after = ⟨block.output.state,before.height + 1⟩

def execute (host : Host Hash Key Sig) : Tip Hash Key Sig → List (StfInput Hash Key Sig) →
    Except Panic (List (Executed Hash Key Sig) × Tip Hash Key Sig)
  | tip,[] => .ok ([],tip)
  | tip,input::rest => do
    let output ← applyBlock host input tip.state
    let (blocks,final) ← execute host ⟨output.state,tip.height + 1⟩ rest
    pure (⟨tip.state,input,output⟩::blocks,final)

theorem execute_runs {blocks : List (Executed Hash Key Sig)} (done : execute host tip inputs = .ok (blocks,final))
    (heights : inputs.map (·.blockHeight) = List.range' (tip.height + 1) inputs.length)
    (delays : ∀ input ∈ inputs, input.evidenceAnchor.unbondingDelayBlocks = unbondingDelay) :
    Runs (Extends host unbondingDelay) tip blocks final := by
  induction inputs generalizing tip blocks with
  | nil =>
    cases done
    exact .nil
  | cons input rest ih =>
    simp only [execute,bind_ok,pure_ok,Prod.mk.injEq] at done
    obtain ⟨output,first,⟨later,last⟩,tail,rfl,rfl⟩ := done
    rw [List.map_cons,List.length_cons,List.range'_succ,List.cons.injEq] at heights
    have one : Runs (Extends host unbondingDelay) tip [⟨tip.state,input,output⟩] ⟨output.state,tip.height + 1⟩ :=
      Runs.snoc .nil ⟨rfl,first,heights.1,delays input (by simp),rfl⟩
    exact one.append (ih tail heights.2 fun other member => delays other (by simp [member]))
end Neutrino.Runtime
