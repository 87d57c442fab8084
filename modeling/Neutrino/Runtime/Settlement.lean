import Neutrino.Runtime.Markers

-- The sanction queue over whole runs: FIFO, bounded by policy, counted by the totals.
namespace Neutrino.Runtime
open Checks Consensus Chain Ledger

section
variable {Hash Key Sig : Type} [LinearOrder Hash] [DecidableEq Key] {state : State Hash Key Sig}

theorem queue_carried : Carried (.queue : StateKey Hash Key) := ⟨by simp [IsMarker],by simp [Participates],by simp⟩
theorem totals_carried : Carried (.settlementTotals : StateKey Hash Key) := ⟨by simp [IsMarker],by simp [Participates],by simp⟩
theorem policy_carried : Carried (.runtimePolicy : StateKey Hash Key) := ⟨by simp [IsMarker],by simp [Participates],by simp⟩

theorem block_queue (injective : Function.Injective host.queueCommitment) (sound : BucketsSound state)
    (done : applyBlock host input state = .ok output) : loadQueue output.state = output.mandatory.queue := by
  obtain ⟨-,⟨totals,after,run⟩,-⟩ := apply_block_ok done
  rw [loadQueue,block_lookup done (by simp [Ordinary]),run.state,storeQueue]
  split
  · rename_i unchanged
    rw [store_totals_frame _ _ _ .queue (by simp),executions_lookup sound run queue_carried (by simp [Bonded])]
    exact (participation_queue _ _).symm.trans (injective unchanged)
  · rw [AList.lookup_insert]
    rfl

theorem executed_length (run : MandatoryRun host input state policy result totals after) :
    result.executed.length = executionCount input state policy := by
  rw [← List.length_map (·.item),(execute_all_ok run.executed).1,List.length_take,executionCount]
  exact Nat.min_eq_left (Nat.min_le_left _ _)

theorem block_totals (sound : BucketsSound state) (done : applyBlock host input state = .ok output)
    (run : MandatoryRun host input (applyParticipation state input.participation) (loadRuntimePolicy state) output.mandatory totals after) :
    loadTotals output.state = if output.mandatory.admitted ≠ [] ∨ output.mandatory.executed ≠ [] then totals else loadTotals state := by
  have count : 0 < executionCount input (applyParticipation state input.participation) (loadRuntimePolicy state) ↔
      output.mandatory.executed ≠ [] := by
    rw [← executed_length run,List.length_pos_iff]
  rw [loadTotals,block_lookup done (by simp [Ordinary]),run.state,store_queue_frame _ _ .settlementTotals (by simp),storeTotals]
  simp only [count,decide_eq_true_eq]
  split
  · rw [AList.lookup_insert]
    rfl
  · rw [executions_lookup sound run totals_carried (by simp [Bonded])]
    rfl
end
section
variable {Hash Key Sig : Type} [LinearOrder Hash] [DecidableEq Key]

-- A counter is exact until it overflows, and then stays flagged.
def SettlementCounter.Counts (counter : SettlementCounter) (count : Nat) : Prop := counter.overflowed = false → counter.value = count

theorem SettlementCounter.Counts.add {counter : SettlementCounter} (counts : counter.Counts count) (amount : Nat) :
    (counter.add amount).Counts (count + amount) := by
  intro fits
  rw [SettlementCounter.add] at fits ⊢
  split at fits
  · rename_i value sum
    simp only
    rw [← (checked_add128_some.mp sum).1,counts fits]
  · exact nomatch fits

-- What the totals of one kind count: admissions and completed executions.
structure SettlementKindTotals.Counts (totals : SettlementKindTotals) (admitted : Nat) (done : List (Execution Hash Key)) : Prop where
  admitted : totals.admitted.Counts admitted
  executed : totals.executed.Counts done.length
  deducted : totals.deducted.Counts (done.map (·.deducted)).sum
  rewarded : totals.rewarded.Counts (done.map (·.rewarded)).sum
  burned : totals.burned.Counts (done.map fun execution => execution.deducted - execution.rewarded).sum

theorem of_kind_update (totals : SettlementTotals) (change : SettlementKindTotals → SettlementKindTotals) (changed kind : SanctionKind) :
    (totals.update change changed).ofKind kind = if changed = kind then change (totals.ofKind kind) else totals.ofKind kind := by
  cases changed <;> cases kind <;> rfl

def ofKind (kind : SanctionKind) (executed : List (Execution Hash Key)) : List (Execution Hash Key) :=
  executed.filter (·.item.sanction.kind = kind)

theorem of_kind_append (kind : SanctionKind) (earlier later : List (Execution Hash Key)) :
    ofKind kind (earlier ++ later) = ofKind kind earlier ++ ofKind kind later := List.filter_append ..

variable {totals : SettlementTotals} {count : Nat} {done : List (Execution Hash Key)}

theorem note_admitted_counts (counts : (totals.ofKind kind).Counts count done) (admitted : List (Sanction Hash Key)) :
    ((admitted.foldl (fun totals sanction => totals.noteAdmitted sanction.kind) totals).ofKind kind).Counts
      (count + (admitted.filter (·.kind = kind)).length) done := by
  induction admitted generalizing totals count with
  | nil => exact counts
  | cons sanction rest ih =>
    rw [List.foldl_cons]
    by_cases same : sanction.kind = kind
    · have step : ((totals.noteAdmitted sanction.kind).ofKind kind).Counts (count + 1) done := by
        rw [SettlementTotals.noteAdmitted,of_kind_update,if_pos same]
        exact ⟨counts.admitted.add 1,counts.executed,counts.deducted,counts.rewarded,counts.burned⟩
      have later := ih step
      rwa [List.filter_cons_of_pos (by simpa using same),List.length_cons,Nat.add_comm _ 1,← Nat.add_assoc]
    · have step : ((totals.noteAdmitted sanction.kind).ofKind kind).Counts count done := by
        rw [SettlementTotals.noteAdmitted,of_kind_update,if_neg same]
        exact counts
      rw [List.filter_cons_of_neg (by simpa using same)]
      exact ih step

theorem execute_pending_counts {state next : State Hash Key Sig} (counts : (totals.ofKind kind).Counts count done)
    (executed : executePending state totals item = .ok (execution,after,next)) :
    (after.ofKind kind).Counts count (done ++ ofKind kind [execution]) := by
  have same : execution.item.sanction.kind = item.sanction.kind := by rw [(execute_pending_ok executed).1]
  simp only [executePending,SettlementTotals.noteExecuted,bind_ok,ensure_ok,pure_ok,Prod.mk.injEq] at executed
  obtain ⟨⟨_,_⟩,-,_,⟨_,-,rfl⟩,rfl,rfl,-⟩ := executed
  simp only at same
  rw [of_kind_update]
  by_cases own : item.sanction.kind = kind
  · rw [if_pos own,ofKind,List.filter_cons_of_pos (by simpa [same] using own)]
    refine ⟨counts.admitted,?_,?_,?_,?_⟩
    · simpa using counts.executed.add 1
    · simpa using counts.deducted.add _
    · simpa using counts.rewarded.add _
    · simpa using counts.burned.add _
  · rw [if_neg own,ofKind,List.filter_cons_of_neg (by simpa [same] using own)]
    simpa using counts

theorem execute_all_counts {items : List (PendingSanction Hash Key)} (counts : (totals.ofKind kind).Counts count done)
    (run : executeAll state totals items = .ok (executed,after,next)) :
    (after.ofKind kind).Counts count (done ++ ofKind kind executed) := by
  induction items generalizing state totals executed done with
  | nil =>
    cases run
    simpa [ofKind] using counts
  | cons item rest ih =>
    simp only [executeAll,bind_ok,pure_ok,Prod.mk.injEq] at run
    obtain ⟨⟨first,_,_⟩,one,⟨later,_,_⟩,tail,rfl,rfl,rfl⟩ := run
    have counted := ih (execute_pending_counts counts one) tail
    rwa [List.append_assoc,← of_kind_append,List.singleton_append] at counted

theorem deductions_split (paid : ∀ execution ∈ done, execution.rewarded ≤ execution.deducted) : (done.map (·.deducted)).sum =
      (done.map (·.rewarded)).sum + (done.map fun execution => execution.deducted - execution.rewarded).sum := by
  induction done with
  | nil => rfl
  | cons execution rest ih =>
    have first := paid execution (by simp)
    have later := ih fun other member => paid other (List.mem_cons_of_mem _ member)
    simp only [List.map_cons,List.sum_cons]
    omega
end
section
variable {Hash Key Sig : Type} [LinearOrder Hash] [DecidableEq Key] {output : BlockOutput Hash Key Sig}

theorem Outcome.fits {facts : BlockFacts Hash Key Sig} (outcome : Outcome facts before after)
    (held : PolicyEnactable facts.governance (loadRuntimePolicy before)) : PolicyEnactable facts.governance (loadRuntimePolicy after) := by
  cases outcome with
  | staking frame =>
    rw [loadRuntimePolicy,frame .runtimePolicy (by simp [Bonded])]
    exact held
  | @governance proposal entries signer account sanctioned =>
    rcases settle_policy (storeAccount before signer account) proposal entries with same | ⟨reached,action⟩
    · rw [same,loadRuntimePolicy,store_account_frame before signer account .runtimePolicy (by simp [Bonded])]
      exact held
    · exact sanctioned.fits _ action reached

theorem block_bounded (sound : BucketsSound state) (done : applyBlock host input state = .ok output) :
    output.mandatory.queue.length ≤ (loadRuntimePolicy output.state).evidenceMaxPending := by
  obtain ⟨-,⟨totals,after,run⟩,ordinary⟩ := apply_block_ok done
  have kept : loadRuntimePolicy (expire output.mandatory.state input.evidenceAnchor.chunkId) = loadRuntimePolicy state := by
    rw [loadRuntimePolicy,expire_frame _ _ .runtimePolicy (by simp [Scheduling]),phase_lookup run (by simp) (by simp),
      executions_lookup sound run policy_carried (by simp [Bonded]),loadRuntimePolicy]
  have final : PolicyEnactable (blockFacts input (loadRuntimePolicy state) output.mandatory.queue).governance
      (loadRuntimePolicy (applyOrdinary host input (loadRuntimePolicy state) output.mandatory).1) :=
    ordinary_induct (fun current => PolicyEnactable _ (loadRuntimePolicy current)) (by rw [kept]; exact run.capacity)
      fun _ _ outcome held => outcome.fits held
  rw [ordinary] at final
  exact final

structure Completes (host : Host Hash Key Sig) (before : State Hash Key Sig) (block : Executed Hash Key Sig)
    (after : State Hash Key Sig) : Prop where
  start : block.before = before
  completed : applyBlock host block.input before = .ok block.output
  result : after = block.output.state

def Executed.obligations (block : Executed Hash Key Sig) : List (PendingSanction Hash Key) :=
  Runtime.obligations block.input (loadRuntimePolicy block.before)

structure Unburdened (genesis : State Hash Key Sig) : Prop where
  queue : loadQueue genesis = []
  totals : loadTotals genesis = {}
  buckets : ∀ height, bucket genesis height = none

theorem extends_completes {blocks : List (Executed Hash Key Sig)}
    (run : Runs (Extends host unbondingDelay) tip blocks last) : Runs (Completes host) tip.state blocks last.state := by
  induction run with
  | nil => exact .nil
  | snoc _ step ih => exact ih.snoc ⟨step.start,step.completed,by rw [step.result]⟩

variable {blocks : List (Executed Hash Key Sig)} {start final next : State Hash Key Sig}

def executions (blocks : List (Executed Hash Key Sig)) : List (Execution Hash Key) := blocks.flatMap (·.executed)
def allObligations (blocks : List (Executed Hash Key Sig)) : List (PendingSanction Hash Key) := blocks.flatMap (·.obligations)

theorem executions_append (earlier later : List (Executed Hash Key Sig)) :
    executions (earlier ++ later) = executions earlier ++ executions later := List.flatMap_append

theorem obligations_append (earlier later : List (Executed Hash Key Sig)) :
    allObligations (earlier ++ later) = allObligations earlier ++ allObligations later := List.flatMap_append

theorem Completes.admitted (step : Completes host state block next) : block.obligations.map (·.sanction) = block.admitted := by
  obtain ⟨-,⟨_,_,run⟩,-⟩ := apply_block_ok step.completed
  rw [Executed.admitted,run.admitted,Executed.obligations,obligations,List.map_map]
  refine List.map_congr_left fun claim _ => ?_
  rw [Function.comp_apply,obligation]
  split <;> rfl

theorem Completes.fifo (step : Completes host state block next) (injective : Function.Injective host.queueCommitment)
    (sound : BucketsSound state) : block.executed.map (·.item) ++ loadQueue next = loadQueue state ++ block.obligations := by
  have start := step.start
  have result := step.result
  subst start result
  obtain ⟨-,⟨_,_,run⟩,-⟩ := apply_block_ok step.completed
  rw [block_queue injective sound step.completed]
  change block.output.mandatory.executed.map (·.item) ++ _ = _
  rw [(execute_all_ok run.executed).1,run.queue,List.take_append_drop,queued,participation_queue]
  rfl

theorem Completes.progress (step : Completes host state block next) (waiting : loadQueue state ≠ []) : 0 < block.executed.length := by
  obtain ⟨-,⟨_,_,run⟩,-⟩ := apply_block_ok step.completed
  obtain ⟨⟨-,-,-,-,-,-,-,positive,-⟩,-⟩ := run.valid
  have nonempty := List.length_pos_iff.mpr waiting
  rw [Executed.executed,executed_length run,executionCount,queued,participation_queue,List.length_append]
  omega

structure Settled (blocks : List (Executed Hash Key Sig)) (state : State Hash Key Sig) : Prop where
  sound : BucketsSound state
  admitted : ∀ block ∈ blocks, block.obligations.map (·.sanction) = block.admitted
  fifo : allObligations blocks = (executions blocks).map (·.item) ++ loadQueue state
  bounded : (loadQueue state).length ≤ (loadRuntimePolicy state).evidenceMaxPending
  counts : ∀ kind, ((loadTotals state).ofKind kind).Counts ((allObligations blocks).filter (·.sanction.kind = kind)).length
    (ofKind kind (executions blocks))
  paid : ∀ execution ∈ executions blocks, execution.rewarded ≤ execution.deducted

theorem Completes.counts (step : Completes host state block next) (sound : BucketsSound state) (counts : ((loadTotals state).ofKind kind).Counts count done) :
    ((loadTotals next).ofKind kind).Counts (count + (block.obligations.filter (·.sanction.kind = kind)).length)
      (done ++ ofKind kind block.executed) := by
  obtain ⟨-,⟨totals,after,run⟩,-⟩ := apply_block_ok step.completed
  have same : (block.obligations.filter (·.sanction.kind = kind)).length = (block.admitted.filter (·.kind = kind)).length := by
    rw [← step.admitted,List.filter_map,List.length_map]
    rfl
  rw [same,step.result,block_totals sound step.completed run]
  split
  · rename_i settles
    have opened : loadTotals (admissionState block.input (applyParticipation state block.input.participation)
        (loadRuntimePolicy state) block.output.mandatory.admitted) = loadTotals state := by
      rw [loadTotals,admission_lookup sound totals_carried,loadTotals]
    have executing := executed_length run
    refine execute_all_counts ?_ run.executed
    rw [openTotals,opened,if_pos]
    · exact note_admitted_counts counts _
    · rw [decide_eq_true_eq,← executing,List.length_pos_iff]
      exact settles
  · rename_i idle
    obtain ⟨noAdmission,noExecution⟩ := not_or.mp idle
    rw [Executed.admitted,Executed.executed,not_not.mp noAdmission,not_not.mp noExecution]
    simpa [ofKind] using counts

theorem settled_step (injective : Function.Injective host.queueCommitment) (step : Completes host state block next)
    (settled : Settled blocks state) : Settled (blocks ++ [block]) next := by
  obtain ⟨-,⟨totals,after,run⟩,-⟩ := apply_block_ok step.completed
  have own : executions [block] = block.executed ∧ allObligations [block] = block.obligations := by
    simp [executions,allObligations]
  refine ⟨?_,fun other member => ?_,?_,?_,fun kind => ?_,fun execution member => ?_⟩
  · rw [step.result]
    exact buckets_sound_block step.completed settled.sound
  · rcases List.mem_append.mp member with old | new
    · exact settled.admitted other old
    · rw [List.mem_singleton.mp new]
      exact step.admitted
  · rw [obligations_append,executions_append,own.1,own.2,settled.fifo,List.map_append,List.append_assoc,List.append_assoc,
      step.fifo injective settled.sound]
  · rw [step.result,block_queue injective settled.sound step.completed]
    exact block_bounded settled.sound step.completed
  · rw [obligations_append,executions_append,own.1,own.2,List.filter_append,List.length_append,of_kind_append]
    exact step.counts settled.sound (settled.counts kind)
  · rw [executions_append,own.1] at member
    exact List.forall_mem_append.mpr ⟨settled.paid,(execute_all_ok run.executed).2.1⟩ execution member

theorem settled_run (injective : Function.Injective host.queueCommitment) (genesis : Unburdened start)
    (run : Runs (Completes host) start blocks final) : Settled blocks final := by
  refine run.invariant Settled ⟨fun height keys found => ?_,by simp,?_,?_,fun kind => ?_,by simp [executions]⟩
    fun _ _ _ _ _ settled step => settled_step injective step settled
  · rw [genesis.buckets height] at found
    exact nomatch found
  · rw [genesis.queue]
    rfl
  · rw [genesis.queue]
    exact Nat.zero_le _
  · rw [genesis.totals]
    cases kind <;> exact ⟨fun _ => rfl,fun _ => rfl,fun _ => rfl,fun _ => rfl,fun _ => rfl⟩

theorem obligations_progress (injective : Function.Injective host.queueCommitment) (genesis : Unburdened start)
    (run : Runs (Completes host) start (earlier ++ later) final) :
    min (allObligations earlier).length later.length ≤ (executions (earlier ++ later)).length := by
  induction later using List.reverseRecOn generalizing final with
  | nil => simp
  | append_singleton later block ih =>
    rw [← List.append_assoc] at run ⊢
    obtain ⟨middle,prior,step⟩ := run.snoc_inv
    have earliest := ih prior
    have lengths := congrArg List.length (settled_run injective genesis prior).fifo
    rw [obligations_append,List.length_append,List.length_append,List.length_map] at lengths
    rw [executions_append,List.length_append,List.length_append,List.length_singleton]
    have own : (executions [block]).length = block.executed.length := by simp [executions]
    by_cases waiting : loadQueue middle = []
    · rw [waiting,List.length_nil] at lengths
      omega
    · have executed := step.progress waiting
      omega

end

theorem sample_genesis_unburdened (executions : Nat) : Unburdened (sampleGenesis executions).state where
  queue := by
    have absent : (sampleGenesis executions).state.lookup .queue = none := sample_genesis_marker executions id
    rw [loadQueue,absent]
    rfl
  totals := by
    have absent : (sampleGenesis executions).state.lookup .settlementTotals = none := sample_genesis_marker executions id
    rw [loadTotals,absent]
    rfl
  buckets := sample_genesis_clean executions

end Neutrino.Runtime
