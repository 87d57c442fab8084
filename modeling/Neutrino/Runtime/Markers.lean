import Neutrino.Runtime.Mandatory

-- No offence is admitted twice, and a liveness marker leaves with its bucket unless
-- a late execution writes it again.
namespace Neutrino.Runtime
open Checks Consensus Chain Ledger

section
variable {Hash Key Sig : Type} [LinearOrder Hash] [DecidableEq Key] {host : Host Hash Key Sig} {unbondingDelay : Nat}

def admissions (blocks : List (Executed Hash Key Sig)) : List (Sanction Hash Key) := blocks.flatMap (·.admitted)
def Executed.Marks (block : Executed Hash Key Sig) (key : StateKey Hash Key) : Prop := key ∈ block.admitted.map Sanction.markerKey

theorem mem_liveness_markers : key ∈ livenessMarkers admitted ↔
      ∃ sanction ∈ admitted, sanction.kind = .inactivity ∧ key = .offence sanction.offenceId := by
  simp only [livenessMarkers,List.mem_map,List.mem_filter,decide_eq_true_eq]
  constructor
  · rintro ⟨sanction,⟨listed,kind⟩,rfl⟩
    exact ⟨sanction,listed,kind,by simp [Sanction.markerKey,replayMarker,kind]⟩
  · rintro ⟨sanction,listed,kind,rfl⟩
    exact ⟨sanction,⟨listed,kind⟩,by simp [Sanction.markerKey,replayMarker,kind]⟩

theorem offence_marker {sanction : Sanction Hash Key} {id : Hash} (same : sanction.markerKey = .offence id) :
    sanction.kind = .inactivity ∧ sanction.offenceId = id := by
  obtain ⟨offence,offender,kind⟩ := sanction
  cases kind with
  | slash => exact nomatch same
  | inactivity => exact ⟨rfl,by simpa [Sanction.markerKey,replayMarker] using same⟩

-- The receipt of an inactivity claim fixes where its source chunk ends.
def Authentic (sourceEnd : Hash → Nat) (block : Executed Hash Key Sig) : Prop :=
  ∀ claim ∈ claimsOf block.input, claim.statement.kind = .inactivity →
    claim.statement.context.endHeight = sourceEnd claim.statement.offenceId

structure Tracked (unbondingDelay : Nat) (sourceEnd : Hash → Nat) (blocks : List (Executed Hash Key Sig))
    (tip : Tip Hash Key Sig) : Prop where
  past : ∀ block ∈ blocks, block.height ≤ tip.height
  listed : ∀ height keys, bucket tip.state height = some keys → ∀ key ∈ keys,
    ∃ id block, key = .offence id ∧ block ∈ blocks ∧ block.height = height ∧ block.Marks key
  standing : ∀ block ∈ blocks, ∀ key, block.Marks key → Stands tip.state key ∨
    ∃ id other, key = .offence id ∧ other ∈ blocks ∧ other.Marks key ∧ other.height + unbondingDelay + 1 ≤ tip.height
  early : ∀ block ∈ blocks, ∀ id, block.Marks (.offence id) → sourceEnd id < block.height

variable {sourceEnd : Hash → Nat} {blocks : List (Executed Hash Key Sig)} {block : Executed Hash Key Sig}
variable {tip next : Tip Hash Key Sig}

theorem Tracked.sound (tracked : Tracked unbondingDelay sourceEnd blocks tip) : BucketsSound tip.state := by
  intro height keys found key member
  obtain ⟨id,-,same,-⟩ := tracked.listed height keys found key member
  exact ⟨id,same⟩

theorem Tracked.swept (tracked : Tracked unbondingDelay sourceEnd blocks tip)
    (marker : IsMarker key) (gone : Sweeps tip.state height unbondingDelay key) :
    ∃ id other, key = .offence id ∧ other ∈ blocks ∧ other.Marks key ∧ other.height + unbondingDelay + 1 = height := by
  obtain ⟨expired,keys,due,found,member | rfl⟩ := gone
  · obtain ⟨id,other,same,past,bucketed,marks⟩ := tracked.listed expired keys found key member
    exact ⟨id,other,same,past,marks,by omega⟩
  · exact nomatch marker

section
variable (step : Extends host unbondingDelay tip block next)
include step

theorem claims_admitted : block.admitted = (claimsOf block.input).map (·.statement.toSanction) := by
  obtain ⟨-,⟨_,_,run⟩,-⟩ := apply_block_ok step.completed
  exact run.admitted

theorem marks_claim (marks : block.Marks key) : ∃ claim ∈ claimsOf block.input, markerKey claim.statement = key := by
  rw [Executed.Marks,claims_admitted step,List.map_map] at marks
  obtain ⟨claim,member,same⟩ := List.mem_map.mp marks
  exact ⟨claim,member,same⟩

theorem offence_window (authentic : Authentic sourceEnd block) {id : Hash}
    (marks : block.Marks (.offence id)) : sourceEnd id < block.height ∧ block.height < sourceEnd id + unbondingDelay := by
  obtain ⟨-,⟨_,_,run⟩,-⟩ := apply_block_ok step.completed
  obtain ⟨claim,member,same⟩ := marks_claim step marks
  obtain ⟨inactive,named⟩ : claim.statement.kind = .inactivity ∧ claim.statement.offenceId = id :=
    offence_marker (show claim.statement.toSanction.markerKey = .offence id from same)
  have ending := authentic claim member inactive
  have window := run.timely claim member
  simp only [EvidenceSubmission.withinAge,inactive,decide_eq_true_eq,ending,named] at window
  have valid := run.valid.2.2
  rw [step.delay] at valid
  have height : block.height = block.input.blockHeight := rfl
  omega

theorem tracked_step (authentic : Authentic sourceEnd block) (tracked : Tracked unbondingDelay sourceEnd blocks tip) :
    Tracked unbondingDelay sourceEnd (blocks ++ [block]) next := by
  have height := step.consecutive
  have after := step.result
  subst after
  have atHeight : block.input.blockHeight = tip.height + 1 := height
  refine ⟨fun other member => ?_,fun expiry keys found key member => ?_,fun other member key marks => ?_, fun other member id marks => ?_⟩
  · rcases List.mem_append.mp member with old | new
    · have earlier := tracked.past other old
      simp only
      omega
    · rw [List.mem_singleton.mp new,height]
  · rw [block_bucket step.completed tracked.sound] at found
    split at found
    · rename_i own
      cases found
      obtain ⟨sanction,admitted,kind,rfl⟩ := mem_liveness_markers.mp member
      refine ⟨_,block,rfl,by simp,own.1.symm,List.mem_map.mpr ⟨sanction,admitted,?_⟩⟩
      simp [Sanction.markerKey,replayMarker,kind]
    · split at found
      · cases found
      · obtain ⟨id,other,same,past,bucketed,marks⟩ := tracked.listed expiry keys found key member
        exact ⟨id,other,same,List.mem_append_left _ past,bucketed,marks⟩
  · have marker : IsMarker key := by
      obtain ⟨sanction,-,rfl⟩ := List.mem_map.mp marks
      exact marker_key_is_marker sanction
    rcases List.mem_append.mp member with old | new
    · rcases tracked.standing other old key marks with stands | ⟨id,first,same,past,own,late⟩
      · by_cases gone : Sweeps tip.state (tip.height + 1) unbondingDelay key
        · obtain ⟨id,first,same,past,own,due⟩ := tracked.swept marker gone
          exact .inr ⟨id,first,same,List.mem_append_left _ past,own,by simp only; omega⟩
        · refine .inl ((block_markers step.completed marker).mpr (.inl ⟨stands,?_⟩))
          rw [atHeight,step.delay]
          exact gone
      · exact .inr ⟨id,first,same,List.mem_append_left _ past,own,by simp only; omega⟩
    · rw [List.mem_singleton.mp new] at marks
      exact .inl ((block_markers step.completed marker).mpr (.inr (.inl marks)))
  · rcases List.mem_append.mp member with old | new
    · exact tracked.early other old id marks
    · rw [List.mem_singleton.mp new] at marks ⊢
      exact (offence_window step authentic marks).1

theorem markers_fresh (authentic : Authentic sourceEnd block)
    (tracked : Tracked unbondingDelay sourceEnd blocks tip) (marks : block.Marks key) : ∀ other ∈ blocks, ¬other.Marks key := by
  intro other past own
  obtain ⟨-,⟨_,_,run⟩,-⟩ := apply_block_ok step.completed
  have marker : IsMarker key := by
    obtain ⟨sanction,-,rfl⟩ := List.mem_map.mp marks
    exact marker_key_is_marker sanction
  have atHeight : block.input.blockHeight = tip.height + 1 := step.consecutive
  have absent : ¬Stands (sweptState block.input (applyParticipation tip.state block.input.participation)) key := by
    obtain ⟨claim,member,rfl⟩ := marks_claim step marks
    have unmarked := run.admissible.unmarked claim member
    rw [marked] at unmarked
    rw [Stands,unmarked]
    exact Bool.false_ne_true
  rw [swept_stands marker,atHeight,step.delay] at absent
  have late : ∃ id first, key = .offence id ∧ first ∈ blocks ∧ first.Marks key ∧ first.height + unbondingDelay + 1 ≤ tip.height + 1 := by
    rcases tracked.standing other past key own with stands | ⟨id,first,same,past,own,due⟩
    · obtain ⟨id,first,same,past,own,due⟩ := tracked.swept marker (by_contra fun kept => absent ⟨stands,kept⟩)
      exact ⟨id,first,same,past,own,by omega⟩
    · exact ⟨id,first,same,past,own,by omega⟩
  obtain ⟨id,first,rfl,past,own,due⟩ := late
  have before := tracked.early first past id own
  have window := (offence_window step authentic marks).2
  rw [step.consecutive] at window
  omega
end

theorem admissions_distinct (clean : ∀ height, bucket genesis.state height = none)
    (authentic : ∀ block ∈ blocks, Authentic sourceEnd block) (run : Runs (Extends host unbondingDelay) genesis blocks tip) :
    Tracked unbondingDelay sourceEnd blocks tip ∧ ((admissions blocks).map Sanction.markerKey).Nodup := by
  revert authentic
  refine run.invariant (fun blocks tip => (∀ block ∈ blocks, Authentic sourceEnd block) →
    Tracked unbondingDelay sourceEnd blocks tip ∧ ((admissions blocks).map Sanction.markerKey).Nodup) ?_ ?_
  · intro _
    refine ⟨⟨by simp,fun height keys found => ?_,by simp,by simp⟩,by simp [admissions]⟩
    rw [clean height] at found
    cases found
  · intro blocks middle block after _ held step authentic
    obtain ⟨tracked,distinct⟩ := held fun other member => authentic other (List.mem_append_left _ member)
    have own := authentic block (by simp)
    refine ⟨tracked_step step own tracked,?_⟩
    obtain ⟨-,⟨_,_,run⟩,-⟩ := apply_block_ok step.completed
    rw [admissions,List.flatMap_append,List.flatMap_singleton,← admissions,List.map_append]
    refine List.Nodup.append distinct ?_ fun key old new => ?_
    · rw [claims_admitted step,List.map_map]
      exact run.admissible.distinct
    · obtain ⟨sanction,member,rfl⟩ := List.mem_map.mp old
      obtain ⟨other,past,own'⟩ := List.mem_flatMap.mp member
      exact markers_fresh step own tracked new other past (List.mem_map.mpr ⟨sanction,own',rfl⟩)

theorem labels_distinct {sanctions : List (Sanction Hash Key)} (distinct : (sanctions.map Sanction.markerKey).Nodup)
    {kind : SanctionKind} {label : Sanction Hash Key → A} (name : A → StateKey Hash Key)
    (named : ∀ sanction, sanction.kind = kind → sanction.markerKey = name (label sanction)) :
    ((sanctions.filter (·.kind = kind)).map label).Nodup := by
  have part : ((sanctions.filter (·.kind = kind)).map Sanction.markerKey).Nodup :=
    List.Nodup.sublist (List.Sublist.map _ List.filter_sublist) distinct
  refine List.Nodup.of_map name ?_
  rw [List.map_map]
  refine (List.map_congr_left fun sanction member => ?_) ▸ part
  exact named sanction (by simpa using (List.mem_filter.mp member).2)

-- What an inactivity receipt proves (prover-chunk, evidence.rs): the penalty id in
-- the source chunk, which ends where the chunk size puts it.
def Proven (penaltyId : Validator Hash Key → Nat → Hash) (chunkSize : Nat) (claim : EvidenceStatement Hash Key) : Prop :=
  claim.kind = .inactivity → claim.offenceId = penaltyId claim.offender claim.context.chunkId ∧
    claim.context.endHeight = (claim.context.chunkId + 1) * chunkSize

instance (penaltyId : Validator Hash Key → Nat → Hash) (chunkSize : Nat) (claim : EvidenceStatement Hash Key) :
    Decidable (Proven penaltyId chunkSize claim) := inferInstanceAs (Decidable (_ → _))

theorem proven_authentic {penaltyId : Validator Hash Key → Nat → Hash}
    (separates : ∀ one chunk other later, penaltyId one chunk = penaltyId other later → chunk = later)
    (proven : ∀ block ∈ blocks, ∀ claim ∈ claimsOf block.input, Proven penaltyId chunkSize claim.statement) :
    ∃ sourceEnd, ∀ block ∈ blocks, Authentic sourceEnd block := by
  classical
  refine ⟨fun id => if named : ∃ chunk validator, id = penaltyId validator chunk then (named.choose + 1) * chunkSize else 0,
    fun block member claim listed kind => ?_⟩
  obtain ⟨id,ending⟩ := proven block member claim listed kind
  have named : ∃ chunk validator, claim.statement.offenceId = penaltyId validator chunk := ⟨_,_,id⟩
  obtain ⟨validator,same⟩ := named.choose_spec
  have source : named.choose = claim.statement.context.chunkId := separates _ _ _ _ (same.symm.trans id)
  simp only [dif_pos named,source,ending]

theorem sanctions_admitted_once {genesis : Tip Hash Key Sig} (clean : ∀ height, bucket genesis.state height = none)
    {penaltyId : Validator Hash Key → Nat → Hash} {chunkSize : Nat}
    (separates : ∀ one chunk other later, penaltyId one chunk = penaltyId other later → chunk = later)
    (proven : ∀ block ∈ blocks, ∀ claim ∈ claimsOf block.input, Proven penaltyId chunkSize claim.statement)
    (run : Runs (Extends host unbondingDelay) genesis blocks tip) :
    (((admissions blocks).filter (·.kind = .slash)).map (·.offender.pubkey)).Nodup ∧
    (((admissions blocks).filter (·.kind = .inactivity)).map (·.offenceId)).Nodup := by
  obtain ⟨_,authentic⟩ := proven_authentic separates proven
  have distinct := (admissions_distinct clean authentic run).2
  refine ⟨labels_distinct distinct .slashed fun sanction kind => ?_,labels_distinct distinct .offence fun sanction kind => ?_⟩
  · simp [Sanction.markerKey,replayMarker,kind]
  · simp [Sanction.markerKey,replayMarker,kind]
end

-- Four validators miss the first certificate; one sanction is executed a block.
section
def samplePolicy (executions : Nat) : RuntimePolicy := ⟨1,1,1,4,4,executions,1,1,0⟩

deriving instance Encodable for Validator, SanctionKind, Sanction, PendingSanction

def queueCode (queue : List (PendingSanction Nat Nat)) : Nat := Encodable.encode queue

theorem queue_code_injective : Function.Injective queueCode := Encodable.encode_injective

def sampleHost : Host Nat Nat Nat where
  verifySignature _ _ _ := true
  proposalId proposer _ := proposer
  verifyHistory _ _ _ := true
  queueCommitment := queueCode

def samplePenaltyId (validator : Validator Nat Nat) (chunk : Nat) : Nat := Nat.pair chunk validator.pubkey

def sampleGenesis (executions : Nat) : Tip Nat Nat Nat where
  state := [1,2,3,4].foldl (fun state address => commitValidator state address ⟨10,true⟩)
    ((∅ : AList (Row Nat Nat Nat)).insert .runtimePolicy (samplePolicy executions))
  height := 0

def sampleClaim (member : Nat) : EvidenceSubmission Nat Nat :=
  let offender : Validator Nat Nat := ⟨member,member,10,false,0,100,0⟩
  ⟨⟨7,0,0,⟨0,0,1,0,0,0,0⟩,offender,.inactivity,samplePenaltyId offender 0,0,none⟩,⟨0,1,[]⟩⟩

def sampleInput (height : Nat) : StfInput Nat Nat Nat where
  evidenceAnchor := ⟨0,0,height - 1,0,0,0,2,1⟩
  chainId := 7
  blockHeight := height
  blockGasLimit := 100000
  proposerAddress := 9
  participation := if height = 2 then some ⟨0,[],[1,2,3,4]⟩ else none
  transactions := if height = 2 then [1,2,3,4].map fun member => .submitEvidence (sampleClaim member) else []

def sampleRun (executions : Nat) : Except Panic (List (Executed Nat Nat Nat) × Tip Nat Nat Nat) :=
  execute sampleHost (sampleGenesis executions) ([1,2,3,4,5].map sampleInput)

theorem sample_runs {executions : Nat} {blocks : List (Executed Nat Nat Nat)}
    (done : sampleRun executions = .ok (blocks,tip)) : Runs (Extends sampleHost 2) (sampleGenesis executions) blocks tip :=
  execute_runs done rfl (by decide)

-- One id in the claims of two chunks: the first marker is swept before the second claim.
def echoedClaim (chunk : Nat) : EvidenceSubmission Nat Nat :=
  ⟨⟨7,0,0,⟨chunk,0,chunk + 1,0,0,0,0⟩,⟨1,1,10,false,0,100,0⟩,.inactivity,5,0,none⟩,⟨chunk,chunk + 1,[]⟩⟩

def echoedInput (height : Nat) : StfInput Nat Nat Nat := {sampleInput height with
  participation := if height = 2 ∨ height = 5 then some ⟨height - 2,[],[1]⟩ else none
  transactions := if height = 2 ∨ height = 5 then [.submitEvidence (echoedClaim (height - 2))] else []}

theorem echoed_offence_admitted_twice : ∃ blocks tip, Runs (Extends sampleHost 2) (sampleGenesis 1) blocks tip ∧
    ((admissions blocks).filter (·.kind = .inactivity)).map (·.offenceId) = [5,5] := by
  have facts : (execute sampleHost (sampleGenesis 1) ([1,2,3,4,5].map echoedInput)).toOption.any (fun done =>
      decide (((admissions done.1).filter (·.kind = .inactivity)).map (·.offenceId) = [5,5])) = true := by
    decide +kernel
  obtain ⟨⟨blocks,tip⟩,done,twice⟩ := completed_check facts
  exact ⟨blocks,tip,execute_runs done rfl (by decide),of_decide_eq_true twice⟩

theorem sample_genesis_marker (executions : Nat) (marker : ¬Ordinary key) : (sampleGenesis executions).state.lookup key = none := by
  have seeded (addresses : List Nat) (state : State Nat Nat Nat) :
      (addresses.foldl (fun state address => commitValidator state address ⟨10,true⟩) state).lookup key = state.lookup key := by
    induction addresses generalizing state with
    | nil => rfl
    | cons address rest ih => exact (ih _).trans (commit_frame state address _ key fun bonded => marker (bonded_ordinary bonded))
  have other : key ≠ .runtimePolicy := by
    rintro rfl
    exact marker trivial
  rw [sampleGenesis,seeded,AList.lookup_insert_ne other,AList.lookup_empty]

theorem sample_genesis_clean (executions height : Nat) : bucket (sampleGenesis executions).state height = none :=
  sample_genesis_marker executions id

theorem sample_genesis_unmarked (executions id : Nat) : ¬Stands (sampleGenesis executions).state (.offence id) := by
  have absent : (sampleGenesis executions).state.lookup (.offence id) = none := sample_genesis_marker executions fun held => held
  simp [Stands,absent]

theorem sample_offences_admitted : ∃ blocks tip, sampleRun 1 = .ok (blocks,tip) ∧ (admissions blocks).length = 4 ∧
    (((admissions blocks).filter (·.kind = .slash)).map (·.offender.pubkey)).Nodup ∧
    (((admissions blocks).filter (·.kind = .inactivity)).map (·.offenceId)).Nodup := by
  have facts : (sampleRun 1).toOption.any (fun done => decide ((admissions done.1).length = 4 ∧
      ∀ block ∈ done.1, ∀ claim ∈ claimsOf block.input, Proven samplePenaltyId 1 claim.statement)) = true := by
    decide +kernel
  obtain ⟨⟨blocks,tip⟩,done,facts⟩ := completed_check facts
  obtain ⟨count,proven⟩ := of_decide_eq_true facts
  exact ⟨blocks,tip,done,count,
    sanctions_admitted_once (sample_genesis_clean 1) (fun _ _ _ _ same => (Nat.pair_eq_pair.mp same).1) proven (sample_runs done)⟩
end
section
variable {Hash Key Sig : Type} [LinearOrder Hash] [DecidableEq Key] {unbondingDelay : Nat}
variable {blocks : List (Executed Hash Key Sig)}

-- Admitted at most one unbonding delay ago, and its bucket still lists it.
def Expires (unbondingDelay : Nat) (blocks : List (Executed Hash Key Sig)) (tip : Tip Hash Key Sig) (key : StateKey Hash Key) : Prop :=
  ∃ block ∈ blocks, key ∈ livenessMarkers block.admitted ∧ block.height ≤ tip.height ∧
    tip.height ≤ block.height + unbondingDelay ∧ ∃ keys, bucket tip.state block.height = some keys ∧ key ∈ keys

-- What a block has to execute: the front of the queue it finds, with its own claims at the end.
def Executed.due (block : Executed Hash Key Sig) : List (PendingSanction Hash Key) :=
  (queued block.input block.before (loadRuntimePolicy block.before)).take (loadRuntimePolicy block.before).evidenceExecutionsPerBlock

-- Every liveness sanction comes up within the unbonding delay of its admission.
def Timely (unbondingDelay : Nat) (blocks : List (Executed Hash Key Sig)) : Prop :=
  ∀ earlier block later, blocks = earlier ++ block::later → ∀ item ∈ block.due, item.sanction.kind = .inactivity →
      ∃ other ∈ earlier ++ [block], item.sanction ∈ other.admitted ∧ block.height ≤ other.height + unbondingDelay

theorem executed_due {host : Host Hash Key Sig} (step : Extends host unbondingDelay tip block next) : block.executed.map (·.item) = block.due := by
  obtain ⟨-,⟨_,_,run⟩,-⟩ := apply_block_ok step.completed
  refine (execute_all_ok run.executed).1.trans ?_
  rw [Executed.due,step.start,executionCount,Nat.min_comm,← List.take_eq_take_min,queued,participation_queue]
  rfl

structure Retained (unbondingDelay : Nat) (blocks : List (Executed Hash Key Sig)) (tip : Tip Hash Key Sig) : Prop where
  past : ∀ block ∈ blocks, block.height ≤ tip.height
  sound : BucketsSound tip.state
  kept : ∀ block ∈ blocks, livenessMarkers block.admitted ≠ [] → tip.height ≤ block.height + unbondingDelay →
    bucket tip.state block.height = some (livenessMarkers block.admitted)

theorem retained_step (step : Extends host unbondingDelay tip block next) (retained : Retained unbondingDelay blocks tip) :
    Retained unbondingDelay (blocks ++ [block]) next := by
  have height := step.consecutive
  have after := step.result
  subst after
  have atHeight : block.input.blockHeight = tip.height + 1 := height
  refine ⟨fun other member => ?_,buckets_sound_block step.completed retained.sound,fun other member listed near => ?_⟩
  · rcases List.mem_append.mp member with old | new
    · have earlier := retained.past other old
      simp only
      omega
    · rw [List.mem_singleton.mp new,height]
  · simp only at near
    rw [block_bucket step.completed retained.sound,atHeight,step.delay]
    rcases List.mem_append.mp member with old | new
    · have earlier := retained.past other old
      rw [if_neg (fun both => by omega),if_neg (by omega)]
      exact retained.kept other old listed (by omega)
    · rw [List.mem_singleton.mp new] at listed ⊢
      exact if_pos ⟨height,listed⟩

theorem Retained.expires (retained : Retained unbondingDelay blocks tip) (past : other ∈ blocks)
    (admitted : sanction ∈ other.admitted) (kind : sanction.kind = .inactivity)
    (near : tip.height ≤ other.height + unbondingDelay) : Expires unbondingDelay blocks tip (.offence sanction.offenceId) := by
  have listed := mem_liveness_markers.mpr ⟨sanction,admitted,kind,rfl⟩
  exact ⟨other,past,listed,retained.past other past,near,_,retained.kept other past (List.ne_nil_of_mem listed) near,listed⟩

theorem Expires.advance (step : Extends host unbondingDelay tip block next)
    (retained : Retained unbondingDelay (blocks ++ [block]) next) (expires : Expires unbondingDelay blocks tip key)
    (kept : ¬Sweeps tip.state (tip.height + 1) unbondingDelay key) : Expires unbondingDelay (blocks ++ [block]) next key := by
  have after := step.result
  subst after
  obtain ⟨other,past,listed,before,near,keys,found,member⟩ := expires
  have inside : tip.height + 1 ≤ other.height + unbondingDelay := by
    by_contra outside
    exact kept ⟨other.height,keys,by omega,found,.inl member⟩
  obtain ⟨sanction,admitted,kind,rfl⟩ := mem_liveness_markers.mp listed
  exact retained.expires (List.mem_append_left _ past) admitted kind inside

theorem Timely.earlier (timely : Timely unbondingDelay (blocks ++ [block])) : Timely unbondingDelay blocks := by
  intro earlier middle later same
  exact timely earlier middle (later ++ [block]) (by simp [same])

theorem expires_step (step : Extends host unbondingDelay tip block next) (timely : Timely unbondingDelay (blocks ++ [block]))
    (retained : Retained unbondingDelay blocks tip)
    (expires : ∀ id, Stands tip.state (.offence id) → Expires unbondingDelay blocks tip (.offence id)) :
    ∀ id, Stands next.state (.offence id) → Expires unbondingDelay (blocks ++ [block]) next (.offence id) := by
  intro id stands
  have later := retained_step step retained
  have height := step.consecutive
  have result := step.result
  have atHeight : block.input.blockHeight = tip.height + 1 := height
  have tall : next.height = tip.height + 1 := by rw [result]
  rw [result] at stands
  rcases (block_markers step.completed (show IsMarker (.offence id) from trivial)).mp stands with ⟨stood,kept⟩ | admitted | executed
  · rw [atHeight,step.delay] at kept
    exact (expires id stood).advance step later kept
  · obtain ⟨sanction,member,same⟩ := List.mem_map.mp admitted
    obtain ⟨kind,rfl⟩ := offence_marker same
    exact later.expires (by simp) member kind (by omega)
  · obtain ⟨done,member,same⟩ := List.mem_map.mp executed
    obtain ⟨kind,rfl⟩ := offence_marker same
    have due : done.item ∈ block.due := executed_due step ▸ List.mem_map.mpr ⟨done,member,rfl⟩
    obtain ⟨other,past,admitted,near⟩ := timely blocks block [] rfl done.item due kind
    exact later.expires past admitted kind (by omega)

theorem liveness_markers_expire {genesis : Tip Hash Key Sig} (clean : ∀ height, bucket genesis.state height = none)
    (unmarked : ∀ id, ¬Stands genesis.state (.offence id)) (timely : Timely unbondingDelay blocks)
    (run : Runs (Extends host unbondingDelay) genesis blocks tip) :
    ∀ id, Stands tip.state (.offence id) → Expires unbondingDelay blocks tip (.offence id) := by
  revert timely
  refine fun timely => (run.invariant (fun blocks tip => Timely unbondingDelay blocks → Retained unbondingDelay blocks tip ∧
    ∀ id, Stands tip.state (.offence id) → Expires unbondingDelay blocks tip (.offence id)) ?_ ?_ timely).2
  · intro _
    refine ⟨⟨by simp,fun height keys found => ?_,by simp⟩,fun id stands => absurd stands (unmarked id)⟩
    rw [clean height] at found
    exact nomatch found
  · intro blocks middle block after _ held step timely
    obtain ⟨retained,expires⟩ := held timely.earlier
    exact ⟨retained_step step retained,expires_step step timely retained expires⟩
end

-- The fourth sanction is executed after its bucket was swept, and writes it again.
theorem late_execution_revives_marker : ∃ blocks tip, Runs (Extends sampleHost 2) (sampleGenesis 1) blocks tip ∧
    Stands tip.state (.offence (samplePenaltyId ⟨4,4,10,false,0,100,0⟩ 0)) ∧
    ¬Expires 2 blocks tip (.offence (samplePenaltyId ⟨4,4,10,false,0,100,0⟩ 0)) := by
  have facts : (sampleRun 1).toOption.any (fun done => decide (
      (done.2.state.lookup (.offence (samplePenaltyId ⟨4,4,10,false,0,100,0⟩ 0))).isSome = true ∧
      ∀ block ∈ done.1, bucket done.2.state block.height = none)) = true := by
    decide +kernel
  obtain ⟨⟨blocks,tip⟩,done,facts⟩ := completed_check facts
  obtain ⟨stands,swept⟩ := of_decide_eq_true facts
  refine ⟨blocks,tip,sample_runs done,stands,?_⟩
  rintro ⟨block,member,-,-,-,keys,listed,-⟩
  rw [swept block member] at listed
  exact nomatch listed

-- With two executions a block the backlog is gone in time, and the markers still stand.
theorem sample_markers_expire : ∃ blocks tip, execute sampleHost (sampleGenesis 2) ([1,2,3].map sampleInput) = .ok (blocks,tip) ∧
    Stands tip.state (.offence (samplePenaltyId ⟨4,4,10,false,0,100,0⟩ 0)) ∧
    ∀ id, Stands tip.state (.offence id) → Expires 2 blocks tip (.offence id) := by
  have facts : (execute sampleHost (sampleGenesis 2) ([1,2,3].map sampleInput)).toOption.any (fun done => decide (
      (done.2.state.lookup (.offence (samplePenaltyId ⟨4,4,10,false,0,100,0⟩ 0))).isSome = true ∧
      ∀ index < done.1.length, ∀ block ∈ done.1[index]?, ∀ item ∈ block.due,
        ∃ other ∈ done.1.take (index + 1), item.sanction ∈ other.admitted ∧ block.height ≤ other.height + 2)) = true := by
    decide +kernel
  obtain ⟨⟨blocks,tip⟩,done,facts⟩ := completed_check facts
  obtain ⟨stands,prompt⟩ := of_decide_eq_true facts
  have timely : Timely 2 blocks := by
    rintro earlier block later rfl item member -
    have own := prompt earlier.length (by simp) block (by simp) item member
    rwa [← List.singleton_append,← List.append_assoc,List.take_left' (by simp)] at own
  exact ⟨blocks,tip,done,stands,
    liveness_markers_expire (sample_genesis_clean 2) (sample_genesis_unmarked 2) timely (execute_runs done rfl (by decide))⟩
end Neutrino.Runtime
