import Neutrino.Runtime.Failures

-- The moments of a run: one sanction, one transaction, one payment at a time.
namespace Neutrino.Runtime
open Checks Consensus Neutrino.Chain Ledger

inductive Fate (Hash : Type) where
  | skipped
  | applied
  | charged (payer : Hash)
  | refused
deriving DecidableEq

inductive Act (Hash Key Sig : Type) where
  | upkeep
  | sanction (done : Execution Hash Key)
  | transaction (facts : BlockFacts Hash Key Sig) (tx : Transaction Hash Key Sig) (fate : Fate Hash)
  | fees (proposer : Hash) (amount : Nat)

structure Moment (Hash Key Sig : Type) [LinearOrder Hash] where
  before : State Hash Key Sig
  event : Act Hash Key Sig
  after : State Hash Key Sig

variable {Hash Key Sig : Type} [LinearOrder Hash] [DecidableEq Key] (host : Host Hash Key Sig)

def Fate.effective : Fate Hash → Bool
  | .applied | .charged _ => true
  | .skipped | .refused => false

def fate (facts : BlockFacts Hash Key Sig) (state : State Hash Key Sig) (tally : Tally) (tx : Transaction Hash Key Sig) : Fate Hash :=
  if facts.input.blockGasLimit < saturatingAdd tally.gasUsed (txGas tx) then .skipped
  else match transactionResult host facts state (transactionFee facts tx) tx with
    | .ok _ => .applied
    | .error failure => if txChargesFee tx then failure.payer.elim .refused .charged else .refused

inductive Happens : Moment Hash Key Sig → Prop where
  | upkeep {before after : State Hash Key Sig} (frame : Frame (¬Valued ·) before after) : Happens ⟨before,.upkeep,after⟩
  | sanction {before after : State Hash Key Sig} {totals next : SettlementTotals} {item : PendingSanction Hash Key}
    {done : Execution Hash Key} (executed : executePending before totals item = .ok (done,next,after)) :
    Happens ⟨before,.sanction done,after⟩
  | transaction (facts : BlockFacts Hash Key Sig) (before : State Hash Key Sig) (tally : Tally) (tx : Transaction Hash Key Sig) :
    Happens ⟨before,.transaction facts tx (fate host facts before tally tx),(executeTransaction host facts (before,tally) tx).1⟩
  | fees (before : State Hash Key Sig) (proposer : Hash) (amount : Nat) :
    Happens ⟨before,.fees proposer amount,creditProposer before proposer amount⟩

structure Occurs (before : State Hash Key Sig) (moment : Moment Hash Key Sig) (after : State Hash Key Sig) : Prop where
  start : moment.before = before
  happens : Happens host moment
  result : moment.after = after

def sanctionMoments : State Hash Key Sig → SettlementTotals → List (PendingSanction Hash Key) → List (Moment Hash Key Sig)
  | _,_,[] => []
  | state,totals,item::rest =>
    match executePending state totals item with
    | .ok (done,next,after) => ⟨state,.sanction done,after⟩::sanctionMoments after next rest
    | .error _ => []

def transactionMoments (facts : BlockFacts Hash Key Sig) :
    State Hash Key Sig × Tally → List (Transaction Hash Key Sig) → List (Moment Hash Key Sig)
  | _,[] => []
  | current,tx::rest =>
    ⟨current.1,.transaction facts tx (fate host facts current.1 current.2 tx),(executeTransaction host facts current tx).1⟩::
      transactionMoments facts (executeTransaction host facts current tx) rest

section
variable (block : Executed Hash Key Sig)

def Executed.facts : BlockFacts Hash Key Sig := blockFacts block.input (loadRuntimePolicy block.before) block.output.mandatory.queue
def Executed.reported : State Hash Key Sig := applyParticipation block.before block.input.participation
def Executed.opened : State Hash Key Sig := admissionState block.input block.reported (loadRuntimePolicy block.before) block.admitted

def Executed.sanctions : List (Moment Hash Key Sig) :=
  sanctionMoments block.opened (openTotals block.input block.reported (loadRuntimePolicy block.before) block.admitted)
    ((queued block.input block.reported (loadRuntimePolicy block.before)).take
      (executionCount block.input block.reported (loadRuntimePolicy block.before)))

def Executed.ready : State Hash Key Sig × Tally :=
  (expire block.output.mandatory.state block.input.evidenceAnchor.chunkId,startTally block.output.mandatory)

def Executed.moments : List (Moment Hash Key Sig) := ⟨block.before,.upkeep,block.opened⟩::block.sanctions ++
    ⟨(block.sanctions.getLast?.map (·.after)).getD block.opened,.upkeep,block.ready.1⟩::
    transactionMoments host block.facts block.ready block.input.transactions ++
    [⟨(executeTransactions host block.facts block.ready.1 block.ready.2).1,.fees block.input.proposerAddress block.output.tally.proposerFee,
      block.output.state⟩]
end

def history (blocks : List (Executed Hash Key Sig)) : List (Moment Hash Key Sig) := blocks.flatMap (Executed.moments host)

theorem occurs_single (happens : Happens host moment) : Runs (Occurs host) moment.before [moment] moment.after :=
  .snoc .nil ⟨rfl,happens,rfl⟩

variable {items : List (PendingSanction Hash Key)}

theorem sanctions_occur (run : executeAll state totals items = .ok (executed,final,after)) :
    Runs (Occurs host) state (sanctionMoments state totals items) after ∧
      (sanctionMoments state totals items).map (·.event) = executed.map .sanction ∧
      ((sanctionMoments state totals items).getLast?.map (·.after)).getD state = after := by
  induction items generalizing state totals executed with
  | nil =>
    cases run
    exact ⟨.nil,rfl,rfl⟩
  | cons item rest ih =>
    simp only [executeAll,bind_ok,pure_ok,Prod.mk.injEq] at run
    obtain ⟨⟨done,next,middle⟩,one,⟨later,_,_⟩,tail,rfl,rfl,rfl⟩ := run
    obtain ⟨occurs,events,last⟩ := ih tail
    simp only [sanctionMoments,one]
    refine ⟨(occurs_single host (.sanction one)).append occurs,by rw [List.map_cons,events,List.map_cons],?_⟩
    refine Eq.trans ?_ last
    cases sanctionMoments middle next rest with
    | nil => rfl
    | cons moment others =>
      rw [List.getLast?_cons_cons]
      cases found : (moment::others).getLast? with
      | none => exact absurd found (by simp)
      | some => rfl

theorem transactions_occur (facts : BlockFacts Hash Key Sig) (current : State Hash Key Sig × Tally) (transactions : List (Transaction Hash Key Sig)) :
    Runs (Occurs host) current.1 (transactionMoments host facts current transactions)
      (transactions.foldl (executeTransaction host facts) current).1 := by
  induction transactions generalizing current with
  | nil => exact .nil
  | cons tx rest ih =>
    exact (occurs_single host (.transaction facts current.1 current.2 tx)).append (ih (executeTransaction host facts current tx))

variable {host} {block : Executed Hash Key Sig}

theorem opening_upkeep (sound : BucketsSound block.before) : Frame (¬Valued ·) block.before block.opened := by
  intro key valued
  refine admission_lookup sound ⟨?_,?_,?_⟩ _ _
  · cases key <;> simp_all [Valued,IsMarker]
  · cases key <;> simp_all [Valued,Participates]
  · rintro height rfl
    exact valued id

theorem closing_upkeep (run : MandatoryRun host input state policy result totals after) (chunk : Nat) :
    Frame (¬Valued ·) after (expire result.state chunk) := by
  intro key valued
  have unscheduled : ¬Scheduling key := by cases key <;> simp_all [Valued,Scheduling]
  have notQueue : key ≠ .queue := by
    rintro rfl
    exact valued id
  have notTotals : key ≠ .settlementTotals := by
    rintro rfl
    exact valued id
  rw [expire_frame result.state chunk key unscheduled,phase_lookup run notQueue notTotals]

theorem block_occurs (step : Completes host state block after)
    (sound : BucketsSound state) : Runs (Occurs host) state (block.moments host) after := by
  obtain ⟨rfl,done,rfl⟩ := step
  obtain ⟨-,⟨totals,middle,run⟩,-⟩ := apply_block_ok done
  obtain ⟨tally,final⟩ := block_reached done
  obtain ⟨executed,-,last⟩ := sanctions_occur host run.executed
  have opening := occurs_single host (.upkeep (opening_upkeep sound))
  have closing := occurs_single host (.upkeep (closing_upkeep run block.input.evidenceAnchor.chunkId))
  have transactions := transactions_occur host block.facts block.ready block.input.transactions
  have fees := occurs_single host (.fees (executeTransactions host block.facts block.ready.1 block.ready.2).1
    block.input.proposerAddress block.output.tally.proposerFee)
  have ended : block.output.state = creditProposer (executeTransactions host block.facts block.ready.1 block.ready.2).1
    block.input.proposerAddress block.output.tally.proposerFee := final
  have left : (block.sanctions.getLast?.map (·.after)).getD block.opened = middle := last
  rw [Executed.moments,left,ended]
  exact ((opening.append executed).append (closing.append transactions)).append fees

variable {blocks : List (Executed Hash Key Sig)}

theorem completes_sound (sound : BucketsSound genesis) (run : Runs (Completes host) genesis blocks final) : BucketsSound final := by
  refine run.invariant (fun _ state => BucketsSound state) sound ?_
  rintro _ middle block after - held ⟨-,done,rfl⟩
  exact buckets_sound_block done held

theorem run_occurs (sound : BucketsSound genesis)
    (run : Runs (Completes host) genesis blocks final) : Runs (Occurs host) genesis (history host blocks) final := by
  refine run.invariant (fun blocks state => Runs (Occurs host) genesis (history host blocks) state) .nil ?_
  intro blocks middle block after prior held step
  rw [history,List.flatMap_append,List.flatMap_singleton]
  exact held.append (block_occurs step (completes_sound sound prior))

theorem sanction_events (member : moment ∈ sanctionMoments state totals items) : ∃ done, moment.event = .sanction done := by
  induction items generalizing state totals with
  | nil => cases member
  | cons item rest ih =>
    rw [sanctionMoments] at member
    split at member
    next done next after _ =>
      rcases List.mem_cons.mp member with rfl | later
      · exact ⟨done,rfl⟩
      · exact ih later
    next => cases member

theorem transaction_events (member : moment ∈ transactionMoments host facts current transactions) :
    ∃ tx fate, moment.event = .transaction facts tx fate := by
  induction transactions generalizing current with
  | nil => cases member
  | cons tx rest ih =>
    rcases List.mem_cons.mp member with rfl | later
    · exact ⟨_,_,rfl⟩
    · exact ih later

theorem moment_facts (member : moment ∈ block.moments host)
    {fate : Fate Hash} (runs : moment.event = .transaction facts tx fate) : facts = block.facts := by
  simp only [Executed.moments,List.mem_append,List.mem_cons,List.not_mem_nil,or_false] at member
  rcases member with ((rfl | sanction) | rfl | transaction) | rfl
  · cases runs
  · obtain ⟨done,event⟩ := sanction_events sanction
    cases event.symm.trans runs
  · cases runs
  · obtain ⟨_,_,event⟩ := transaction_events transaction
    cases event.symm.trans runs
    rfl
  · cases runs
end Neutrino.Runtime
