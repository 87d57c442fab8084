import Neutrino.Proving.Candidate
import Neutrino.Proving.Responders

-- Verification through proven facts against direct verification: evidence batches,
-- recordings for them and partly covered chunk candidates.
namespace Neutrino.Proving
open Checks Consensus Chain Queries Query
variable {Hash Key Sig State Point : Type} [DecidableEq Hash] [DecidableEq Key] [DecidableEq Sig] [DecidableEq Point]
  [LT Hash] [DecidableLT Hash]

section
variable {suite : Suite Hash Key Sig Point} {id : FactRequest Hash Key Sig → Hash}

theorem batch_ok : validateEvidenceBatch host id input = .ok (batch,statements) ↔
      (input.witnesses ≠ [] ∧ input.witnesses.length ≤ maxEvidenceBatch ∧ input.facts.length ≤ maxEvidenceFactStatements) ∧
      ∃ facts, readFacts input.facts = .ok facts ∧
        ((collect (validateEvidenceUsing host) input.witnesses).run (FactReader.respond id) ⟨facts,false⟩).1 = .ok statements ∧
        ((collect (validateEvidenceUsing host) input.witnesses).run (FactReader.respond id) ⟨facts,false⟩).2.missing = false ∧
        EvidenceBatch.new host statements input.factGuestVkDigest = some batch := by
  simp only [validateEvidenceBatch,FactReader.new,bind_ok,ensure_ok,required_ok,pure_ok]
  constructor
  · rintro ⟨_,sizes,_,⟨facts,read,rfl⟩,_,derived,_,clean,_,formed,same⟩
    cases same
    exact ⟨sizes,facts,read,derived,clean,formed⟩
  · rintro ⟨sizes,facts,read,derived,clean,formed⟩
    exact ⟨(),sizes,_,⟨facts,read,rfl⟩,_,derived,(),clean,_,formed,rfl⟩

variable (distinct : Function.Injective id)
include distinct

theorem recorded_suffice (verified : Truthful suite id known)
    (ran : recordEvidenceBatch host suite id known witnesses fact = .ok (result,recorded))
    (truthful : TruthfulStatements suite id facts) (packed : Packed facts) (bounded : facts.length ≤ maxEvidenceFactStatements)
    (covers : ∀ entry ∈ recorded, ∃ statement ∈ facts, (⟨id entry.1,entry.2⟩ : ProvenFact Hash) ∈ statement) :
    validateEvidenceBatch host id ⟨witnesses,facts,fact⟩ = .ok result := by
  simp only [recordEvidenceBatch,FactRecorder.finish,bind_ok,ensure_ok,required_ok,pure_ok] at ran
  obtain ⟨_,sizes,statements,derived,batch,formed,_,⟨_,clean,rfl⟩,same⟩ := ran
  cases same
  have start : (FactRecorder.withVerified known : FactRecorder Hash Key Sig).Sound suite id :=
    ⟨verified,by simp [FactRecorder.withVerified],by simp [FactRecorder.withVerified]⟩
  obtain ⟨direct,_,noted⟩ := recorder_records distinct start rfl clean
  obtain ⟨table,read⟩ := truthful_read distinct truthful packed
  have covered : ∀ request ∈ (collect (validateEvidenceUsing host) witnesses).asked suite.answers, (table.lookup (id request)).isSome := by
    intro request listed
    obtain ⟨valid,member⟩ := noted request listed
    obtain ⟨statement,stated,fact⟩ := covers _ member
    exact lookup_of_mem ((insert_statements read _).mpr (.inr ⟨statement,stated,_,fact,rfl⟩))
  obtain ⟨complete,same⟩ := reader_complete distinct (read_truthful truthful read) covered
  exact batch_ok.mpr ⟨⟨sizes.1,sizes.2,bounded⟩,table,read,same.trans (direct.symm.trans derived),complete,formed⟩
end
section
variable {domain : ConsensusDomain Hash}

variable {input : ConsensusWitness Hash Key Sig State}

omit [LT Hash] [DecidableLT Hash] in
theorem bodies_facts : verifyBodies {input with facts := facts} domain pairs = verifyBodies input domain pairs := by
  induction pairs with
  | nil => rfl
  | cons pair rest ih =>
    obtain ⟨block,body⟩ := pair
    rw [verifyBodies,verifyBodies,ih]
    rfl

theorem using_facts : validateConsensusUsing host {input with facts := facts} = validateConsensusUsing host input := by
  unfold validateConsensusUsing validateCandidateUsing
  simp only [bodies_facts]
  rfl

variable {suite : Suite Hash Key Sig Point} {id : FactRequest Hash Key Sig → Hash}

theorem with_context_ok : validateConsensusWithContext host suite id input = .ok validated ↔
      input.facts.length ≤ maxConsensusFactStatements ∧ ∃ facts, readFacts input.facts = .ok facts ∧
        ((validateConsensusUsing host input).program.run (HybridVerifier.respond id suite) ⟨facts,.empty,0,0⟩).1 = .ok validated ∧
        ((validateConsensusUsing host input).program.run (HybridVerifier.respond id suite) ⟨facts,.empty,0,0⟩).2.finish suite = true := by
  simp only [validateConsensusWithContext,hybridVerifier,HybridVerifier.new,FactReader.new,bind_ok,ensure_ok,mapError_ok,pure_ok]
  constructor
  · rintro ⟨_,⟨_,few,_,⟨facts,read,rfl⟩,rfl⟩,_,derived,_,settled,rfl⟩
    exact ⟨few,facts,read,derived,settled⟩
  · rintro ⟨few,facts,read,derived,settled⟩
    exact ⟨_,⟨(),few,_,⟨facts,read,rfl⟩,rfl⟩,_,derived,(),settled,rfl⟩

variable (batched : suite.BatchSound) (distinct : Function.Injective id)
include batched distinct

theorem consensus_direct (truthful : TruthfulStatements suite id input.facts)
    (packed : Packed input.facts) (few : input.facts.length ≤ maxConsensusFactStatements) :
    validateConsensusWithContext host suite id input = .ok validated ↔ validateConsensusDirectly host suite input = .ok validated := by
  obtain ⟨facts,read⟩ := truthful_read distinct truthful packed
  have sound : (⟨facts,.empty,0,0⟩ : HybridVerifier Hash Key Sig Point).Sound suite id :=
    ⟨read_truthful truthful read,by intro _ equation listed; cases listed⟩
  have fresh : (BatchVerifier.empty : BatchVerifier Hash Key Sig Point).Clean suite := ⟨rfl,by intro equation listed; cases listed⟩
  rw [with_context_ok,validateConsensusDirectly]
  constructor
  · rintro ⟨_,other,again,derived,settled⟩
    cases read.symm.trans again
    exact (hybrid_trusted batched distinct sound settled).symm.trans derived
  · intro accepted
    have valid := demanding_asked (validateConsensusUsing host input).demanding accepted
    obtain ⟨settled,same⟩ := hybrid_complete batched distinct sound fresh valid
    exact ⟨few,facts,read,same.trans accepted,settled⟩
end

-- Statements of proven facts as a consuming witness may carry them.
structure Carried (suite : Suite Hash Key Sig Point) (id : FactRequest Hash Key Sig → Hash) (limit : Nat)
    (facts : List (FactStatement Hash)) : Prop where
  truthful : TruthfulStatements suite id facts
  packed : Packed facts
  bounded : facts.length ≤ limit

def CoversRecorded (id : FactRequest Hash Key Sig → Hash) (facts : List (FactStatement Hash))
    (recorded : List (FactRequest Hash Key Sig × Bool)) : Prop :=
  ∀ entry ∈ recorded, ∃ statement ∈ facts, (⟨id entry.1,entry.2⟩ : ProvenFact Hash) ∈ statement

theorem facts_change_nothing (host : ConsensusHost Hash Key Sig State) (suite : Suite Hash Key Sig Point)
    (id : FactRequest Hash Key Sig → Hash) (batched : suite.BatchSound) (distinct : Function.Injective id) :
    (∀ (input : EvidenceBatchWitness Hash Key Sig) batch statements, TruthfulStatements suite id input.facts →
      validateEvidenceBatch host.toEvidenceHost id input = .ok (batch,statements) →
      List.Forall₂ (fun witness statement => validateEvidence host.toEvidenceHost suite witness = .ok statement)
        input.witnesses statements) ∧ (∀ known witnesses fact result recorded, Truthful suite id known →
      recordEvidenceBatch host.toEvidenceHost suite id known witnesses fact = .ok (result,recorded) →
      ∀ facts, Carried suite id maxEvidenceFactStatements facts → CoversRecorded id facts recorded →
        validateEvidenceBatch host.toEvidenceHost id ⟨witnesses,facts,fact⟩ = .ok result) ∧
    ∀ (input : ConsensusWitness Hash Key Sig State) facts others, Carried suite id maxConsensusFactStatements facts →
      Carried suite id maxConsensusFactStatements others → ∀ statement,
        validateConsensus host suite id {input with facts := facts} = .ok statement ↔
          validateConsensus host suite id {input with facts := others} = .ok statement := by
  refine ⟨fun input batch statements truthful validated => ?_, fun known witnesses fact result recorded verified ran facts carried covers =>
      recorded_suffice distinct verified ran carried.truthful carried.packed carried.bounded covers,
    fun input facts others first second statement => ?_⟩
  · obtain ⟨_,facts,read,derived,clean,_⟩ := batch_ok.mp validated
    exact eval_collect ((reader_trusted distinct (read_truthful truthful read) clean).symm.trans derived)
  have same (carried : List (FactStatement Hash)) (held : Carried suite id maxConsensusFactStatements carried)
      (validated : ValidatedConsensus Hash Key) :
      validateConsensusWithContext host suite id {input with facts := carried} = .ok validated ↔
        validateConsensusDirectly host suite input = .ok validated := by
    rw [consensus_direct batched distinct held.truthful held.packed held.bounded,validateConsensusDirectly,using_facts]
    rfl
  simp only [validateConsensus,bind_ok,pure_ok,same facts first,same others second]

section
deriving instance Encodable for ConsensusDomain, FinalityVotePhase, FinalityVoteData, Consensus.BitVec, AggregatedVote,
  QuorumCertificate, NilVoteData, Chunk, RoundChange, RoundChangeCertificate, SigningMessage, FactMessage, SignatureRequest

instance instEncodableByte : Encodable UInt8 := Encodable.ofLeftInverse UInt8.toNat UInt8.ofNat fun _ => UInt8.ofNat_toNat

deriving instance Encodable for BlockProofPublicInputs, BlockProof, FactRequest

def openSuite : Suite Nat Nat Nat Nat where
  publicKey := some
  sum := fun _ => some 0
  admits := fun _ => true
  verifyCheckedPoints := fun _ => true
  verifyWeighted := fun equations => equations.all fun _ => true
  blockIsValid := fun _ _ => .ok true

def openRecords : ConsensusRecords Nat Nat Nat := ⟨⟨[],List.nodup_nil⟩,.ok none⟩

def openHost : ConsensusHost Nat Nat Nat Unit where
  verify := fun _ _ _ => true
  aggregate := fun _ _ _ => true
  sign := fun _ _ => 0
  chunkHash := fun chunk => chunk.chunkId
  headerHash := fun header => header.height + header.gasUsed
  commitment := fun _ => 0
  leaderOffset := fun _ _ _ => 0
  specHash := fun _ => 0
  penaltyCommitment := fun kind _ _ scope _ => kind + scope
  proofCommitment := fun proof => proof.height
  claimCommitment := fun _ => 0
  statementsRoot := fun statements => statements.length
  bundleHash := fun bundle => bundle.length
  bundleDaRoot := fun bundle => some bundle.length
  isEligible := fun _ _ _ _ => true
  tree := ⟨fun _ => 0,fun _ _ _ => 0,fun count _ => count⟩
  merkleRoot := fun _ => 0
  daRootFromLaneRoots := fun _ => 0
  inputsCommitment := fun _ => 0
  vrfLeaf := fun _ => 0
  daLeaf := fun _ => 0
  voteCommitment := fun _ => 0
  contextCommitment := fun context => context.chunkId
  certCommitment := fun _ => 0
  recordSize := fun _ => 1
  noParticipation := 0
  participationCommitment := fun _ => 0
  foldSeed := fun seed _ => seed
  popValid := fun _ _ _ => true
  readConsensusRecords := fun _ _ => .ok openRecords

def soloPrograms : ProgramSet Nat := ⟨0,⟨1,2,3⟩⟩
def soloContext : ExecutionContext Nat Nat := genesisContext openHost soloSpec soloPrograms
def soloHeader : Header Nat Nat := ⟨⟨1,1,0,0,0,0,0,0,0,0,0,0,9,101⟩,0⟩
def soloChunk : Chunk Nat := ⟨0,1,1,0,0,1,1,0,0,0,0,0,0⟩

def soloBlock : ProvenBlock Nat Nat Nat where
  header := soloHeader
  publicInputs := expectedInputs soloContext soloHeader 1 1 0 0 ⟨1,0,1,false,0,maxU64,0⟩
  output := ⟨⟨⟨1,0,0,0,3,2,60,1⟩,[]⟩,7,1,9,0,0,0,0,0,0,0,0,0⟩

def soloVote (phase : FinalityVotePhase) (proofs : List Nat) : VoteAttestation Nat Nat := ⟨0,0,⟨0,0,0,phase⟩,proofs,none,0⟩

def soloCert : FinalityCert Nat Nat :=
  ⟨⟨soloChunk,0,0,none,none,0⟩,[soloVote .prevote []],[soloVote .precommit [0]],0,0,0,⟨⟨[true]⟩,0⟩,⟨⟨[true]⟩,0⟩,0⟩

def soloInput (facts : List (FactStatement Nat)) : ConsensusWitness Nat Nat Nat Unit where
  factGuestVkDigest := 1
  evidenceGuestVkDigest := 2
  consensusPrograms := ⟨4,5⟩
  chainSpec := soloSpec
  context := soloContext
  seed := 0
  blocks := [soloBlock]
  bodies := [⟨[],[]⟩]
  postState := ()
  history := ⟨.initial,[]⟩
  finalityCert := soloCert
  blockGuestVkDigest := 3
  facts := facts

def soloHistory : HistoricalChunk Nat Nat Nat := ⟨soloChunk,soloSpec.initialValidators,0,3,0,soloCert⟩

def soloOffence : EvidenceWitness Nat Nat Nat where
  chainSpec := soloSpec
  source := soloHistory
  claim := .slash (.doubleProposal 0 soloHeader {soloHeader with gasUsed := 1})
  blockGuestVkDigest := 3
  reporter := none

abbrev soloId : FactRequest Nat Nat Nat → Nat := Encodable.encode
theorem open_suite_batched : openSuite.BatchSound := fun _ => rfl
def soloFact : FactStatement Nat := [⟨soloId (.signed (.signature 1 (.vrf ⟨7,0⟩ 0 1) 0 false)),true⟩]

theorem solo_carried (within : count ≤ limit) : Carried openSuite soloId limit (List.replicate count soloFact) where
  truthful := by
    intro statement listed fact stated
    rw [List.eq_of_mem_replicate listed] at stated
    rw [List.mem_singleton.mp stated]
    exact ⟨_,rfl,rfl⟩
  packed := by
    intro statement listed
    rw [List.eq_of_mem_replicate listed]
    exact ⟨by simp [soloFact],by simp [soloFact,maxFacts]⟩
  bounded := by simpa using within

theorem solo_accepted : ∃ statement, validateConsensus openHost openSuite soloId (soloInput []) = .ok statement := by
  have facts : (validateConsensus openHost openSuite soloId (soloInput [])).toOption.any (fun _ => true) = true := by
    decide +kernel
  obtain ⟨statement,done,_⟩ := completed_check facts
  exact ⟨statement,done⟩

-- One true fact stated sixty-five times: a witness may carry sixty-four statements.
theorem surplus_facts_refused : openSuite.BatchSound ∧ Function.Injective soloId ∧
      TruthfulStatements openSuite soloId (List.replicate 65 soloFact) ∧ Packed (List.replicate 65 soloFact) ∧
      (∃ statement, validateConsensus openHost openSuite soloId (soloInput []) = .ok statement) ∧
      validateConsensus openHost openSuite soloId (soloInput (List.replicate 65 soloFact)) = .error (.history .evidence) :=
  ⟨open_suite_batched,Encodable.encode_injective,(solo_carried (Nat.le_refl 65)).truthful,
    (solo_carried (Nat.le_refl 65)).packed,solo_accepted,rfl⟩

def packRecorded (recorded : List (FactRequest Nat Nat Nat × Bool)) : List (FactStatement Nat) :=
  [recorded.map fun entry => ⟨soloId entry.1,entry.2⟩]

theorem solo_facts_change_nothing : (∃ statement, validateConsensus openHost openSuite soloId (soloInput []) = .ok statement ∧
      validateConsensus openHost openSuite soloId (soloInput [soloFact]) = .ok statement) ∧ ∃ result recorded, recorded.length = 2 ∧
      recordEvidenceBatch openHost.toEvidenceHost openSuite soloId [] [soloOffence] 1 = .ok (result,recorded) ∧
      validateEvidenceBatch openHost.toEvidenceHost soloId ⟨[soloOffence],packRecorded recorded,1⟩ = .ok result ∧
      List.Forall₂ (fun witness statement => validateEvidence openHost.toEvidenceHost openSuite witness = .ok statement)
        [soloOffence] result.2 := by
  obtain ⟨read,recorded,agreed⟩ := facts_change_nothing openHost openSuite soloId open_suite_batched Encodable.encode_injective
  constructor
  · obtain ⟨statement,done⟩ := solo_accepted
    exact ⟨statement,done,(agreed (soloInput []) [] [soloFact] (solo_carried (Nat.zero_le _))
      (solo_carried (show 1 ≤ maxConsensusFactStatements by decide)) statement).mp done⟩
  · have facts : (recordEvidenceBatch openHost.toEvidenceHost openSuite soloId [] [soloOffence] 1).toOption.any (fun run =>
        decide (run.2.length = 2 ∧ ∀ entry ∈ run.2, openSuite.verdict entry.1 = .ok entry.2)) = true := by decide +kernel
    obtain ⟨⟨result,noted⟩,done,facts⟩ := completed_check facts
    obtain ⟨count,verdicts⟩ := of_decide_eq_true facts
    have carried : Carried openSuite soloId maxEvidenceFactStatements (packRecorded noted) := by
      refine ⟨?_,?_,by simp [packRecorded,maxEvidenceFactStatements]⟩
      · intro statement listed fact stated
        rw [List.mem_singleton.mp listed] at stated
        obtain ⟨entry,member,rfl⟩ := List.mem_map.mp stated
        exact ⟨entry.1,rfl,verdicts entry member⟩
      · intro statement listed
        rw [List.mem_singleton.mp listed]
        refine ⟨fun none => ?_,by simp [count,maxFacts]⟩
        have := congrArg List.length none
        simp [count] at this
    have validated := recorded [] [soloOffence] 1 result noted (by intro entry listed; cases listed) done _ carried
      fun entry member => ⟨_,List.mem_singleton.mpr rfl,List.mem_map.mpr ⟨entry,member,rfl⟩⟩
    exact ⟨result,noted,count,done,validated,read _ result.1 result.2 carried.truthful validated⟩
end
end Neutrino.Proving
