import Neutrino.Chain.Spec

-- Boundaries, history statements and their composition (history_proof.rs and
-- prover-checkpoint). A verification-key digest is its number; zero is no program.
namespace Neutrino.Chain
open Checks Consensus

abbrev VkDigest := Nat

structure ConsensusPrograms where
  chunk : VkDigest
  checkpoint : VkDigest
deriving DecidableEq

def ConsensusPrograms.isComplete (programs : ConsensusPrograms) : Bool :=
  decide (programs.chunk ≠ 0 ∧ programs.checkpoint ≠ 0)

structure ExecutionPrograms where
  fact : VkDigest
  evidence : VkDigest
  block : VkDigest
deriving DecidableEq

def ExecutionPrograms.isComplete (programs : ExecutionPrograms) : Bool :=
  decide (programs.fact ≠ 0 ∧ programs.evidence ≠ 0 ∧ programs.block ≠ 0)

structure ProgramSet (Hash : Type) where
  runtimeCodeHash : Hash
  execution : ExecutionPrograms
deriving DecidableEq

def ProgramSet.isComplete {Hash : Type} (programs : ProgramSet Hash) : Bool := programs.execution.isComplete

structure ChainBinding (Hash : Type) where
  chainId : Nat
  chainSpecHash : Hash
  chunkSize : Nat
  consensus : ConsensusPrograms
deriving DecidableEq

def ChainBinding.isComplete {Hash : Type} (chain : ChainBinding Hash) : Bool := chain.consensus.isComplete

structure ConsensusBoundary (Hash : Type) where
  nextChunkId : Nat
  height : Nat
  blockHash : Hash
  stateRoot : Hash
  slot : Nat
  validatorsRoot : Hash
  seed : Hash
  historyRoot : Hash
  programs : ProgramSet Hash
  participation : Hash
deriving DecidableEq

structure ProofDomain (Hash : Type) where
  chain : ChainBinding Hash
  programs : ProgramSet Hash
deriving DecidableEq

structure ConsensusStatement (Hash : Type) where
  chain : ChainBinding Hash
  start : ConsensusBoundary Hash
  end_ : ConsensusBoundary Hash
  chunk : Chunk Hash
  finalityCertHash : Hash
deriving DecidableEq

structure HistoryStatement (Hash : Type) where
  chain : ChainBinding Hash
  start : ConsensusBoundary Hash
  end_ : ConsensusBoundary Hash
deriving DecidableEq

structure Checkpoint (Hash : Type) where
  chain : ChainBinding Hash
  boundary : ConsensusBoundary Hash
deriving DecidableEq

def maxFoldChunks : Nat := 16

inductive CheckpointInput (Hash : Type) where
  | fold (chain : ChainBinding Hash) (previous : Option (HistoryStatement Hash)) (chunks : List (ConsensusStatement Hash))
  | merge (left right : HistoryStatement Hash)

inductive CheckpointError where
  | domain
  | identity
  | range
  | chunk
  | boundary
deriving DecidableEq

section
variable {Hash : Type} [DecidableEq Hash]

def ConsensusBoundary.isWellFormed (boundary : ConsensusBoundary Hash) (chain : ChainBinding Hash) : Bool :=
  decide (chain.chainId ≠ 0 ∧ chain.chunkSize ≠ 0 ∧ checkedMul boundary.nextChunkId chain.chunkSize = some boundary.height)

def HistoryStatement.coveredChunks (statement : HistoryStatement Hash) : Option Nat :=
  (checkedSub statement.end_.nextChunkId statement.start.nextChunkId).filter (0 < ·)

def HistoryStatement.endCheckpoint (statement : HistoryStatement Hash) : Checkpoint Hash := ⟨statement.chain,statement.end_⟩

def validateChain (chain : ChainBinding Hash) : Except CheckpointError Unit :=
  ensure (chain.chainId ≠ 0 ∧ chain.chunkSize ≠ 0 ∧ chain.isComplete = true) .domain

def validateDomain (domain : ProofDomain Hash) : Except CheckpointError Unit := do
  validateChain domain.chain
  ensure (domain.programs.isComplete = true) .domain

def boundaryIsValid (boundary : ConsensusBoundary Hash) (chain : ChainBinding Hash) : Bool :=
  boundary.isWellFormed chain && boundary.programs.isComplete

def validateHistory (statement : HistoryStatement Hash) : Except CheckpointError Nat := do
  validateChain statement.chain
  ensure (boundaryIsValid statement.start statement.chain = true ∧ boundaryIsValid statement.end_ statement.chain = true ∧
    statement.start.slot < statement.end_.slot) .range
  required statement.coveredChunks .range

def validateChunk (statement : ConsensusStatement Hash) (chain : ChainBinding Hash) : Except CheckpointError Unit := do
  ensure (statement.chain = chain) .identity
  ensure (boundaryIsValid statement.start chain = true ∧ boundaryIsValid statement.end_ chain = true ∧
    checkedAdd statement.start.nextChunkId 1 = some statement.end_.nextChunkId ∧
    statement.chunk.chunkId = statement.start.nextChunkId ∧
    checkedAdd statement.start.height 1 = some statement.chunk.startHeight ∧
    statement.end_.height = statement.chunk.endHeight ∧ statement.start.slot < statement.end_.slot ∧
    statement.chunk.startStateRoot = statement.start.stateRoot ∧
    statement.chunk.endStateRoot = statement.end_.stateRoot ∧
    statement.chunk.endBlockHash = statement.end_.blockHash ∧
    statement.chunk.activeValidatorSetRoot = statement.start.validatorsRoot ∧
    statement.chunk.nextValidatorSetRoot = statement.end_.validatorsRoot) .chunk

def foldChunks (chain : ChainBinding Hash) : ConsensusBoundary Hash → List (ConsensusStatement Hash) →
    Except CheckpointError (ConsensusBoundary Hash)
  | boundary,[] => .ok boundary
  | boundary,chunk::rest => do
    validateChunk chunk chain
    ensure (chunk.start = boundary) .boundary
    foldChunks chain chunk.end_ rest

-- Where the output starts, where the fresh chunks continue, and what is covered.
def foldOrigin (chain : ChainBinding Hash) (previous : Option (HistoryStatement Hash)) (first : ConsensusStatement Hash) :
    Except CheckpointError (ConsensusBoundary Hash × ConsensusBoundary Hash × Nat) :=
  match previous with
  | none => .ok (first.start,first.start,0)
  | some prior => do
    ensure (prior.chain = chain) .identity
    let count ← validateHistory prior
    pure (prior.start,prior.end_,count)

def validate : CheckpointInput Hash → Except CheckpointError (HistoryStatement Hash)
  | .fold chain previous chunks => do
    validateChain chain
    ensure (chunks.length ≤ maxFoldChunks) .range
    let first ← required chunks.head? .range
    let (start,boundary,previousCount) ← foldOrigin chain previous first
    let last ← foldChunks chain boundary chunks
    let output : HistoryStatement Hash := ⟨chain,start,last⟩
    let count ← validateHistory output
    ensure (checkedAdd previousCount chunks.length = some count ∧ previousCount < count) .range
    pure output
  | .merge left right => do
    ensure (left.chain = right.chain) .identity
    let leftCount ← validateHistory left
    let rightCount ← validateHistory right
    ensure (left.end_ = right.start) .boundary
    let output : HistoryStatement Hash := ⟨left.chain,left.start,right.end_⟩
    let count ← validateHistory output
    ensure (checkedAdd leftCount rightCount = some count ∧ leftCount < count ∧ rightCount < count) .range
    pure output

-- A derivation: which receipts were verified in which order of folds and merges.
inductive Derivation (Hash : Type) where
  | start (chain : ChainBinding Hash) (chunks : List (ConsensusStatement Hash))
  | extend (prior : Derivation Hash) (chain : ChainBinding Hash) (chunks : List (ConsensusStatement Hash))
  | merge (left right : Derivation Hash)

namespace Derivation

def chunks : Derivation Hash → List (ConsensusStatement Hash)
  | .start _ chunks => chunks
  | .extend prior _ chunks => prior.chunks ++ chunks
  | .merge left right => left.chunks ++ right.chunks

def derive : Derivation Hash → Except CheckpointError (HistoryStatement Hash)
  | .start chain chunks => validate (.fold chain none chunks)
  | .extend prior chain chunks => do
    let previous ← prior.derive
    validate (.fold chain (some previous) chunks)
  | .merge left right => do
    let earlier ← left.derive
    let later ← right.derive
    validate (.merge earlier later)
end Derivation

-- The receipt verifies, the chain names its programs and the compact fields agree.
structure ValidChunk (proven : ConsensusStatement Hash → Prop) (chain : ChainBinding Hash) (chunk : ConsensusStatement Hash) : Prop where
  receipt : proven chunk
  named : validateChain chain = .ok ()
  consistent : validateChunk chunk chain = .ok ()

def Leads : ConsensusBoundary Hash → List (ConsensusStatement Hash) → ConsensusBoundary Hash → Prop
  | first,[],last => first = last
  | first,chunk::rest,last => chunk.start = first ∧ Leads chunk.end_ rest last

-- What a statement means: a nonempty list of consecutive valid chunks.
structure Covers (proven : ConsensusStatement Hash → Prop) (statement : HistoryStatement Hash)
    (chunks : List (ConsensusStatement Hash)) : Prop where
  nonempty : chunks ≠ []
  valid : ∀ chunk ∈ chunks, ValidChunk proven statement.chain chunk
  consecutive : Leads statement.start chunks statement.end_

theorem Leads.append (left : Leads first chunks middle) (right : Leads middle others last) : Leads first (chunks ++ others) last := by
  induction chunks generalizing first with
  | nil => cases left; exact right
  | cons chunk rest ih => exact ⟨left.1,ih left.2⟩

variable {chain : ChainBinding Hash}

theorem fold_chunks_ok : foldChunks chain boundary chunks = .ok last ↔
      (∀ chunk ∈ chunks, validateChunk chunk chain = .ok ()) ∧ Leads boundary chunks last := by
  induction chunks generalizing boundary with
  | nil => simp [foldChunks,Leads]
  | cons chunk rest ih =>
    simp only [foldChunks,bind_ok,ensure_ok,ih,List.forall_mem_cons,Leads]
    constructor
    · rintro ⟨_,first,_,follows,others,leads⟩
      exact ⟨⟨first,others⟩,follows,leads⟩
    · rintro ⟨⟨first,others⟩,follows,leads⟩
      exact ⟨(),first,(),follows,others,leads⟩

theorem leads_ends (leads : Leads first chunks last) (nonempty : chunks ≠ [])
    (accepted : ∀ chunk ∈ chunks, validateChunk chunk chain = .ok ()) :
    boundaryIsValid first chain = true ∧ boundaryIsValid last chain = true ∧
      last.nextChunkId = first.nextChunkId + chunks.length ∧ last.nextChunkId < 2^64 ∧ first.slot < last.slot := by
  induction chunks generalizing first with
  | nil => exact absurd rfl nonempty
  | cons chunk rest ih =>
    obtain ⟨rfl,leads⟩ := leads
    have first := accepted chunk (by simp)
    simp only [validateChunk,bind_ok,ensure_ok,checked_add_some] at first
    obtain ⟨_,-,start,joined,⟨next,small⟩,-,-,-,later,-⟩ := first
    have next := next.symm
    by_cases single : rest = []
    · subst single
      cases leads
      exact ⟨start,joined,next,small,later⟩
    · obtain ⟨_,stop,rises,bound,slots⟩ := ih leads single fun other listed => accepted other (by simp [listed])
      refine ⟨start,stop,?_,bound,by omega⟩
      simp only [List.length_cons]
      omega

theorem validate_history_ok : validateHistory statement = .ok count ↔ validateChain statement.chain = .ok () ∧
      boundaryIsValid statement.start statement.chain = true ∧ boundaryIsValid statement.end_ statement.chain = true ∧
      statement.start.slot < statement.end_.slot ∧ statement.end_.nextChunkId = statement.start.nextChunkId + count ∧ 0 < count := by
  simp only [validateHistory,bind_ok,ensure_ok,required_ok,HistoryStatement.coveredChunks,Option.filter_eq_some_iff,
    checked_sub_some,decide_eq_true_eq]
  constructor
  · rintro ⟨_,named,_,⟨start,finish,slots⟩,rises,positive⟩
    exact ⟨named,start,finish,slots,rises,positive⟩
  · rintro ⟨named,start,finish,slots,rises,positive⟩
    exact ⟨(),named,(),⟨start,finish,slots⟩,rises,positive⟩

theorem Covers.counted {proven : ConsensusStatement Hash → Prop} (covered : Covers proven statement chunks) :
    validateHistory statement = .ok chunks.length ∧ chunks.length < 2^64 := by
  obtain ⟨chunk,listed⟩ := List.exists_mem_of_ne_nil chunks covered.nonempty
  obtain ⟨start,finish,rises,small,slots⟩ := leads_ends covered.consecutive covered.nonempty fun chunk listed =>
    (covered.valid chunk listed).consistent
  exact ⟨validate_history_ok.mpr ⟨(covered.valid chunk listed).named,start,finish,slots,rises,
    List.length_pos_iff.mpr covered.nonempty⟩,by omega⟩

section
variable {proven : ConsensusStatement Hash → Prop}

theorem start_covers (accepted : validate (.fold chain none chunks) = .ok statement) (receipts : ∀ chunk ∈ chunks, proven chunk) :
    Covers proven statement chunks := by
  simp only [validate,foldOrigin,bind_ok,ensure_ok,required_ok,pure_ok] at accepted
  obtain ⟨_,named,_,-,first,head,⟨_,_,_⟩,origin,last,folded,_,_,_,_,rfl⟩ := accepted
  simp only [Except.ok.injEq,Prod.mk.injEq] at origin
  obtain ⟨rfl,rfl,rfl⟩ := origin
  obtain ⟨consistent,leads⟩ := fold_chunks_ok.mp folded
  refine ⟨?_,fun chunk listed => ⟨receipts chunk listed,named,consistent chunk listed⟩,leads⟩
  rintro rfl
  cases head

theorem extend_covers (covered : Covers proven prior earlier)
    (accepted : validate (.fold chain (some prior) chunks) = .ok statement) (receipts : ∀ chunk ∈ chunks, proven chunk) :
    Covers proven statement (earlier ++ chunks) := by
  simp only [validate,foldOrigin,bind_ok,ensure_ok,required_ok,pure_ok] at accepted
  obtain ⟨_,named,_,-,_,-,⟨_,_,_⟩,⟨_,same,_,-,origin⟩,last,folded,_,_,_,_,rfl⟩ := accepted
  simp only [Prod.mk.injEq] at origin
  obtain ⟨rfl,rfl,rfl⟩ := origin
  subst same
  obtain ⟨consistent,leads⟩ := fold_chunks_ok.mp folded
  refine ⟨by simp [covered.nonempty],List.forall_mem_append.mpr ⟨covered.valid,?_⟩,covered.consecutive.append leads⟩
  exact fun chunk fresh => ⟨receipts chunk fresh,named,consistent chunk fresh⟩

theorem merge_covers (before : Covers proven left earlier) (after : Covers proven right later)
    (accepted : validate (.merge left right) = .ok statement) : Covers proven statement (earlier ++ later) := by
  simp only [validate,bind_ok,ensure_ok,pure_ok] at accepted
  obtain ⟨_,same,_,-,_,-,_,joined,_,-,_,-,rfl⟩ := accepted
  have later := after.valid
  rw [← same] at later
  exact ⟨by simp [before.nonempty],List.forall_mem_append.mpr ⟨before.valid,later⟩,before.consecutive.append (joined ▸ after.consecutive)⟩

theorem derivation_covers {tree : Derivation Hash} (derived : tree.derive = .ok statement)
    (receipts : ∀ chunk ∈ tree.chunks, proven chunk) : Covers proven statement tree.chunks := by
  induction tree generalizing statement with
  | start chain chunks => exact start_covers derived receipts
  | extend prior chain chunks ih =>
    simp only [Derivation.derive,bind_ok] at derived
    obtain ⟨previous,first,accepted⟩ := derived
    have covered := ih first fun chunk listed => receipts chunk (List.mem_append_left _ listed)
    exact extend_covers covered accepted fun chunk listed => receipts chunk (List.mem_append_right _ listed)
  | merge left right leftIh rightIh =>
    simp only [Derivation.derive,bind_ok] at derived
    obtain ⟨earlier,first,later,second,accepted⟩ := derived
    exact merge_covers (leftIh first fun chunk listed => receipts chunk (List.mem_append_left _ listed))
      (rightIh second fun chunk listed => receipts chunk (List.mem_append_right _ listed)) accepted

theorem Leads.functional (one : Leads first chunks last) (two : Leads first chunks other) : last = other := by
  induction chunks generalizing first with
  | nil => exact one.symm.trans two
  | cons chunk rest ih => exact ih one.2 two.2

theorem Covers.unique (one : Covers proven statement chunks) (two : Covers proven other chunks) : statement = other := by
  obtain ⟨chain,start,finish⟩ := statement
  obtain ⟨_,_,_⟩ := other
  obtain ⟨nonempty,valid,leads⟩ := one
  obtain ⟨-,also,follows⟩ := two
  cases chunks with
  | nil => exact absurd rfl nonempty
  | cons chunk rest =>
    have left := (valid chunk (by simp)).consistent
    have right := (also chunk (by simp)).consistent
    simp only [validateChunk,bind_ok,ensure_ok] at left right
    obtain ⟨_,rfl,-⟩ := left
    obtain ⟨_,rfl,-⟩ := right
    obtain ⟨rfl,leads⟩ := leads
    obtain ⟨rfl,follows⟩ := follows
    cases leads.functional follows
    rfl
end
section
variable {proven : ConsensusStatement Hash → Prop}

theorem fold_accepts (origin : foldOrigin chain previous chunk = .ok (start,chunk.start,previousCount))
    (valid : ValidChunk proven chain chunk) (counted : validateHistory ⟨chain,start,chunk.end_⟩ = .ok (previousCount + 1))
    (small : previousCount + 1 < 2^64) : validate (.fold chain previous [chunk]) = .ok ⟨chain,start,chunk.end_⟩ := by
  have folded : foldChunks chain chunk.start [chunk] = .ok chunk.end_ := by
    rw [foldChunks,valid.consistent,ok_bind,ensure_pos rfl,ok_bind]
    rfl
  have short : [chunk].length ≤ maxFoldChunks := Nat.one_le_iff_ne_zero.mpr (by decide)
  rw [validate,valid.named,ok_bind,ensure_pos short,ok_bind]
  change (foldOrigin chain previous chunk >>= _) = _
  rw [origin,ok_bind]
  simp only
  rw [folded,ok_bind,counted,ok_bind,ensure_pos ⟨checked_add_some.mpr ⟨rfl,small⟩,by omega⟩,ok_bind]
  rfl

theorem Leads.split_last (leads : Leads first (earlier ++ [chunk]) last) : Leads first earlier chunk.start ∧ last = chunk.end_ := by
  induction earlier generalizing first with
  | nil => exact ⟨leads.1.symm,leads.2.symm⟩
  | cons head rest ih => exact ⟨⟨leads.1,(ih leads.2).1⟩,(ih leads.2).2⟩

theorem covers_derives (covered : Covers proven statement chunks) :
    ∃ tree : Derivation Hash, tree.derive = .ok statement ∧ tree.chunks = chunks := by
  induction chunks using List.reverseRecOn generalizing statement with
  | nil => exact absurd rfl covered.nonempty
  | append_singleton earlier chunk ih =>
    obtain ⟨counted,small⟩ := covered.counted
    have valid := covered.valid chunk (by simp)
    obtain ⟨before,last⟩ := covered.consecutive.split_last
    obtain ⟨chain,start,finish⟩ := statement
    subst last
    simp only [List.length_append,List.length_singleton] at counted small
    by_cases single : earlier = []
    · subst single
      cases before
      exact ⟨.start chain [chunk],fold_accepts rfl valid counted small,rfl⟩
    · have prior : Covers proven ⟨chain,start,chunk.start⟩ earlier :=
        ⟨single,fun other listed => covered.valid other (by simp [listed]),before⟩
      obtain ⟨tree,derived,listed⟩ := ih prior
      refine ⟨.extend tree chain [chunk],?_,by rw [Derivation.chunks,listed]⟩
      rw [Derivation.derive,derived,ok_bind]
      refine fold_accepts ?_ valid counted small
      rw [foldOrigin,ensure_pos rfl,ok_bind,prior.counted.1,ok_bind]
      rfl
end

-- Recursion over receipts means exactly a list of consecutive chunks.
theorem derivations_are_chunk_lists (proven : ConsensusStatement Hash → Prop) : (∀ statement : HistoryStatement Hash,
      (∃ tree : Derivation Hash, tree.derive = .ok statement ∧ ∀ chunk ∈ tree.chunks, proven chunk) ↔
        ∃ chunks, Covers proven statement chunks) ∧
    (∀ (left right : Derivation Hash) (one two : HistoryStatement Hash), left.derive = .ok one →
      right.derive = .ok two → left.chunks = right.chunks → one = two) ∧
    (∀ (tree : Derivation Hash) (statement : HistoryStatement Hash), tree.derive = .ok statement →
      statement.coveredChunks = some tree.chunks.length ∧
        statement.end_.nextChunkId = statement.start.nextChunkId + tree.chunks.length) := by
  refine ⟨fun statement => ⟨?_,?_⟩,?_,?_⟩
  · rintro ⟨tree,derived,receipts⟩
    exact ⟨tree.chunks,derivation_covers derived receipts⟩
  · rintro ⟨chunks,covered⟩
    obtain ⟨tree,derived,rfl⟩ := covers_derives covered
    exact ⟨tree,derived,fun chunk listed => (covered.valid chunk listed).receipt⟩
  · intro left right one two first second same
    have covered : Covers (fun _ => True) one left.chunks := derivation_covers first fun _ _ => trivial
    rw [same] at covered
    exact covered.unique (derivation_covers second fun _ _ => trivial)
  · intro tree statement derived
    have covered : Covers (fun _ => True) statement tree.chunks := derivation_covers derived fun _ _ => trivial
    have counted := covered.counted.1
    refine ⟨?_,(validate_history_ok.mp counted).2.2.2.2.1⟩
    simp only [validateHistory,bind_ok,required_ok] at counted
    obtain ⟨_,-,_,-,count⟩ := counted
    exact count
end

def sampleBinding : ChainBinding Nat := ⟨7,0,4,⟨1,2⟩⟩
def sampleBoundary (index : Nat) : ConsensusBoundary Nat := ⟨index,4*index,index,index,10*index,0,0,index,⟨index/2,⟨3,4,5+index/2⟩⟩,0⟩

def sampleStatement (index : Nat) : ConsensusStatement Nat := ⟨sampleBinding,sampleBoundary index,sampleBoundary (index+1),
    ⟨index,4*index+1,4*index+4,index,index+1,0,index+1,0,0,0,0,0,0⟩,0⟩

def samplePairThenOne : Derivation Nat :=
  .extend (.start sampleBinding [sampleStatement 0,sampleStatement 1]) sampleBinding [sampleStatement 2]

def sampleOneThenPair : Derivation Nat :=
  .merge (.start sampleBinding [sampleStatement 0]) (.start sampleBinding [sampleStatement 1,sampleStatement 2])

theorem sample_brackets_agree : samplePairThenOne.derive = .ok ⟨sampleBinding,sampleBoundary 0,sampleBoundary 3⟩ ∧
    (∀ statement, sampleOneThenPair.derive = .ok statement → statement = ⟨sampleBinding,sampleBoundary 0,sampleBoundary 3⟩) ∧
    (∃ chunks, Covers (fun _ => True) ⟨sampleBinding,sampleBoundary 0,sampleBoundary 3⟩ chunks) := by
  have derived : samplePairThenOne.derive = .ok ⟨sampleBinding,sampleBoundary 0,sampleBoundary 3⟩ := rfl
  obtain ⟨lists,brackets,-⟩ := derivations_are_chunk_lists (fun _ : ConsensusStatement Nat => True)
  exact ⟨derived,fun statement other => brackets _ _ _ _ other derived rfl, (lists _).mp ⟨_,derived,fun _ _ => trivial⟩⟩
end Neutrino.Chain
