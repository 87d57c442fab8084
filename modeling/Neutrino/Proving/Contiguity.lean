import Neutrino.Proving.Candidate

-- Accepted chunks joined end to end: what acceptance fixes about boundaries, blocks
-- and history, for one statement and for successors.
namespace Neutrino.Proving
open Checks Consensus Chain Queries Query
variable {Hash Key Sig State Point : Type} [DecidableEq Hash] [DecidableEq Key] [DecidableEq Sig]
variable (host : ConsensusHost Hash Key Sig State)

def chainBinding (spec : ChainSpec Hash Key) (consensus : ConsensusPrograms) : ChainBinding Hash :=
  ⟨spec.chainId,host.specHash spec,spec.consensus.chunkSize,consensus⟩

section
variable [LT Hash] [DecidableLT Hash] [DecidableEq Point]
variable (suite : Suite Hash Key Sig Point) (id : FactRequest Hash Key Sig → Hash)

def validateSuccessor (previous : ConsensusStatement Hash) (input : ConsensusWitness Hash Key Sig State) :
    Except ConsensusError (ConsensusStatement Hash) := do
  let boundary ← contextBoundary host input.context input.seed
  ensure (boundary = previous.end_ ∧ chainBinding host input.chainSpec input.consensusPrograms = previous.chain) .context
  validateConsensus host suite id input
end

structure Position (Hash : Type) where
  height : Nat
  blockHash : Hash
  stateRoot : Hash
  slot : Nat
deriving DecidableEq

def boundaryPosition (boundary : ConsensusBoundary Hash) : Position Hash :=
  ⟨boundary.height,boundary.blockHash,boundary.stateRoot,boundary.slot⟩

def contextPosition (context : ExecutionContext Hash Key) : Position Hash :=
  ⟨context.chunkId * context.chunkSize,context.parentBlockHash,context.preStateRoot,context.parentSlot⟩

def afterBlock (block : ProvenBlock Hash Key Sig) : Position Hash :=
  ⟨block.header.height,host.headerHash block.header.toHeaderHashPayload,block.header.stateRoot,block.header.slot⟩

def afterBlocks (position : Position Hash) (blocks : List (ProvenBlock Hash Key Sig)) : Position Hash :=
  blocks.foldl (fun _ block => afterBlock host block) position

-- Next height, the hash before it as parent, its state executed on, a later slot.
def Linked : Position Hash → List (ProvenBlock Hash Key Sig) → Prop
  | _,[] => True
  | position,block::rest =>
    block.header.height = position.height + 1 ∧ block.header.parentHash = position.blockHash ∧
      block.output.preStateRoot = position.stateRoot ∧ block.output.postStateRoot = block.header.stateRoot ∧
      position.slot < block.header.slot ∧ Linked (afterBlock host block) rest

section
variable {host}

theorem linked_append : Linked host position (earlier ++ later) ↔
      Linked host position earlier ∧ Linked host (afterBlocks host position earlier) later := by
  induction earlier generalizing position with
  | nil => simp [Linked,afterBlocks]
  | cons block rest ih =>
    simp only [List.cons_append,Linked,ih,and_assoc]
    rfl

variable {blocks : List (ProvenBlock Hash Key Sig)}

theorem validate_blocks_linked (position : Position Hash)
    (validated : validateBlocks host context (position.height + 1) position.blockHash position.stateRoot position.slot blocks =
      .ok hashes) : Linked host position blocks ∧ hashes = blocks.map (fun block => host.headerHash block.header.toHeaderHashPayload) ∧
      (afterBlocks host position blocks).height = position.height + blocks.length := by
  induction blocks generalizing position hashes with
  | nil =>
    cases validated
    exact ⟨trivial,rfl,rfl⟩
  | cons block rest ih =>
    simp only [validateBlocks,validateBlock,bind_ok,ensure_ok,required_ok,pure_ok] at validated
    obtain ⟨hash,⟨_,⟨parent,height,later,before⟩,proposer,-,_,⟨inputs,binds,-⟩,rfl⟩,others,onward,rfl⟩ := validated
    have after : block.output.postStateRoot = block.header.stateRoot := by
      have bound := (of_decide_eq_true binds).2.2.2.1
      rw [inputs] at bound
      exact bound
    have next : position.height + 1 + 1 = (afterBlock host block).height + 1 := congrArg (· + 1) height.symm
    rw [next] at onward
    obtain ⟨linked,hashed,reached⟩ := ih _ onward
    refine ⟨⟨height,parent,before,after,later,linked⟩,by rw [hashed]; rfl,?_⟩
    have tail : (afterBlocks host position (block::rest)).height = (afterBlocks host (afterBlock host block) rest).height := rfl
    rw [tail,reached,List.length_cons]
    change block.header.height + rest.length = _
    omega

theorem after_blocks_last (position : Position Hash) (final : blocks.getLast? = some last) :
    afterBlocks host position blocks = afterBlock host last := by
  obtain ⟨front,rfl⟩ := List.getLast?_eq_some_iff.mp final
  simp [afterBlocks]
end

def historyLeaf (input : ConsensusWitness Hash Key Sig State) (statement : ConsensusStatement Hash) : Hash :=
  host.contextCommitment (evidenceContextOf host input statement.chunk)

-- What acceptance fixes, whoever answered the signature questions.
structure Sealed (input : ConsensusWitness Hash Key Sig State) (validated : ValidatedConsensus Hash Key) : Prop where
  chain : validated.statement.chain = chainBinding host input.chainSpec input.consensusPrograms
  chunkId : validated.statement.chunk.chunkId = input.context.chunkId
  start : contextBoundary host input.context input.seed = .ok validated.statement.start
  finish : contextBoundary host validated.nextContext validated.statement.end_.seed = .ok validated.statement.end_
  successor : validated.nextContext.chunkId = input.context.chunkId + 1
  linked : Linked host (contextPosition input.context) input.blocks
  reached : contextPosition validated.nextContext = afterBlocks host (contextPosition input.context) input.blocks
  heights : validated.statement.chunk.startHeight = (contextPosition input.context).height + 1 ∧
    validated.statement.chunk.endHeight = (contextPosition validated.nextContext).height
  counted : input.history.frontier.count = input.context.chunkId
  rooted : input.history.frontier.root host.tree = some input.context.historyRoot
  grown : ∃ grown, input.history.frontier.append host.tree (historyLeaf host input validated.statement) =
    some (validated.nextContext.historyRoot,grown)
  genesis : input.context.chunkId = 0 → input.context.historyRoot = host.tree.emptyRoot

-- The same about a candidate whose certificate is still to be read.
structure CandidateSealed (input : ConsensusWitness Hash Key Sig State) (parts : CandidateParts Hash Key Sig) : Prop where
  contextual : validateContext host input = .ok parts.domain.chainSpecHash
  executed : ∃ bare hashes, validateExecutionWithHashes host input.context input.blocks = .ok (bare,hashes) ∧
    parts.chunk = {bare with nextValidatorSetRoot := host.commitment parts.nextValidators}
  authentic : input.history.authenticate host.toEvidenceHost host.tree host.contextCommitment host.recordSize
    input.context.chunkId input.context.historyRoot = .ok ()

section
variable {host}

theorem candidate_ensures : (validateCandidateUsing host input).program.Ensures (CandidateSealed host input) := by
  unfold validateCandidateUsing
  refine ensures_bind (ensures_ofExcept fun _ => id) fun specHash contextual => ?_
  refine ensures_bind (ensures_ofExcept fun _ => mapError_ok.mp) fun executed ran => ?_
  obtain ⟨bare,hashes⟩ := executed
  refine ensures_bind (ensures_ofExcept fun _ => mapError_ok.mp) fun _ authentic => ?_
  refine ensures_bind ensures_any fun _ _ => ?_
  refine ensures_bind ensures_any fun _ _ => ?_
  refine ensures_bind ensures_any fun records _ => ?_
  refine ensures_bind ensures_any fun next _ => ?_
  exact ⟨contextual,⟨bare,hashes,ran,rfl⟩,authentic⟩

theorem execution_linked {blocks : List (ProvenBlock Hash Key Sig)} (executed : validateExecutionWithHashes host context blocks = .ok (chunk,hashes)) :
    Linked host (contextPosition context) blocks ∧ chunk.chunkId = context.chunkId ∧
      chunk.activeValidatorSetRoot = host.commitment context.activeValidators ∧
      chunk.startHeight = (contextPosition context).height + 1 ∧ chunk.endHeight = (context.chunkId + 1) * context.chunkSize ∧
      ∃ last, blocks.getLast? = some last ∧ afterBlocks host (contextPosition context) blocks =
          ⟨chunk.endHeight,chunk.endBlockHash,chunk.endStateRoot,last.header.slot⟩ := by
  simp only [validateExecutionWithHashes,bind_ok,ensure_ok,required_ok,pure_ok,Prod.mk.injEq, checked_mul_some,checked_add_some] at executed
  obtain ⟨_,⟨filled,sized⟩,_,⟨rfl,-⟩,_,⟨rfl,-⟩,_,⟨rfl,-⟩,_,ran,first,-,lastHash,ended,last,final,rfl,rfl⟩ := executed
  obtain ⟨linked,rfl,reached⟩ := validate_blocks_linked (contextPosition context) ran
  have height : context.chunkId * context.chunkSize + 1 + (blocks.length - 1) = (context.chunkId + 1) * context.chunkSize := by
    rw [Nat.add_mul,one_mul,← sized]
    omega
  refine ⟨linked,rfl,rfl,rfl,height,last,final,?_⟩
  rw [List.getLast?_map,final,Option.map_some,Option.some.injEq] at ended
  rw [after_blocks_last _ final] at reached ⊢
  have same : last.header.height = context.chunkId * context.chunkSize + 1 + (blocks.length - 1) := by
    have place : last.header.height = context.chunkId * context.chunkSize + blocks.length := reached
    omega
  rw [afterBlock,ended,same]

theorem boundary_fields (built : boundaryWithValidators context seed root = .ok boundary) :
    boundary.nextChunkId = context.chunkId ∧ boundaryPosition boundary = contextPosition context ∧
      boundary.historyRoot = context.historyRoot ∧ boundary.seed = seed := by
  simp only [boundaryWithValidators,bind_ok,required_ok,pure_ok,checked_mul_some] at built
  obtain ⟨_,⟨rfl,-⟩,rfl⟩ := built
  exact ⟨rfl,rfl,rfl,rfl⟩

theorem conclude_sealed (candidate : CandidateSealed host input parts) (concluded : concludeChunk host input parts = .ok validated) :
    Sealed host input validated := by
  obtain ⟨bare,hashes,executed,chunk⟩ := candidate.executed
  obtain ⟨linked,named,active,lower,upper,last,final,reached⟩ := execution_linked executed
  have contextual := candidate.contextual
  simp only [validateContext,bind_ok,mapError_ok,ensure_ok,pure_ok] at contextual
  obtain ⟨_,-,_,⟨_,_,sized,_⟩,_,genesis,_,-,hashed⟩ := contextual
  have authentic := candidate.authentic
  simp only [HistoryWitness.authenticate,bind_ok,ensure_ok] at authentic
  obtain ⟨_,⟨counted,rooted,-,-⟩,-⟩ := authentic
  simp only [concludeChunk,bind_ok,required_ok,mapError_ok,pure_ok,checked_add_some] at concluded
  obtain ⟨report,-,⟨root,grown⟩,appended,_,⟨rfl,-⟩,programs,-,final',latest,start,started,end_,ended,rfl⟩ := concluded
  obtain rfl : last = final' := Option.some.inj (final.symm.trans latest)
  have rewound : host.commitment input.context.activeValidators = parts.chunk.activeValidatorSetRoot := by
    rw [chunk]; exact active.symm
  have forward : host.commitment parts.nextValidators = parts.chunk.nextValidatorSetRoot := by rw [chunk]
  have seeded := (boundary_fields ended).2.2.2
  have place : afterBlocks host (contextPosition input.context) input.blocks =
      ⟨(input.context.chunkId + 1) * input.context.chunkSize,parts.chunk.endBlockHash,parts.chunk.endStateRoot,
        last.header.slot⟩ := by rw [reached,upper,chunk]
  refine {
    chain := by rw [chainBinding,hashed]
    chunkId := by rw [chunk]; exact named
    start := by rw [contextBoundary,rewound]; exact started
    finish := ?_
    successor := rfl
    linked := linked
    reached := place.symm
    heights := by rw [chunk]; exact ⟨lower,upper⟩
    counted := counted
    rooted := rooted
    grown := ⟨grown,appended⟩
    genesis := fun first => by rw [(genesis first).1]; rfl }
  rw [contextBoundary,forward,seeded]
  exact ended

variable [LT Hash] [DecidableLT Hash] [DecidableEq Point] {suite : Suite Hash Key Sig Point} {id : FactRequest Hash Key Sig → Hash}

theorem accepted_sealed (accepted : validateConsensusWithContext host suite id input = .ok validated) : Sealed host input validated := by
  have ensured : (validateConsensusUsing host input).program.Ensures (Sealed host input) := by
    refine ensures_bind candidate_ensures fun parts candidate => ?_
    refine ensures_bind ensures_any fun _ _ => ?_
    exact ensures_ofExcept fun result concluded => conclude_sealed candidate concluded
  simp only [validateConsensusWithContext,bind_ok,pure_ok] at accepted
  obtain ⟨verifier,-,result,returned,_,-,rfl⟩ := accepted
  exact ensures_run ensured returned
end

abbrev Accepted (Hash Key Sig State : Type) : Type := ConsensusWitness Hash Key Sig State × ConsensusStatement Hash

-- Every chunk was accepted, and each opens on the boundary the one before it left.
structure Joined (chunks : List (Accepted Hash Key Sig State)) : Prop where
  closed : ∀ chunk ∈ chunks, ∃ next, Sealed host chunk.1 ⟨chunk.2,next⟩
  joints : chunks.IsChain fun earlier later => contextBoundary host later.1.context later.1.seed = .ok earlier.2.end_

-- One chain of chunks and blocks, its first chunk numbered as given.
structure Contiguous (first : Nat) (chunks : List (Accepted Hash Key Sig State)) : Prop where
  ids : ∀ index chunk, chunks[index]? = some chunk → chunk.2.chunk.chunkId = first + index ∧
    chunk.2.start.nextChunkId = first + index ∧ chunk.2.end_.nextChunkId = first + index + 1
  boundaries : chunks.IsChain fun earlier later => later.2.start = earlier.2.end_
  blocks : ∀ chunk ∈ chunks.head?, Linked host (boundaryPosition chunk.2.start) (chunks.flatMap (·.1.blocks))
  reached : ∀ chunk ∈ chunks, boundaryPosition chunk.2.end_ = afterBlocks host (boundaryPosition chunk.2.start) chunk.1.blocks
  heights : ∀ chunk ∈ chunks, chunk.2.chunk.startHeight = chunk.2.start.height + 1 ∧ chunk.2.chunk.endHeight = chunk.2.end_.height

def historyLeaves (chunks : List (Accepted Hash Key Sig State)) : List Hash := chunks.map fun chunk => historyLeaf host chunk.1 chunk.2

-- Every frontier holds exactly the evidence contexts of the chunks before it.
def Recorded (prior : List Hash) (chunks : List (Accepted Hash Key Sig State)) : Prop :=
  ∀ index chunk, chunks[index]? = some chunk → chunk.1.history.frontier.count = chunk.2.start.nextChunkId ∧
    chunk.2.start.nextChunkId = (prior ++ historyLeaves host (chunks.take index)).length ∧
    chunk.1.history.frontier.root host.tree = some chunk.2.start.historyRoot ∧
    historyRoot host.tree (prior ++ historyLeaves host (chunks.take index)) = some chunk.2.start.historyRoot ∧
    historyRoot host.tree (prior ++ historyLeaves host (chunks.take (index + 1))) = some chunk.2.end_.historyRoot

def Anchored (prior : List Hash) (context : ExecutionContext Hash Key) : Prop :=
  prior.length = context.chunkId ∧ historyRoot host.tree prior = some context.historyRoot

section
variable {host}

theorem Joined.tail (joined : Joined host (chunk::rest)) : Joined host rest :=
  ⟨fun other listed => joined.closed other (by simp [listed]),joined.joints.tail⟩

theorem joined_append (joined : Joined host chunks) (closed : ∃ next, Sealed host chunk.1 ⟨chunk.2,next⟩)
    (joint : ∀ last ∈ chunks.getLast?, contextBoundary host chunk.1.context chunk.1.seed = .ok last.2.end_) :
    Joined host (chunks ++ [chunk]) where
  closed := List.forall_mem_append.mpr ⟨joined.closed,List.forall_mem_singleton.mpr closed⟩
  joints := by
    rw [List.isChain_append]
    refine ⟨joined.joints,.singleton _,fun last final other first => ?_⟩
    obtain rfl := Option.some.inj first
    exact joint last final

variable {first : Nat}

theorem contiguous_nil : Contiguous host first ([] : List (Accepted Hash Key Sig State)) := ⟨by simp,.nil,by simp,by simp,by simp⟩

theorem contiguous_cons (closed : Sealed host input ⟨statement,next⟩)
    (numbered : input.context.chunkId = first) (onward : Contiguous host (first + 1) rest)
    (joint : ∀ later ∈ rest.head?, later.2.start = statement.end_) : Contiguous host first ((input,statement)::rest) := by
  obtain ⟨opened,place,-,-⟩ := boundary_fields closed.start
  obtain ⟨named,target,-,-⟩ := boundary_fields closed.finish
  have reached : boundaryPosition statement.end_ = afterBlocks host (boundaryPosition statement.start) input.blocks := by
    rw [target,place]; exact closed.reached
  refine ⟨?_,?_,?_,?_,?_⟩
  · rintro (_ | index) chunk found
    · obtain rfl := Option.some.inj found
      exact ⟨closed.chunkId.trans numbered,opened.trans numbered, (named.trans closed.successor).trans (congrArg (· + 1) numbered)⟩
    · have := onward.ids index chunk found
      omega
  · exact onward.boundaries.cons joint
  · intro chunk front
    obtain rfl := Option.some.inj front
    rw [List.flatMap_cons,linked_append,← reached,place]
    refine ⟨closed.linked,?_⟩
    cases rest with
    | nil => exact trivial
    | cons later others =>
      rw [← joint later rfl]
      exact onward.blocks later rfl
  · rintro chunk (_ | ⟨_,listed⟩)
    · exact reached
    · exact onward.reached chunk listed
  · rintro chunk (_ | ⟨_,listed⟩)
    · have lower : statement.start.height = _ := congrArg Position.height place
      have upper : statement.end_.height = _ := congrArg Position.height target
      exact ⟨by rw [lower]; exact closed.heights.1,by rw [upper]; exact closed.heights.2⟩
    · exact onward.heights chunk listed

theorem joined_contiguous (joined : Joined host chunks)
    (numbered : ∀ chunk ∈ chunks.head?, chunk.1.context.chunkId = first) : Contiguous host first chunks := by
  induction chunks generalizing first with
  | nil => exact contiguous_nil
  | cons chunk rest ih =>
    obtain ⟨next,closed⟩ := joined.closed chunk (by simp)
    obtain ⟨named,-,-,-⟩ := boundary_fields closed.finish
    have number := numbered chunk rfl
    have joint : ∀ later ∈ rest.head?, contextBoundary host later.1.context later.1.seed = .ok chunk.2.end_ :=
      (List.isChain_cons.mp joined.joints).1
    refine contiguous_cons closed number (ih joined.tail fun later listed => ?_) fun later listed => ?_
    · rw [← (boundary_fields (joint later listed)).1,named,closed.successor,number]
    · obtain ⟨_,opened⟩ := joined.closed later (by
        rw [List.mem_cons]; exact .inr (List.mem_of_mem_head? listed))
      exact Except.ok.inj (opened.start.symm.trans (joint later listed))

theorem sealed_history (injective : host.tree.Injective) (closed : Sealed host input ⟨statement,next⟩)
    (anchored : Anchored host prior input.context) : Anchored host (prior ++ [historyLeaf host input statement]) next := by
  obtain ⟨counted,rooted⟩ := anchored
  obtain ⟨frontier,built,root⟩ := Option.bind_eq_some_iff.mp rooted
  obtain ⟨grown,appended⟩ := closed.grown
  have same : frontier = input.history.frontier := by
    refine HistoryFrontier.root_unique injective ?_ root closed.rooted
    rw [closed.counted,← counted]
    exact from_leaves_count built
  rw [← same] at appended
  refine ⟨by rw [List.length_append,counted]; exact closed.successor.symm,?_⟩
  rw [historyRoot,from_leaves_append built appended]
  exact (HistoryFrontier.append_grows appended).2.2

theorem joined_recorded (injective : host.tree.Injective) (joined : Joined host chunks)
    (anchored : ∀ chunk ∈ chunks.head?, Anchored host prior chunk.1.context) : Recorded host prior chunks := by
  induction chunks generalizing prior with
  | nil => intro index chunk found; cases found
  | cons chunk rest ih =>
    obtain ⟨next,closed⟩ := joined.closed chunk (by simp)
    have held := anchored chunk rfl
    have grown := sealed_history injective closed held
    obtain ⟨opened,-,before,-⟩ := boundary_fields closed.start
    obtain ⟨named,-,after,-⟩ := boundary_fields closed.finish
    rintro (_ | index) other found
    · obtain rfl := Option.some.inj found
      refine ⟨closed.counted.trans opened.symm,?_,?_,?_,?_⟩
      · simpa [historyLeaves] using opened.trans held.1.symm
      · rw [before]; exact closed.rooted
      · rw [before]; simpa [historyLeaves] using held.2
      · rw [after]; simpa [historyLeaves] using grown.2
    · have joint : ∀ later ∈ rest.head?, contextBoundary host later.1.context later.1.seed = .ok chunk.2.end_ :=
        (List.isChain_cons.mp joined.joints).1
      have onward : Recorded host (prior ++ [historyLeaf host chunk.1 chunk.2]) rest := ih joined.tail fun later listed => by
        obtain ⟨count,-,root,-⟩ := boundary_fields (joint later listed)
        exact ⟨by rw [← count,named]; exact grown.1,by rw [← root,after]; exact grown.2⟩
      simpa [historyLeaves] using onward index other found
end
variable [LT Hash] [DecidableLT Hash] [DecidableEq Point]
variable (suite : Suite Hash Key Sig Point) (id : FactRequest Hash Key Sig → Hash)

-- A first accepted statement and successors accepted one against the other.
structure AcceptedChain (chunks : List (Accepted Hash Key Sig State)) : Prop where
  first : ∀ chunk ∈ chunks.head?, validateConsensus host suite id chunk.1 = .ok chunk.2
  successors : chunks.IsChain fun earlier later => validateSuccessor host suite id earlier.2 later.1 = .ok later.2

variable {host suite id}

theorem validate_successor_ok (accepted : validateSuccessor host suite id previous input = .ok statement) :
    contextBoundary host input.context input.seed = .ok previous.end_ ∧ validateConsensus host suite id input = .ok statement := by
  simp only [validateSuccessor,bind_ok,ensure_ok] at accepted
  obtain ⟨boundary,built,_,⟨rfl,-⟩,validated⟩ := accepted
  exact ⟨built,validated⟩

theorem accepted_joined (accepted : AcceptedChain host suite id chunks) : Joined host chunks := by
  induction chunks with
  | nil => exact ⟨by simp,.nil⟩
  | cons chunk rest ih =>
    obtain ⟨follows,onward⟩ := List.isChain_cons.mp accepted.successors
    have tail := ih ⟨fun later listed => (validate_successor_ok (follows later listed)).2,onward⟩
    have first := accepted.first chunk rfl
    simp only [validateConsensus,bind_ok,pure_ok] at first
    obtain ⟨validated,done,made⟩ := first
    refine ⟨List.forall_mem_cons.mpr ⟨⟨validated.nextContext,made ▸ accepted_sealed done⟩,tail.closed⟩,?_⟩
    exact tail.joints.cons fun later listed => (validate_successor_ok (follows later listed)).1
end Neutrino.Proving
