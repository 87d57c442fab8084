import Neutrino.Engine.Commit
import Neutrino.Proving.Equivalence

-- Chunk commits over whole runs: a refused one leaves nothing, and the committed
-- chunks are one chain.
namespace Neutrino.ConsensusEngine
open Checks Consensus Chain Proving ColumnStore Effects
variable {Hash Key Sig State Blob Node Value Tr : Type} [DecidableEq Hash] [DecidableEq Key] [DecidableEq Sig]
  [DecidableEq (ChainSpec Hash Key)]
variable {host : EngineHost Hash Key Sig State Blob Node Value Tr}

section
variable {σ ε α : Type} {state : σ}

theorem attempt_known (result : Except ε α) :
    Triple (· = state) (attempt result) (fun value next => next = state ∧ result = .ok value) fun _ => (· = state) :=
  triple_attempt (fun _ _ ran same => ⟨same,ran⟩) fun _ _ _ same => same

theorem get_known : Triple (· = state) (get : EStateM ε σ σ) (fun value next => next = state ∧ value = state) fun _ => (· = state) :=
  triple_get fun _ same => ⟨same,same⟩
end
section
variable {accepts : Bool} {batch : RowBatch Hash Key Sig Blob Node Value}

theorem write_observed :
    Triple (· = engine) (writeObservedBatch accepts batch) (fun _ next => next = {engine with db := engine.db.write batch})
      fun _ => (· = engine) := by
  rintro state rfl
  unfold writeObservedBatch
  cases accepts <;> rfl

theorem tip_batch {db : Database Hash Key Sig Blob Node Value} {hash genesis : Hash}
    (staged : commitTipBatch host db hash genesis batch = .ok full) :
    ∃ index, full = batch ++ index ∧ ∀ op ∈ index, op.key = .tip ∨ ∃ height, op.key = .headerByHeight height := by
  simp only [commitTipBatch,bind_ok,pure_ok] at staged
  obtain ⟨info,-,previous,-,headers,-,height,-,_,-,⟨updates,expected,cursor⟩,-,_,-,rfl⟩ := staged
  refine ⟨_,rfl,?_⟩
  intro op listed
  simp only [headRows,List.mem_append,List.mem_map,List.mem_singleton] at listed
  rcases listed with ((⟨entry,-,rfl⟩ | rfl) | ⟨stale,-,rfl⟩) | rfl
  · exact .inr ⟨_,rfl⟩
  · exact .inr ⟨_,rfl⟩
  · exact .inr ⟨_,rfl⟩
  · exact .inl rfl

theorem materialized_head {height : Nat} {hash stateRoot : Hash} :
    Triple (· = engine) (commitMaterializedHeadWithBatch host accepts height hash stateRoot nextState batch)
      (fun _ next => ∃ more, next.db = engine.db.write (batch ++ more) ∧ (∀ op ∈ more, op.key ≠ .consensusState)) fun _ => (· = engine) := by
  refine triple_bind (attempt_known _) fun _ => triple_fact fun _ => ?_
  refine triple_bind get_known fun current => triple_fact fun same => ?_
  subst same
  refine triple_bind (attempt_known _) fun full => triple_fact fun ran => ?_
  have staged := mapError_ok.mp ran
  obtain ⟨index,rfl,placed⟩ := tip_batch staged
  refine triple_bind write_observed fun _ => triple_modify fun state written => ?_
  refine ⟨trieDelta host (nextState.getD current.state) ++ index,by rw [written,List.append_assoc],?_⟩
  intro op listed
  rcases List.mem_append.mp listed with delta | moved
  · simp only [trieDelta,List.mem_append,List.mem_map] at delta
    rcases delta with ⟨entry,-,rfl⟩ | ⟨entry,-,rfl⟩ <;> simp [Op.key]
  · rcases placed op moved with tip | ⟨height,indexed⟩
    · simp [tip]
    · simp [indexed]
end
section
variable {validate : ConsensusWitness Hash Key Sig State → Except ConsensusError (ValidatedConsensus Hash Key)} {accepts : Bool}

theorem extra_rows : ∀ op ∈ (extraRows rows : RowBatch Hash Key Sig Blob Node Value), op.key ≠ .consensusState := by
  intro op listed
  obtain ⟨⟨id,row⟩,-,rfl⟩ := List.mem_map.mp listed
  cases row <;> simp [Op.key]

theorem append_history_rows {history : RowBatch Hash Key Sig Blob Node Value} {frontier : HistoryFrontier Hash}
    (appended : appendHistoryBatch host db record = .ok (history,frontier)) : ∀ op ∈ history, op.key ≠ .consensusState := by
  simp only [appendHistoryBatch,bind_ok,pure_ok,Prod.mk.injEq] at appended
  obtain ⟨old,-,_,-,info,-,opened,-,root,-,rfl,-⟩ := appended
  intro op listed
  simp only [List.mem_append,List.mem_cons,List.not_mem_nil,or_false] at listed
  rcases listed with (extra | rfl | rfl) | gone
  · exact extra_rows op extra
  · simp [Op.key]
  · simp [Op.key]
  · split at gone
    · cases gone
    · obtain ⟨count,-,rfl⟩ := List.mem_map.mp gone
      simp [Op.key]

theorem block_rows : ∀ op ∈ (blockRows host block : RowBatch Hash Key Sig Blob Node Value), op.key ≠ .consensusState := by
  intro op listed
  simp only [blockRows,List.mem_append,List.mem_flatMap,List.mem_cons,List.not_mem_nil,or_false] at listed
  rcases listed with ⟨admission,-,rfl | slash⟩ | rfl
  · simp [Op.key]
  · split at slash
    · rw [List.mem_singleton.mp slash]; simp [Op.key]
    · cases slash
  · simp [Op.key]

theorem finalization_state (staged : consensusFinalizationBatch host db witness proof statement state = .ok batch) :
    ∃ before after, batch = before ++ .put .consensusState state::after ∧ ∀ op ∈ after, op.key ≠ .consensusState := by
  simp only [consensusFinalizationBatch,bind_ok,pure_ok] at staged
  obtain ⟨⟨history,frontier⟩,appended,_,-,rfl⟩ := staged
  refine ⟨_,_,rfl,?_⟩
  intro op listed
  simp only [List.mem_append,List.mem_flatMap] at listed
  rcases listed with (((pointer | checkpoint) | row) | past) | ⟨block,-,row⟩
  · simp only [pointerRows,List.mem_cons,List.not_mem_nil,or_false] at pointer
    rcases pointer with rfl | rfl | rfl | rfl | rfl <;> simp [Op.key]
  · unfold boundaryCheckpoints at checkpoint
    split at checkpoint
    · simp only [checkpointRows,List.mem_append,List.mem_cons,List.not_mem_nil,or_false] at checkpoint
      rcases checkpoint with (rfl | rfl) | (rfl | rfl) <;> simp [Op.key]
    · cases checkpoint
  · simp only [statementRows,List.mem_cons,List.not_mem_nil,or_false] at row
    rcases row with rfl | rfl | rfl <;> simp [Op.key]
  · exact append_history_rows appended op past
  · exact block_rows op row

-- What a chunk must have passed to be prepared, and the state it prepares.
structure Admitted (host : EngineHost Hash Key Sig State Blob Node Value Tr)
    (validate : ConsensusWitness Hash Key Sig State → Except ConsensusError (ValidatedConsensus Hash Key))
    (engine : Engine Hash Key Sig Blob Node Value Tr) (witness : ConsensusWitness Hash Key Sig State)
    (prepared : PreparedCommit Hash Key Sig Blob Node Value) : Prop where
  incoming : ∃ frontier, consensusBoundary host engine witness.context.chunkId = .ok (witness.context,witness.seed,frontier)
  accepted : validate witness = .ok ⟨prepared.statement,prepared.state.nextContext⟩
  boundary : contextBoundary host.toConsensusHost prepared.state.nextContext prepared.state.nextSeed = .ok prepared.statement.end_
  target : prepared.state.boundary = prepared.statement.end_
  grown : ∃ leaf, witness.history.frontier.append host.tree leaf = some (prepared.statement.end_.historyRoot,prepared.state.frontier)
  staged : consensusFinalizationBatch host engine.db witness prepared.wire prepared.statement prepared.state = .ok prepared.batch

theorem prepare_admitted (ready : prepareCommit host validate engine request = .ok prepared) :
    Admitted host validate engine request.witness prepared := by
  unfold prepareCommit at ready
  cases given : request.validated with
  | none =>
    simp only [given,bind_ok,mapError_ok,ensure_ok,required_ok,pure_ok] at ready
    obtain ⟨⟨context,seed,frontier⟩,incoming,_,⟨same,seeded,-,-⟩,_,-,validated,accepted,_,-,⟨root,grown⟩,appended,_,rooted,
      boundary,built,_,rfl,batch,staged,rfl⟩ := ready
    exact ⟨⟨frontier,incoming.trans (by rw [same,seeded])⟩,accepted,built,rfl,⟨_,by rw [← rooted]; exact appended⟩,staged⟩
  | some held =>
    simp only [given,bind_ok,mapError_ok,ensure_ok,required_ok,pure_ok] at ready
    obtain ⟨⟨context,seed,frontier⟩,incoming,_,⟨same,seeded,-,-⟩,_,-,validated,rfl,_,-,⟨root,grown⟩,appended,_,rooted,
      boundary,built,_,rfl,batch,staged,rfl⟩ := ready
    exact ⟨⟨frontier,incoming.trans (by rw [same,seeded])⟩,request.own _ given,built,rfl, ⟨_,by rw [← rooted]; exact appended⟩,staged⟩

theorem state_written (db : Database Hash Key Sig Blob Node Value)
    (placed : ∃ before after, batch = before ++ .put .consensusState state::after ∧ ∀ op ∈ after, op.key ≠ .consensusState)
    (apart : ∀ op ∈ more, op.key ≠ .consensusState) : (db.write (batch ++ more)).rows .consensusState = some state := by
  obtain ⟨before,after,rfl,later⟩ := placed
  rw [List.append_assoc,List.cons_append]
  refine write_put db.rows before (after ++ more) .consensusState state ?_
  exact List.forall_mem_append.mpr ⟨fun op own => (later op own).symm,fun op other => (apart op other).symm⟩

theorem publish_steps {executor : Bool} (placed : ∃ before after, prepared.batch = before ++ .put .consensusState prepared.state::after ∧
      ∀ op ∈ after, op.key ≠ .consensusState) : Triple (· = engine) (publishFinality host accepts executor engine prepared)
      (fun _ next => next.db.rows .consensusState = some prepared.state) fun _ => (· = engine) := by
  unfold publishFinality
  dsimp only
  split
  · refine triple_weaken (fun _ => id) write_observed fun _ next wrote => ?_
    have kept := state_written engine.db placed (fun op (listed : op ∈ []) => (List.not_mem_nil listed).elim)
    rw [wrote]
    rwa [List.append_nil] at kept
  · refine triple_bind (attempt_known _) fun _ => triple_fact fun _ => ?_
    refine triple_bind (attempt_known _) fun replayed => triple_fact fun _ => ?_
    refine triple_weaken (fun _ => id) materialized_head fun _ next wrote => ?_
    obtain ⟨more,changed,apart⟩ := wrote
    rw [changed]
    exact state_written engine.db placed apart

theorem commit_steps (host : EngineHost Hash Key Sig State Blob Node Value Tr) (accepts : Bool)
    (request : CommitRequest Hash Key Sig State Blob validate) :
    Triple (· = engine) (commitConsensusChunkInner host validate accepts request)
      (fun _ next => ∃ prepared, prepareCommit host validate engine request = .ok prepared ∧
        next.db.rows .consensusState = some prepared.state ∧
        next.latestFinalizedChunkId = checkedSub prepared.statement.end_.nextChunkId 1) fun _ => (· = engine) := by
  refine triple_bind get_known fun current => triple_fact fun same => ?_
  subst same
  refine triple_bind (attempt_known _) fun prepared => triple_fact fun ready => ?_
  have admitted := prepare_admitted ready
  refine triple_bind (publish_steps (finalization_state admitted.staged)) fun _ => ?_
  exact fun state written => ⟨prepared,ready,written,by rw [← admitted.target]; rfl⟩
end
section
variable (host) (validate : ConsensusWitness Hash Key Sig State → Except ConsensusError (ValidatedConsensus Hash Key))

-- A commit, a refused commit, or a step that leaves the finalized boundary alone.
inductive CommitStep : Engine Hash Key Sig Blob Node Value Tr → Option (Accepted Hash Key Sig State) →
    Engine Hash Key Sig Blob Node Value Tr → Prop where
  | committed {accepts request outcome engine next prepared} :
    commitConsensusChunkInner host validate accepts request engine = .ok outcome next →
    prepareCommit host validate engine request = .ok prepared →
    CommitStep engine (some (request.witness,prepared.statement)) next
  | refused {accepts request reason engine next} :
    commitConsensusChunkInner host validate accepts request engine = .error reason next → CommitStep engine none next
  | elsewhere {engine next} : next.db.rows .consensusState = engine.db.rows .consensusState →
    next.latestFinalizedChunkId = engine.latestFinalizedChunkId → CommitStep engine none next

variable {host validate}

theorem refused_unchanged (refused : commitConsensusChunkInner host validate accepts request engine = .error reason next) : next = engine := by
  have aborted := commit_steps host accepts request engine rfl
  rw [refused] at aborted
  exact aborted

def committedChunks (events : List (Option (Accepted Hash Key Sig State))) : List (Accepted Hash Key Sig State) := events.filterMap id

theorem returned_step (done : returns (commitConsensusChunkInner host validate accepts request) engine = true) :
    ∃ statement next, CommitStep host validate engine (some (request.witness,statement))
        (finalState (commitConsensusChunkInner host validate accepts request) engine) ∧
      validate request.witness = .ok ⟨statement,next⟩ := by
  obtain ⟨outcome,ran⟩ := returns_final done
  have returned := commit_steps host accepts request engine rfl
  rw [ran] at returned
  obtain ⟨prepared,ready,-,-⟩ := returned
  exact ⟨prepared.statement,prepared.state.nextContext,.committed ran ready,(prepare_admitted ready).accepted⟩

def Holding (host : EngineHost Hash Key Sig State Blob Node Value Tr) (statement : ConsensusStatement Hash)
    (engine : Engine Hash Key Sig Blob Node Value Tr) : Prop :=
  engine.latestFinalizedChunkId = some statement.chunk.chunkId ∧
    ∃ state, engine.db.rows .consensusState = some state ∧ state.boundary = statement.end_ ∧
      contextBoundary host.toConsensusHost state.nextContext state.nextSeed = .ok statement.end_ ∧
      state.frontier.count = statement.end_.nextChunkId ∧ state.frontier.root host.tree = some statement.end_.historyRoot

theorem incoming_joint {frontier : HistoryFrontier Hash} (holding : Holding host statement engine) (incoming : consensusBoundary host engine chunkId = .ok (context,seed,frontier)) :
    contextBoundary host.toConsensusHost context seed = .ok statement.end_ := by
  obtain ⟨latest,state,stored,-,boundary,-⟩ := holding
  simp only [consensusBoundary,validateChunkIdSequence,latest,bind_ok,required_ok,ensure_ok,checked_add_some] at incoming
  obtain ⟨_,⟨expected,⟨rfl,-⟩,rfl⟩,built⟩ := incoming
  rw [if_neg (Nat.succ_ne_zero _)] at built
  simp only [bind_ok,required_ok,ensure_ok,mapError_ok,pure_ok,Prod.mk.injEq,stored,Option.some.injEq] at built
  obtain ⟨_,rfl,_,-,_,-,_,-,rfl,rfl,-⟩ := built
  exact boundary

variable [LT Hash] [DecidableLT Hash] {Point : Type} [DecidableEq Point] {suite : Suite Hash Key Sig Point}
  {id : FactRequest Hash Key Sig → Hash}

theorem commit_holding (taken : CommitStep host (validateConsensusWithContext host.toConsensusHost suite id) engine (some chunk) next) :
    (∃ after, Sealed host.toConsensusHost chunk.1 ⟨chunk.2,after⟩) ∧ Holding host chunk.2 next ∧
      ∃ frontier, consensusBoundary host engine chunk.1.context.chunkId = .ok (chunk.1.context,chunk.1.seed,frontier) := by
  cases taken with
  | @committed accepts request outcome _ _ prepared ran ready =>
    have admitted := prepare_admitted ready
    have closed := accepted_sealed admitted.accepted
    have returned := commit_steps host accepts request engine rfl
    rw [ran] at returned
    obtain ⟨same,again,stored,latest⟩ := returned
    obtain rfl := Except.ok.inj (ready.symm.trans again)
    obtain ⟨named,-,-,-⟩ := boundary_fields closed.finish
    obtain ⟨leaf,appended⟩ := admitted.grown
    obtain ⟨counted,-,rooted⟩ := HistoryFrontier.append_grows appended
    refine ⟨⟨_,closed⟩,⟨?_,prepared.state,stored,admitted.target,admitted.boundary,?_,rooted⟩,admitted.incoming⟩
    · rw [latest,named,closed.successor,closed.chunkId]
      simp [checkedSub]
    · rw [counted,closed.counted,named,closed.successor]

def nextChunkId (engine : Engine Hash Key Sig Blob Node Value Tr) : Nat := (engine.latestFinalizedChunkId.map (· + 1)).getD 0

theorem incoming_id (found : consensusBoundary host engine chunkId = .ok incoming) : chunkId = nextChunkId engine := by
  unfold nextChunkId
  cases latest : engine.latestFinalizedChunkId with
  | none =>
    simp only [consensusBoundary,validateChunkIdSequence,latest,bind_ok,ensure_ok,pure_ok] at found
    obtain ⟨_,⟨_,rfl,same⟩,-⟩ := found
    exact same
  | some id =>
    simp only [consensusBoundary,validateChunkIdSequence,latest,bind_ok,required_ok,ensure_ok,checked_add_some] at found
    obtain ⟨_,⟨_,⟨rfl,-⟩,same⟩,-⟩ := found
    exact same

-- The chunks so far are joined and the engine holds the last, or its own at first.
structure Following (host : EngineHost Hash Key Sig State Blob Node Value Tr) (start : Engine Hash Key Sig Blob Node Value Tr)
    (chunks : List (Accepted Hash Key Sig State)) (engine : Engine Hash Key Sig Blob Node Value Tr) : Prop where
  joined : Joined host.toConsensusHost chunks
  held : ∀ last ∈ chunks.getLast?, Holding host last.2 engine
  idle : chunks = [] → engine.latestFinalizedChunkId = start.latestFinalizedChunkId
  first : ∀ chunk ∈ chunks.head?, chunk.1.context.chunkId = nextChunkId start

theorem Following.grow (following : Following host start chunks engine)
    (taken : CommitStep host (validateConsensusWithContext host.toConsensusHost suite id) engine (some chunk) next) :
    Following host start (chunks ++ [chunk]) next := by
  obtain ⟨closed,holding,frontier,incoming⟩ := commit_holding taken
  refine ⟨joined_append following.joined closed fun last final => incoming_joint (following.held last final) incoming, ?_,by simp,?_⟩
  · intro last final
    rw [List.getLast?_append_of_ne_nil _ (by simp)] at final
    obtain rfl := Option.some.inj final
    exact holding
  · intro front listed
    cases chunks with
    | nil =>
      obtain rfl := Option.some.inj listed
      rw [incoming_id incoming,nextChunkId,nextChunkId,following.idle rfl]
    | cons earlier rest => exact following.first front listed

theorem run_following (path : Runs (CommitStep host (validateConsensusWithContext host.toConsensusHost suite id)) start events engine) :
    Following host start (committedChunks events) engine := by
  refine path.invariant (fun events engine => Following host start (committedChunks events) engine)
    ⟨⟨by simp [committedChunks],.nil⟩,by simp [committedChunks],fun _ => rfl,by simp [committedChunks]⟩ ?_
  intro labels middle label after _ following taken
  cases label with
  | none =>
    have same : committedChunks (labels ++ [none]) = committedChunks labels := by simp [committedChunks]
    rw [same]
    cases taken with
    | refused ran =>
      rw [refused_unchanged ran]
      exact following
    | elsewhere stored latest =>
      refine ⟨following.joined,fun last final => ?_,fun none => latest.trans (following.idle none),following.first⟩
      obtain ⟨named,state,row,rest⟩ := following.held last final
      exact ⟨latest.trans named,state,stored.trans row,rest⟩
  | some chunk =>
    have grown : committedChunks (labels ++ [some chunk]) = committedChunks labels ++ [chunk] := by simp [committedChunks]
    rw [grown]
    exact following.grow taken

-- One contiguous chain whose frontiers commit to all the chunks before.
structure FinalizedChain (host : ConsensusHost Hash Key Sig State) (chunks : List (Accepted Hash Key Sig State)) : Prop where
  contiguous : ∀ first ∈ chunks.head?, Contiguous host first.2.chunk.chunkId chunks
  recorded : ∀ prior, (∀ first ∈ chunks.head?, prior.length = first.2.start.nextChunkId ∧
    historyRoot host.tree prior = some first.2.start.historyRoot) → Recorded host prior chunks
  genesis : (∀ first ∈ chunks.head?, first.2.chunk.chunkId = 0) → Recorded host [] chunks

theorem joined_finalized {host : ConsensusHost Hash Key Sig State}
    (injective : host.tree.Injective) (joined : Joined host chunks) : FinalizedChain host chunks := by
  have closed : ∀ first ∈ chunks.head?, ∃ next, Sealed host first.1 ⟨first.2,next⟩ :=
    fun first front => joined.closed first (List.mem_of_mem_head? front)
  refine ⟨fun first front => joined_contiguous joined fun other same => ?_,
    fun prior anchored => joined_recorded injective joined fun first front => ?_,
    fun numbered => joined_recorded injective joined fun first front => ?_⟩
  · obtain rfl := Option.some.inj (front.symm.trans same)
    obtain ⟨next,sealed⟩ := closed first front
    exact sealed.chunkId.symm
  · obtain ⟨next,sealed⟩ := closed first front
    obtain ⟨named,-,root,-⟩ := boundary_fields sealed.start
    obtain ⟨count,rooted⟩ := anchored first front
    exact ⟨count.trans named,rooted.trans (congrArg some root)⟩
  · obtain ⟨next,sealed⟩ := closed first front
    have genesis := sealed.chunkId.symm.trans (numbered first front)
    exact ⟨genesis.symm,by rw [sealed.genesis genesis]; exact HistoryFrontier.initial_root⟩

theorem finalized_chunks_contiguous (host : EngineHost Hash Key Sig State Blob Node Value Tr) (suite : Suite Hash Key Sig Point)
    (id : FactRequest Hash Key Sig → Hash) (injective : host.tree.Injective) :
    (∀ chunks : List (Accepted Hash Key Sig State), AcceptedChain host.toConsensusHost suite id chunks →
      FinalizedChain host.toConsensusHost chunks) ∧ (∀ (start engine : Engine Hash Key Sig Blob Node Value Tr) events,
      Runs (CommitStep host (validateConsensusWithContext host.toConsensusHost suite id)) start events engine →
      FinalizedChain host.toConsensusHost (committedChunks events) ∧
        (∀ first ∈ (committedChunks events).head?, first.2.chunk.chunkId = nextChunkId start) ∧
        ∀ last ∈ (committedChunks events).getLast?, Holding host last.2 engine) ∧
    ∀ accepts (request : CommitRequest Hash Key Sig State Blob (validateConsensusWithContext host.toConsensusHost suite id))
      reason (engine next : Engine Hash Key Sig Blob Node Value Tr),
      commitConsensusChunkInner host _ accepts request engine = .error reason next → next = engine := by
  refine ⟨fun chunks accepted => joined_finalized injective (accepted_joined accepted),
    fun start engine events path => ?_,fun accepts request reason engine next refused => refused_unchanged refused⟩
  have following := run_following path
  refine ⟨joined_finalized injective following.joined,fun first front => ?_,following.held⟩
  obtain ⟨next,sealed⟩ := following.joined.closed first (List.mem_of_mem_head? front)
  exact sealed.chunkId.trans (following.first first front)
end
section
def pairTree : HistoryTree Nat where
  leafHash := fun leaf => (leaf.map (· + 1)).getD 0
  nodeHash := fun _ left right => 2 ^ right * (2 * left + 1) - 1
  countedRoot := fun _ root => root

theorem odd_part_unique (right right' : Nat) (same : 2 ^ right * (2 * left + 1) = 2 ^ right' * (2 * left' + 1)) :
    left = left' ∧ right = right' := by
  induction right generalizing right' with
  | zero =>
    cases right' with
    | zero => omega
    | succ below =>
      rw [pow_succ',mul_assoc,pow_zero] at same
      omega
  | succ below ih =>
    cases right' with
    | zero =>
      rw [pow_succ',mul_assoc,pow_zero] at same
      omega
    | succ below' =>
      obtain ⟨sides,levels⟩ := ih below' (by rw [pow_succ',pow_succ',mul_assoc,mul_assoc] at same; omega)
      exact ⟨sides,congrArg (· + 1) levels⟩

theorem pair_tree_injective : pairTree.Injective where
  node _ left right left' right' same := by
    refine odd_part_unique right right' ?_
    have one : 0 < 2 ^ right * (2 * left + 1) := Nat.mul_pos (Nat.two_pow_pos _) (Nat.succ_pos _)
    have other : 0 < 2 ^ right' * (2 * left' + 1) := Nat.mul_pos (Nat.two_pow_pos _) (Nat.succ_pos _)
    have less : 2 ^ right * (2 * left + 1) - 1 = 2 ^ right' * (2 * left' + 1) - 1 := same
    omega
  counted _ _ _ same := same

def emptyTries : TrieOps Nat Unit Unit Unit where
  zero := 0
  root := fun _ => 0
  pendingNodes := fun _ => []
  pendingValues := fun _ => []
  drained := id
  fromPersisted := fun _ _ _ => ()
  nodeBytes := fun _ _ => none
  valueBytes := fun _ _ => none
  retainRoots := fun state _ => some state

def sampleHost (tree : HistoryTree Nat) : EngineHost Nat Nat Nat Unit Unit Unit Unit Unit where
  toConsensusHost := {openHost with tree := tree}
  tries := emptyTries
  checkpointHash := fun checkpoint => checkpoint.boundary.nextChunkId
  rangeId := fun statement => statement.end_.nextChunkId
  execute := fun _ _ _ state => some state
  observe := fun _ observations => observations
  historyRows := fun _ _ => .ok []
  staleRows := fun _ _ => .ok []
  release := fun _ observations => observations
  authentic := fun _ _ _ => true
  sameContent := fun _ _ => true

def sampleHeader (context : ExecutionContext Nat Nat) : Header Nat Nat :=
  ⟨⟨context.chunkId + 1,context.chunkId + 1,context.parentBlockHash,0,0,0,0,0,0,0,0,0,9,101 + context.chunkId⟩,0⟩

def sampleChunk (context : ExecutionContext Nat Nat) : Chunk Nat :=
  ⟨context.chunkId,context.chunkId + 1,context.chunkId + 1,0,0,context.chunkId + 1,context.chunkId + 1,0,0,0,0,0,0⟩

def sampleBlock (context : ExecutionContext Nat Nat) : ProvenBlock Nat Nat Nat where
  header := sampleHeader context
  publicInputs := expectedInputs context (sampleHeader context) (context.chunkId + 1) (context.chunkId + 1)
    context.parentBlockHash 0 ⟨1,0,1,false,0,maxU64,0⟩
  output := ⟨⟨⟨1,0,context.chunkId,context.historyRoot,3,2,60,1⟩,[]⟩,7,context.chunkId + 1,9,0,0,0,0,0,0,0,0,0⟩

def sampleVote (chunkId : Nat) (phase : FinalityVotePhase) (proofs : List Nat) : VoteAttestation Nat Nat :=
  ⟨0,0,⟨chunkId,0,chunkId,phase⟩,proofs,none,0⟩

def sampleCert (context : ExecutionContext Nat Nat) : FinalityCert Nat Nat :=
  ⟨⟨sampleChunk context,0,0,none,none,0⟩,[sampleVote context.chunkId .prevote []],
    [sampleVote context.chunkId .precommit [context.chunkId + 1]],context.chunkId,0,context.chunkId,
    ⟨⟨[true]⟩,0⟩,⟨⟨[true]⟩,0⟩,0⟩

def sampleInput (context : ExecutionContext Nat Nat) (frontier : HistoryFrontier Nat) : ConsensusWitness Nat Nat Nat Unit where
  factGuestVkDigest := 1
  evidenceGuestVkDigest := 2
  consensusPrograms := ⟨4,5⟩
  chainSpec := soloSpec
  context := context
  seed := 0
  blocks := [sampleBlock context]
  bodies := [⟨[],[]⟩]
  postState := ()
  history := ⟨frontier,[]⟩
  finalityCert := sampleCert context
  blockGuestVkDigest := 3
  facts := []

def sampleContext (chunkId historyRoot : Nat) : ExecutionContext Nat Nat := {soloContext with
  chunkId := chunkId
  parentBlockHash := chunkId
  parentSlot := chunkId
  activeValidators := [⟨1,0,1,false,0,maxU64,chunkId⟩]
  historyRoot := historyRoot }

def sampleValidate (tree : HistoryTree Nat) : ConsensusWitness Nat Nat Nat Unit → Except ConsensusError (ValidatedConsensus Nat Nat) :=
  validateConsensusWithContext (sampleHost tree).toConsensusHost openSuite soloId

def sampleRequest (tree : HistoryTree Nat) (witness : ConsensusWitness Nat Nat Nat Unit) :
    CommitRequest Nat Nat Nat Unit Unit (sampleValidate tree) :=
  ⟨witness,(),⟨some 3,fun _ _ => true⟩,false,false,none,by simp⟩

def sampleEngine (contexts : List (ExecutionContext Nat Nat)) : Engine Nat Nat Nat Unit Unit Unit Unit where
  db := Database.empty.write (contexts.flatMap fun context => [.put (.header (context.chunkId + 1)) (sampleHeader context),
    .put (.headerByHeight (context.chunkId + 1)) (context.chunkId + 1)])
  chainSpec := soloSpec
  programs := some soloPrograms
  consensusPrograms := ⟨4,5⟩
  state := ()
  headHeight := contexts.length
  headHash := contexts.length
  headStateRoot := 0
  finalizedSeed := 0
  latestFinalizedChunkId := none
  recursiveCoveredChunks := 0
  activeValidatorSet := soloSpec.initialValidators
  previousValidatorSetRoot := 0
  bftSessions := []
  forkChoice := ⟨contexts.map fun context => (context.chunkId + 1,context.parentBlockHash),0⟩
  observations := ()

def firstInput : ConsensusWitness Nat Nat Nat Unit := sampleInput (sampleContext 0 0) .initial
def secondInput : ConsensusWitness Nat Nat Nat Unit := sampleInput (sampleContext 1 (2 ^ 64)) ⟨1,[1]⟩

def sampleCommit (witness : ConsensusWitness Nat Nat Nat Unit) : EngineM Nat Nat Nat Unit Unit Unit Unit (FinalizeOutcome Nat Nat Unit) :=
  commitConsensusChunkInner (sampleHost pairTree) (sampleValidate pairTree) true (sampleRequest pairTree witness)

def openedEngine : Engine Nat Nat Nat Unit Unit Unit Unit := sampleEngine [firstInput.context,secondInput.context]
def onceCommitted : Engine Nat Nat Nat Unit Unit Unit Unit := finalState (sampleCommit firstInput) openedEngine
def twiceCommitted : Engine Nat Nat Nat Unit Unit Unit Unit := finalState (sampleCommit secondInput) onceCommitted

-- Two joined chunks are committed; the second once more is refused.
theorem two_chunks_contiguous : ∃ first second, AcceptedChain (sampleHost pairTree).toConsensusHost openSuite soloId
        [(firstInput,first),(secondInput,second)] ∧
      FinalizedChain (sampleHost pairTree).toConsensusHost [(firstInput,first),(secondInput,second)] ∧
      Runs (CommitStep (sampleHost pairTree) (sampleValidate pairTree)) openedEngine
        [some (firstInput,first),some (secondInput,second)] twiceCommitted ∧ Holding (sampleHost pairTree) second twiceCommitted ∧
      finalState (sampleCommit secondInput) twiceCommitted = twiceCommitted := by
  obtain ⟨accepted,committed,refused⟩ := finalized_chunks_contiguous (sampleHost pairTree) openSuite soloId pair_tree_injective
  obtain ⟨first,_,taken,validated⟩ := returned_step (show returns (sampleCommit firstInput) openedEngine = true by
    decide +kernel)
  obtain ⟨second,_,retaken,revalidated⟩ := returned_step (show returns (sampleCommit secondInput) onceCommitted = true by
    decide +kernel)
  obtain ⟨reason,again⟩ := aborts_final (show returns (sampleCommit secondInput) twiceCommitted = false by decide +kernel)
  have path : Runs (CommitStep (sampleHost pairTree) (sampleValidate pairTree)) openedEngine
      [some (firstInput,first),some (secondInput,second)] twiceCommitted := .snoc (.snoc .nil taken) retaken
  have joined : Joined (sampleHost pairTree).toConsensusHost [(firstInput,first),(secondInput,second)] := (run_following path).joined
  have chain : AcceptedChain (sampleHost pairTree).toConsensusHost openSuite soloId [(firstInput,first),(secondInput,second)] := by
    refine ⟨fun chunk front => ?_,.cons_cons ?_ (.singleton _)⟩
    · obtain rfl := Option.some.inj front
      rw [validateConsensus,show validateConsensusWithContext _ _ _ firstInput = _ from validated]
      rfl
    · have joint := List.isChain_cons_cons.mp joined.joints |>.1
      obtain ⟨_,opened⟩ := joined.closed (firstInput,first) (by simp)
      rw [validateSuccessor,joint,ok_bind,ensure_pos ⟨rfl,opened.chain.symm⟩,ok_bind,validateConsensus,
        show validateConsensusWithContext _ _ _ secondInput = _ from revalidated]
      rfl
  obtain ⟨-,-,held⟩ := committed _ _ _ path
  exact ⟨first,second,chain,accepted _ chain,path,held _ rfl,refused _ _ _ _ _ again⟩
end
end Neutrino.ConsensusEngine
