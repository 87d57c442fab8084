import Neutrino.Chain.Checkpoint

-- Proof-only trust and freshness (light-client), with every u64 step checked.
namespace Neutrino.Chain
open Checks Consensus

inductive UpdateOutcome where
  | advanced
  | alreadyCurrent
deriving DecidableEq

inductive LightClientError where
  | invalidAnchor
  | domain
  | expired
  | conflict
  | notExtension
  | unexpectedTarget
  | future
  | stale
  | range
  | verification
deriving DecidableEq

structure HistoryProof (Hash Receipt : Type) where
  statement : HistoryStatement Hash
  receipt : Receipt

-- Digests and constants outside the client, and the receipt verifier it is given.
structure LightClientBackend (Hash Key Receipt : Type) where
  specHash : ChainSpec Hash Key → Hash
  checkpointHash : Checkpoint Hash → Hash
  commitment : List (Validator Hash Key) → Hash
  emptyHistoryRoot : Hash
  noParticipation : Hash
  verifyHistory : HistoryProof Hash Receipt → ProofDomain Hash → Bool

structure LightClientSnapshot (Hash : Type) where
  checkpoint : Checkpoint Hash
  anchorExpiresAt : Nat
deriving DecidableEq

structure LightClient (Hash : Type) where
  checkpoint : Checkpoint Hash
  genesisTime : Nat
  slotDurationSecs : Nat
  weakSubjectivityPeriodSecs : Nat
  staleThresholdSecs : Nat
  maxFutureDriftSecs : Nat
  anchorExpiresAt : Nat
deriving DecidableEq

structure AcceptCall (Hash Receipt : Type) where
  proof : HistoryProof Hash Receipt
  expectedEndpoint : Hash
  now : Nat

namespace LightClient
variable {Hash Key Receipt : Type} [DecidableEq Hash] (backend : LightClientBackend Hash Key Receipt)

def bindingOf (spec : ChainSpec Hash Key) (consensus : ConsensusPrograms) : ChainBinding Hash :=
  ⟨spec.chainId,backend.specHash spec,spec.consensus.chunkSize,consensus⟩

def genesisBoundary (spec : ChainSpec Hash Key) (programs : ProgramSet Hash) : ConsensusBoundary Hash :=
  ⟨0,0,spec.genesisBlockHash,spec.genesisStateRoot,0,spec.genesisValidatorSetRoot,spec.genesisSeed,
    backend.emptyHistoryRoot,programs,backend.noParticipation⟩

def new (spec : ChainSpec Hash Key) (trusted : Checkpoint Hash) (trustedAt maxFutureDriftSecs : Nat) :
    Except LightClientError (LightClient Hash) := do
  (spec.validate backend.commitment).mapError fun _ => .invalidAnchor
  ensure ((trusted.boundary.nextChunkId = 0 → trusted.boundary = genesisBoundary backend spec trusted.boundary.programs) ∧
    trusted.chain = bindingOf backend spec trusted.chain.consensus ∧ trusted.chain.isComplete = true ∧
    trusted.boundary.isWellFormed trusted.chain = true ∧
    (validateDomain ⟨trusted.chain,trusted.boundary.programs⟩).isOk = true) .invalidAnchor
  let anchorExpiresAt ← required (checkedAdd trustedAt spec.lightClient.weakSubjectivityPeriodSecs) .range
  pure ⟨trusted,spec.genesisTime,spec.consensus.slotDurationSecs,spec.lightClient.weakSubjectivityPeriodSecs,
    spec.lightClient.staleThresholdSecs,maxFutureDriftSecs,anchorExpiresAt⟩

def snapshot (client : LightClient Hash) : LightClientSnapshot Hash := ⟨client.checkpoint,client.anchorExpiresAt⟩

def restore (spec : ChainSpec Hash Key) (trustedDomain : ProofDomain Hash) (saved : LightClientSnapshot Hash)
    (maxFutureDriftSecs : Nat) : Except LightClientError (LightClient Hash) := do
  ensure (saved.checkpoint.chain = trustedDomain.chain) .domain
  let trustedAt ← required (checkedSub saved.anchorExpiresAt spec.lightClient.weakSubjectivityPeriodSecs) .invalidAnchor
  new backend spec saved.checkpoint trustedAt maxFutureDriftSecs

section
variable (client : LightClient Hash)

def trustedDomain : ProofDomain Hash := ⟨client.checkpoint.chain,client.checkpoint.boundary.programs⟩
def timestamp (slot : Nat) : Option Nat := (checkedMul slot client.slotDurationSecs).bind (checkedAdd client.genesisTime)

def freshExpiry (slot now : Nat) : Except LightClientError Nat := do
  let timestamp ← required (client.timestamp slot) .range
  let latest ← required (checkedAdd now client.maxFutureDriftSecs) .range
  ensure (timestamp ≤ latest) .future
  ensure (now - timestamp ≤ client.staleThresholdSecs) .stale
  let expiry ← required (checkedAdd (min timestamp now) client.weakSubjectivityPeriodSecs) .range
  ensure (now < expiry) .expired
  pure expiry

-- What accept checks first; an endpoint already current assigns nothing.
def judge (call : AcceptCall Hash Receipt) : Except LightClientError (Option (Checkpoint Hash × Nat)) := do
  ensure (call.now < client.anchorExpiresAt) .expired
  let statement := call.proof.statement
  ensure (statement.chain = client.checkpoint.chain) .domain
  let _ ← (validateHistory statement).mapError fun _ => .range
  ensure (backend.checkpointHash statement.endCheckpoint = call.expectedEndpoint) .unexpectedTarget
  ensure (backend.verifyHistory call.proof client.trustedDomain = true) .verification
  if statement.endCheckpoint = client.checkpoint then pure none
  else do
    ensure (statement.end_.nextChunkId ≠ client.checkpoint.boundary.nextChunkId) .conflict
    ensure (statement.start = client.checkpoint.boundary) .notExtension
    let expiry ← client.freshExpiry statement.end_.slot call.now
    pure (some (statement.endCheckpoint,expiry))

def accept (call : AcceptCall Hash Receipt) : LightClient Hash × Except LightClientError UpdateOutcome :=
  match client.judge backend call with
  | .error reason => (client,.error reason)
  | .ok none => (client,.ok .alreadyCurrent)
  | .ok (some (checkpoint,anchorExpiresAt)) => ({client with checkpoint,anchorExpiresAt},.ok .advanced)

def run (calls : List (AcceptCall Hash Receipt)) : LightClient Hash :=
  calls.foldl (fun client call => (client.accept backend call).1) client
end

def advances : LightClient Hash → List (AcceptCall Hash Receipt) → List (HistoryStatement Hash)
  | _,[] => []
  | client,call::rest =>
    let (next,outcome) := client.accept backend call
    match outcome with
    | .ok .advanced => call.proof.statement::advances next rest
    | _ => advances next rest

-- Accepted statements of one chain end to end, each moving chunk id and slot on.
def Linked (accepted : HistoryStatement Hash → Prop) (chain : ChainBinding Hash) :
    ConsensusBoundary Hash → List (HistoryStatement Hash) → ConsensusBoundary Hash → Prop
  | first,[],last => first = last
  | first,statement::rest,last => statement.chain = chain ∧ statement.start = first ∧ accepted statement ∧
      first.nextChunkId < statement.end_.nextChunkId ∧ first.slot < statement.end_.slot ∧
      Linked accepted chain statement.end_ rest last

-- One advance: where it starts, where it leads and what happens to the expiry.
structure Advance (accepted : HistoryStatement Hash → Prop) (before : LightClient Hash)
    (call : AcceptCall Hash Receipt) (after : LightClient Hash) : Prop where
  unexpired : call.now < before.anchorExpiresAt
  starts : call.proof.statement.start = before.checkpoint.boundary
  sameChain : call.proof.statement.chain = before.checkpoint.chain
  accepted : accepted call.proof.statement
  sound : ∃ count, validateHistory call.proof.statement = .ok count
  fresh : before.freshExpiry call.proof.statement.end_.slot call.now = .ok after.anchorExpiresAt
  result : after = {before with
    checkpoint := call.proof.statement.endCheckpoint, anchorExpiresAt := after.anchorExpiresAt}

section
variable {accepted : HistoryStatement Hash → Prop} {client : LightClient Hash}

theorem accept_unchanged (refused : (client.accept backend call).2 ≠ .ok .advanced) : (client.accept backend call).1 = client := by
  unfold accept at refused ⊢
  split
  · rfl
  · rfl
  · rename_i judged
    rw [judged] at refused
    exact absurd rfl refused

theorem accept_advance (sound : ∀ proof domain, backend.verifyHistory proof domain = true → accepted proof.statement)
    (advanced : (client.accept backend call).2 = .ok .advanced) : Advance accepted client call (client.accept backend call).1 := by
  unfold accept at advanced ⊢
  split at advanced
  · cases advanced
  · cases advanced
  · rename_i checkpoint expiry judged
    simp only [judge,bind_ok,ensure_ok,mapError_ok] at judged
    obtain ⟨_,unexpired,_,sameChain,count,counted,_,-,_,verified,judged⟩ := judged
    split at judged
    · cases judged
    · simp only [bind_ok,ensure_ok,pure_ok,Option.some.injEq,Prod.mk.injEq] at judged
      obtain ⟨_,-,_,starts,_,fresh,rfl,rfl⟩ := judged
      exact ⟨unexpired,starts,sameChain,sound _ _ verified,⟨count,counted⟩,fresh,rfl⟩
end
section
variable {accepted : HistoryStatement Hash → Prop}

theorem timestamp_some {client : LightClient Hash} : client.timestamp slot = some time ↔
    client.genesisTime + slot * client.slotDurationSecs = time ∧ time < 2^64 ∧ slot * client.slotDurationSecs < 2^64 := by
  simp only [timestamp,Option.bind_eq_some_iff,checked_mul_some,checked_add_some]
  constructor
  · rintro ⟨_,⟨rfl,small⟩,same,bound⟩
    exact ⟨same,bound,small⟩
  · rintro ⟨same,bound,small⟩
    exact ⟨_,⟨rfl,small⟩,same,bound⟩

theorem fresh_expiry_ok {client : LightClient Hash} (fresh : client.freshExpiry slot now = .ok expiry) :
    expiry = min (client.genesisTime + slot * client.slotDurationSecs) now + client.weakSubjectivityPeriodSecs ∧
      now < expiry ∧ expiry < 2^64 := by
  simp only [freshExpiry,bind_ok,required_ok,ensure_ok,pure_ok,checked_add_some,timestamp_some] at fresh
  obtain ⟨time,⟨rfl,-,-⟩,_,-,_,-,_,-,_,⟨rfl,bound⟩,_,later,rfl⟩ := fresh
  exact ⟨rfl,later,bound⟩

theorem Advance.moves (advance : Advance accepted before call after) :
    before.checkpoint.boundary.nextChunkId < call.proof.statement.end_.nextChunkId ∧
      before.checkpoint.boundary.slot < call.proof.statement.end_.slot := by
  obtain ⟨count,counted⟩ := advance.sound
  obtain ⟨-,-,-,slots,rises,positive⟩ := validate_history_ok.mp counted
  rw [← advance.starts]
  exact ⟨by omega,slots⟩

theorem Advance.expiry (advance : Advance accepted before call after) : call.now < after.anchorExpiresAt ∧
      after.anchorExpiresAt ≤ call.now + before.weakSubjectivityPeriodSecs := by
  obtain ⟨same,later,-⟩ := fresh_expiry_ok advance.fresh
  exact ⟨later,by omega⟩
end
section
variable {accepted : HistoryStatement Hash → Prop}
  (sound : ∀ proof domain, backend.verifyHistory proof domain = true → accepted proof.statement)

include sound in
theorem accept_cases (client : LightClient Hash) (call : AcceptCall Hash Receipt) :
    ((client.accept backend call).2 = .ok .advanced ∧ Advance accepted client call (client.accept backend call).1) ∨
      ((client.accept backend call).2 ≠ .ok .advanced ∧ (client.accept backend call).1 = client) := by
  by_cases advanced : (client.accept backend call).2 = .ok .advanced
  · exact .inl ⟨advanced,accept_advance backend sound advanced⟩
  · exact .inr ⟨advanced,accept_unchanged backend advanced⟩

theorem advances_cons (client : LightClient Hash) (call : AcceptCall Hash Receipt) (rest : List (AcceptCall Hash Receipt)) :
    advances backend client (call::rest) = if (client.accept backend call).2 = .ok .advanced then
        call.proof.statement::advances backend (client.accept backend call).1 rest
      else advances backend (client.accept backend call).1 rest := by
  rw [advances]
  generalize client.accept backend call = result
  obtain ⟨next,outcome⟩ := result
  rcases outcome with reason | _ | _ <;> simp

include sound in
theorem run_linked (client : LightClient Hash) (calls : List (AcceptCall Hash Receipt)) :
    Linked accepted client.checkpoint.chain client.checkpoint.boundary (advances backend client calls)
      (client.run backend calls).checkpoint.boundary := by
  induction calls generalizing client with
  | nil => rfl
  | cons call rest ih =>
    rw [advances_cons]
    change Linked _ _ _ _ ((client.accept backend call).1.run backend rest).checkpoint.boundary
    rcases accept_cases backend sound client call with ⟨advanced,advance⟩ | ⟨refused,same⟩
    · rw [if_pos advanced]
      have later := ih (client.accept backend call).1
      rw [advance.result] at later ⊢
      exact ⟨advance.sameChain,advance.starts,advance.accepted,advance.moves.1,advance.moves.2, advance.sameChain ▸ later⟩
    · rw [if_neg refused,same]
      exact ih client

-- What every call keeps: chain, policy, and a boundary and expiry a restore accepts.
structure Anchored (spec : ChainSpec Hash Key) (drift : Nat) (chain : ChainBinding Hash) (client : LightClient Hash) : Prop where
  chain : client.checkpoint.chain = chain
  policy : client = ⟨client.checkpoint,spec.genesisTime,spec.consensus.slotDurationSecs,
    spec.lightClient.weakSubjectivityPeriodSecs,spec.lightClient.staleThresholdSecs,drift,client.anchorExpiresAt⟩
  genesis : client.checkpoint.boundary.nextChunkId = 0 →
    client.checkpoint.boundary = genesisBoundary backend spec client.checkpoint.boundary.programs
  bound : client.checkpoint.chain = bindingOf backend spec client.checkpoint.chain.consensus
  named : validateChain client.checkpoint.chain = .ok ()
  formed : client.checkpoint.boundary.isWellFormed client.checkpoint.chain = true
  programs : client.checkpoint.boundary.programs.isComplete = true
  expiry : spec.lightClient.weakSubjectivityPeriodSecs ≤ client.anchorExpiresAt ∧ client.anchorExpiresAt < 2^64
  specValid : spec.validate backend.commitment = .ok ()

variable {drift : Nat} {chain : ChainBinding Hash}

theorem validate_domain_ok : validateDomain domain = .ok () ↔ validateChain domain.chain = .ok () ∧ domain.programs.isComplete = true := by
  simp only [validateDomain,bind_ok,ensure_ok]
  constructor
  · rintro ⟨_,named,programs⟩
    exact ⟨named,programs⟩
  · rintro ⟨named,programs⟩
    exact ⟨(),named,programs⟩

theorem new_anchored (opened : new backend spec trusted trustedAt drift = .ok client) :
    Anchored backend spec drift trusted.chain client ∧ client.checkpoint = trusted := by
  simp only [new,bind_ok,mapError_ok,ensure_ok,required_ok,pure_ok,checked_add_some] at opened
  obtain ⟨_,specValid,_,⟨genesis,bound,-,formed,domain⟩,expiry,⟨rfl,small⟩,rfl⟩ := opened
  obtain ⟨_,domain⟩ := isOk_iff.mp domain
  obtain ⟨named,programs⟩ := validate_domain_ok.mp domain
  exact ⟨⟨rfl,rfl,genesis,bound,named,formed,programs,⟨Nat.le_add_left _ _,small⟩,specValid⟩,rfl⟩

theorem Advance.anchored (advance : Advance accepted before call after) (anchored : Anchored backend spec drift chain before) :
    Anchored backend spec drift chain after := by
  obtain ⟨count,counted⟩ := advance.sound
  obtain ⟨named,-,finish,-,rises,positive⟩ := validate_history_ok.mp counted
  have fresh := fresh_expiry_ok advance.fresh
  have period : before.weakSubjectivityPeriodSecs = spec.lightClient.weakSubjectivityPeriodSecs := by
    rw [anchored.policy]
  simp only [boundaryIsValid,Bool.and_eq_true] at finish
  have result := advance.result
  have sameChain := advance.sameChain
  generalize after.anchorExpiresAt = expiry at result fresh
  subst result
  refine ⟨sameChain.trans anchored.chain,?_,fun first => ?_,?_,named,finish.1,finish.2,?_,anchored.specValid⟩
  · have policy := anchored.policy
    simp only [LightClient.mk.injEq] at policy ⊢
    rw [policy]
    simp
  · simp only [HistoryStatement.endCheckpoint] at first
    omega
  · simp only [HistoryStatement.endCheckpoint]
    rw [sameChain]
    exact anchored.bound
  · simp only
    omega

include sound in
theorem run_anchored (anchored : Anchored backend spec drift chain client)
    (calls : List (AcceptCall Hash Receipt)) : Anchored backend spec drift chain (client.run backend calls) := by
  induction calls generalizing client with
  | nil => exact anchored
  | cons call rest ih =>
    change Anchored backend spec drift chain ((client.accept backend call).1.run backend rest)
    rcases accept_cases backend sound client call with ⟨-,advance⟩ | ⟨-,same⟩
    · exact ih (advance.anchored backend anchored)
    · rw [same]
      exact ih anchored

theorem Anchored.restores (anchored : Anchored backend spec drift chain client) (same : domain.chain = chain) :
    restore backend spec domain client.snapshot drift = .ok client := by
  have complete : client.checkpoint.chain.isComplete = true := by
    have named := anchored.named
    simp only [validateChain,ensure_ok] at named
    exact named.2.2
  have domainOk : (validateDomain ⟨client.checkpoint.chain,client.checkpoint.boundary.programs⟩).isOk = true :=
    isOk_iff.mpr ⟨(),validate_domain_ok.mpr ⟨anchored.named,anchored.programs⟩⟩
  have back : checkedSub client.anchorExpiresAt spec.lightClient.weakSubjectivityPeriodSecs =
      some (client.anchorExpiresAt - spec.lightClient.weakSubjectivityPeriodSecs) :=
    checked_sub_some.mpr (by have := anchored.expiry.1; omega)
  have again : checkedAdd (client.anchorExpiresAt - spec.lightClient.weakSubjectivityPeriodSecs)
      spec.lightClient.weakSubjectivityPeriodSecs = some client.anchorExpiresAt :=
    checked_add_some.mpr ⟨by have := anchored.expiry.1; omega,anchored.expiry.2⟩
  have sameChain : client.snapshot.checkpoint.chain = domain.chain := anchored.chain.trans same.symm
  rw [restore,ensure_pos sameChain,ok_bind,snapshot,back,required_some,ok_bind,new,anchored.specValid]
  change (ensure _ _ >>= _) = _
  rw [ensure_pos ⟨anchored.genesis,anchored.bound,complete,anchored.formed,domainOk⟩,ok_bind,again,required_some,ok_bind]
  exact congrArg Except.ok anchored.policy.symm

-- After an advance: the earlier of endpoint time and clock, plus the period.
def Dated (client : LightClient Hash) (clock : Nat) : Prop := ∃ issued, issued ≤ clock ∧ client.anchorExpiresAt =
    min (client.genesisTime + client.checkpoint.boundary.slot * client.slotDurationSecs) issued + client.weakSubjectivityPeriodSecs

variable {clock : Nat}

theorem Dated.later (dated : Dated client clock) (later : clock ≤ other) : Dated client other := by
  obtain ⟨issued,early,expiry⟩ := dated
  exact ⟨issued,Nat.le_trans early later,expiry⟩

theorem Advance.dated (advance : Advance accepted before call after) : Dated after call.now := by
  obtain ⟨same,-,-⟩ := fresh_expiry_ok advance.fresh
  have result := advance.result
  generalize after.anchorExpiresAt = expiry at result same
  subst result
  exact ⟨call.now,Nat.le_refl _,same⟩

theorem Advance.extends_expiry (advance : Advance accepted before call after) (dated : Dated before clock) (later : clock ≤ call.now) :
    before.anchorExpiresAt ≤ after.anchorExpiresAt := by
  obtain ⟨issued,early,expiry⟩ := dated
  obtain ⟨same,-,-⟩ := fresh_expiry_ok advance.fresh
  have slots : before.checkpoint.boundary.slot * before.slotDurationSecs ≤ call.proof.statement.end_.slot * before.slotDurationSecs :=
    Nat.mul_le_mul_right _ (Nat.le_of_lt advance.moves.2)
  omega

include sound in
theorem run_from_dated (dated : Dated client clock) (ticks : (clock::calls.map (·.now)).Pairwise (· ≤ ·)) :
    client.anchorExpiresAt ≤ (client.run backend calls).anchorExpiresAt := by
  induction calls generalizing client clock with
  | nil => exact Nat.le_refl _
  | cons call rest ih =>
    obtain ⟨ahead,others⟩ := List.pairwise_cons.mp ticks
    have step : clock ≤ call.now := ahead _ (by simp)
    change _ ≤ ((client.accept backend call).1.run backend rest).anchorExpiresAt
    rcases accept_cases backend sound client call with ⟨-,advance⟩ | ⟨-,same⟩
    · exact Nat.le_trans (advance.extends_expiry dated step) (ih advance.dated others)
    · rw [same]
      exact ih (dated.later step) others

include sound in
theorem run_expiry (moved : advances backend client earlier ≠ []) (ticks : ((earlier ++ later).map (·.now)).Pairwise (· ≤ ·)) :
    (client.run backend earlier).anchorExpiresAt ≤ (client.run backend (earlier ++ later)).anchorExpiresAt := by
  -- The first advance dates the client; the calls after it are then compared.
  have onwards : ∀ (earlier : List (AcceptCall Hash Receipt)) (client : LightClient Hash) (clock : Nat), Dated client clock →
      (clock::(earlier ++ later).map (·.now)).Pairwise (· ≤ ·) →
      (client.run backend earlier).anchorExpiresAt ≤ (client.run backend (earlier ++ later)).anchorExpiresAt := by
    intro earlier
    induction earlier with
    | nil => exact fun client clock dated ticks => run_from_dated backend sound dated ticks
    | cons call rest ih =>
      intro client clock dated ticks
      obtain ⟨ahead,others⟩ := List.pairwise_cons.mp ticks
      change ((client.accept backend call).1.run backend rest).anchorExpiresAt ≤
        ((client.accept backend call).1.run backend (rest ++ later)).anchorExpiresAt
      rcases accept_cases backend sound client call with ⟨-,advance⟩ | ⟨-,same⟩
      · exact ih _ call.now advance.dated others
      · rw [same]
        exact ih _ call.now (dated.later (ahead _ (by simp))) others
  induction earlier generalizing client with
  | nil => exact absurd rfl moved
  | cons call rest ih =>
    change ((client.accept backend call).1.run backend rest).anchorExpiresAt ≤
      ((client.accept backend call).1.run backend (rest ++ later)).anchorExpiresAt
    rw [advances_cons] at moved
    rcases accept_cases backend sound client call with ⟨-,advance⟩ | ⟨refused,same⟩
    · exact onwards rest _ call.now advance.dated ticks
    · rw [if_neg refused,same] at moved
      rw [same]
      exact ih moved (List.pairwise_cons.mp ticks).2
end

-- Trust over any sequence of updates, and that a saved client comes back as it was.
theorem light_client_trust {accepted : HistoryStatement Hash → Prop}
    (sound : ∀ proof domain, backend.verifyHistory proof domain = true → accepted proof.statement)
    {spec : ChainSpec Hash Key} {trusted : Checkpoint Hash} {trustedAt drift : Nat} {client : LightClient Hash}
    (opened : new backend spec trusted trustedAt drift = .ok client) :
    (∀ calls, Linked accepted trusted.chain trusted.boundary (advances backend client calls)
      (client.run backend calls).checkpoint.boundary) ∧ (∀ calls call, ((client.run backend calls).accept backend call).2 ≠ .ok .advanced →
      ((client.run backend calls).accept backend call).1 = client.run backend calls) ∧
    (∀ calls call, (client.run backend calls).anchorExpiresAt ≤ call.now →
      ((client.run backend calls).accept backend call).2 ≠ .ok .advanced) ∧
    (∀ calls call, ((client.run backend calls).accept backend call).2 = .ok .advanced →
      call.now < ((client.run backend calls).accept backend call).1.anchorExpiresAt ∧
      ((client.run backend calls).accept backend call).1.anchorExpiresAt ≤ call.now + spec.lightClient.weakSubjectivityPeriodSecs) ∧
    (∀ earlier later, ((earlier ++ later).map (·.now)).Pairwise (· ≤ ·) → advances backend client earlier ≠ [] →
      (client.run backend earlier).anchorExpiresAt ≤ (client.run backend (earlier ++ later)).anchorExpiresAt) ∧
    (∀ calls domain, domain.chain = trusted.chain →
      restore backend spec domain (client.run backend calls).snapshot drift = .ok (client.run backend calls)) := by
  obtain ⟨anchored,same⟩ := new_anchored backend opened
  have later := fun calls => run_anchored backend sound anchored calls
  refine ⟨fun calls => ?_,fun calls call => accept_unchanged backend,fun calls call late advanced => ?_,
    fun calls call advanced => ?_,fun earlier later ticks moved => run_expiry backend sound moved ticks,
    fun calls domain chain => (later calls).restores backend chain⟩
  · have linked := run_linked backend sound client calls
    rwa [same] at linked
  · have advance := accept_advance backend sound advanced
    have early := advance.unexpired
    omega
  · have advance := accept_advance backend sound advanced
    have period : (client.run backend calls).weakSubjectivityPeriodSecs = spec.lightClient.weakSubjectivityPeriodSecs := by
      rw [(later calls).policy]
    exact ⟨advance.expiry.1,period ▸ advance.expiry.2⟩

def Derived (proven : ConsensusStatement Hash → Prop) (statement : HistoryStatement Hash) : Prop :=
  ∃ tree : Derivation Hash, tree.derive = .ok statement ∧ ∀ chunk ∈ tree.chunks, proven chunk

-- A client stands at the end of consecutive valid chunks that start at its anchor.
theorem client_follows_chunks {proven : ConsensusStatement Hash → Prop} {spec : ChainSpec Hash Key}
    (sound : ∀ proof domain, backend.verifyHistory proof domain = true → Derived proven proof.statement)
    (opened : new backend spec trusted trustedAt drift = .ok client) (calls : List (AcceptCall Hash Receipt)) :
    ∃ chunks, (∀ chunk ∈ chunks, ValidChunk proven trusted.chain chunk) ∧
      Leads trusted.boundary chunks (client.run backend calls).checkpoint.boundary := by
  have linked := run_linked backend sound client calls
  rw [(new_anchored backend opened).2] at linked
  generalize advances backend client calls = statements at linked
  generalize trusted.boundary = first at linked ⊢
  induction statements generalizing first with
  | nil => exact ⟨[],by simp,linked⟩
  | cons statement rest ih =>
    obtain ⟨same,rfl,⟨tree,derived,receipts⟩,-,-,later⟩ := linked
    obtain ⟨chunks,valid,leads⟩ := ih _ later
    have covered := derivation_covers derived receipts
    exact ⟨tree.chunks ++ chunks,List.forall_mem_append.mpr ⟨same ▸ covered.valid,valid⟩,covered.consecutive.append leads⟩
end LightClient

def sampleSpec : ChainSpec Nat Nat := {soloSpec with
  genesisGasLimit := 0
  consensus := {soloSpec.consensus with chunkSize := 4}
  slotBudgetPerChunk := 4
  initialValidators := [⟨0,0,1,false,0,maxU64,0⟩]}

def sampleBackend : LightClientBackend Nat Nat Unit where
  specHash := fun _ => 0
  checkpointHash := fun checkpoint => checkpoint.boundary.nextChunkId
  commitment := fun _ => 0
  emptyHistoryRoot := 0
  noParticipation := 0
  verifyHistory := fun proof _ => decide (proof.statement.chain = sampleBinding)

def sampleClient : LightClient Nat := ⟨⟨sampleBinding,sampleBoundary 0⟩,100,1,50,40,5,150⟩
def sampleCall (now : Nat) : AcceptCall Nat Unit := ⟨⟨⟨sampleBinding,sampleBoundary 0,sampleBoundary 2⟩,()⟩,2,now⟩
def sampleAccepted (statement : HistoryStatement Nat) : Prop := statement.chain = sampleBinding

theorem sample_client_advances : LightClient.new sampleBackend sampleSpec ⟨sampleBinding,sampleBoundary 0⟩ 100 5 = .ok sampleClient ∧
    LightClient.advances sampleBackend sampleClient [sampleCall 121,sampleCall 125] = [(sampleCall 121).proof.statement] ∧
    LightClient.restore sampleBackend sampleSpec ⟨sampleBinding,(sampleBoundary 2).programs⟩
      (sampleClient.run sampleBackend [sampleCall 121,sampleCall 125]).snapshot 5 =
        .ok (sampleClient.run sampleBackend [sampleCall 121,sampleCall 125]) := by
  have opened : LightClient.new sampleBackend sampleSpec ⟨sampleBinding,sampleBoundary 0⟩ 100 5 = .ok sampleClient := rfl
  have sound : ∀ proof domain, sampleBackend.verifyHistory proof domain = true → sampleAccepted proof.statement :=
    fun proof _ verified => (decide_eq_true_iff (p := proof.statement.chain = sampleBinding)).mp verified
  have trust := LightClient.light_client_trust sampleBackend sound opened
  exact ⟨opened,rfl,trust.2.2.2.2.2 _ _ rfl⟩

def derivedBackend : LightClientBackend Nat Nat Unit :=
  {sampleBackend with verifyHistory := fun proof _ => decide (proof.statement = ⟨sampleBinding,sampleBoundary 0,sampleBoundary 3⟩)}

theorem sample_client_follows : ∃ chunks, (∀ chunk ∈ chunks, ValidChunk (fun _ => True) sampleBinding chunk) ∧
    Leads (sampleBoundary 0) chunks (sampleBoundary 3) :=
  LightClient.client_follows_chunks derivedBackend
    (fun _ _ verified => ⟨samplePairThenOne,by rw [of_decide_eq_true verified]; rfl,fun _ _ => trivial⟩)
    (show LightClient.new derivedBackend sampleSpec ⟨sampleBinding,sampleBoundary 0⟩ 100 5 = .ok sampleClient from rfl)
    [⟨⟨⟨sampleBinding,sampleBoundary 0,sampleBoundary 3⟩,()⟩,3,131⟩]
end Neutrino.Chain
