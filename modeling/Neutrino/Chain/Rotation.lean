import Neutrino.Library.Bisection
import Neutrino.Chain.Checkpoint

-- Activation, exit and retirement at a chunk boundary, and runtime stake projected
-- onto consensus weight (prover-chunk, rotation.rs).
namespace Neutrino.Chain
open Checks Consensus Bisection

structure BlsIdentity (Key Sig : Type) where
  pubkey : Key
  popSignature : Sig
deriving DecidableEq

structure ConsensusCandidate (Hash Key Sig : Type) where
  address : Hash
  stake : Fin (2^128)
  identity : Option (BlsIdentity Key Sig)
deriving DecidableEq

-- Sorted by address, so the binary search finds an address's only entry.
structure ConsensusCandidates (Hash Key Sig : Type) where
  entries : List (ConsensusCandidate Hash Key Sig)
  distinct : (entries.map (·.address)).Nodup

inductive RotationError where
  | stateRoot
  | witness
  | codec
  | epoch
  | stake
deriving DecidableEq

def historyRetentionChunks : Nat := 8
def saturatingAdd (left right : Nat) : Nat := min (left + right) maxU64

def retirementDelayChunks (params : ConsensusConstants) (unbondingDelayBlocks : Nat) : Option Nat := do
  let last ← checkedSub params.chunkSize 1
  let rounded ← checkedAdd unbondingDelayBlocks last
  checkedAdd (max (rounded / params.chunkSize) historyRetentionChunks) 1

-- Zero once the shift reaches the width of u128, nothing when it exceeds u64.
def shiftedWeight (stake shift : Nat) : Option Nat :=
  let shifted := if shift < 128 then stake >>> shift else 0
  if shifted < 2^64 then some shifted else none

def fitsWithin (shift : Nat) : Nat → List Nat → Bool
  | _,[] => true
  | room,stake::rest =>
    match shiftedWeight stake shift with
    | some weight => if weight ≤ room then fitsWithin shift (room - weight) rest else false
    | none => false

def weightShift (stakes : List Nat) (budget : Nat) : Nat :=
  if fitsWithin 0 budget stakes then 0 else bisect (fitsWithin · budget stakes) 127 1 128

section
variable {Hash Key Sig : Type} [DecidableEq Hash] [DecidableEq Key]

section
variable (candidates : ConsensusCandidates Hash Key Sig) (address : Hash)

def ConsensusCandidates.get : Option (ConsensusCandidate Hash Key Sig) := candidates.entries.find? (·.address = address)
def ConsensusCandidates.contains : Bool := (candidates.get address).isSome
def ConsensusCandidates.stakeFor : Option Nat := (candidates.get address).map (·.stake.val)
end

-- What a boundary is entered with: the next chunk, its epoch and the delay.
structure Boundary where
  nextChunk : Nat
  epoch : Nat
  retirementDelay : Nat

def retired (validator : Validator Hash Key) (candidates : ConsensusCandidates Hash Key Sig) (params : ConsensusConstants)
    (boundary : Boundary) : Bool :=
  if validator.slashed ∨ validator.exitEpoch = maxU64 ∨ candidates.contains validator.withdrawalCredentials then false
  else ((checkedMul validator.exitEpoch params.epochLengthInChunks).bind (checkedAdd · boundary.retirementDelay)).any
    (· ≤ boundary.nextChunk)

-- A seat and the stake its weight is projected from; none keeps the weight.
abbrev Seat (Hash Key : Type) := Validator Hash Key × Option Nat

-- An entry, even at zero, proves the runtime knows the validator.
def registered (validator : Validator Hash Key) (candidates : ConsensusCandidates Hash Key Sig) : Bool :=
  decide (0 < validator.activationEpoch) || candidates.contains validator.withdrawalCredentials

def exitEpochAfter (validator : Validator Hash Key) (candidates : ConsensusCandidates Hash Key Sig)
    (params : ConsensusConstants) (boundary : Boundary) : Nat :=
  if registered validator candidates ∧ validator.exitEpoch = maxU64 ∧ (candidates.stakeFor validator.withdrawalCredentials).getD 0 = 0 then
    saturatingAdd boundary.epoch params.exitDelayEpochs
  else validator.exitEpoch

def idle (validator : Validator Hash Key) (exitEpoch epoch : Nat) : Bool :=
  validator.slashed || decide (epoch < validator.activationEpoch) || decide (exitEpoch ≤ epoch)

section
variable (candidates : ConsensusCandidates Hash Key Sig) (params : ConsensusConstants) (boundary : Boundary)

def updatedSeat (validator : Validator Hash Key) : Seat Hash Key :=
  let exitEpoch := exitEpochAfter validator candidates params boundary
  let stopped := idle validator exitEpoch boundary.epoch
  ({validator with
    exitEpoch, effectiveStake := if stopped then 0 else validator.effectiveStake, lastActiveChunk := boundary.nextChunk},
    if stopped then none
    else if registered validator candidates then some ((candidates.stakeFor validator.withdrawalCredentials).getD 0)
    else none)

def carry (validator : Validator Hash Key) : Option (Seat Hash Key) :=
  let seat := updatedSeat candidates params boundary validator
  if retired seat.1 candidates params boundary then none else some seat

def newSeat (address : Hash) (pubkey : Key) : Seat Hash Key :=
  let activationEpoch := saturatingAdd boundary.epoch params.activationDelayEpochs
  (⟨pubkey,address,0,false,activationEpoch,maxU64,boundary.nextChunk⟩,
    if activationEpoch ≤ boundary.epoch then some ((candidates.stakeFor address).getD 0) else none)
end
variable (popValid : Key → Hash → Sig → Bool)

def seatCandidates (candidates : ConsensusCandidates Hash Key Sig) (params : ConsensusConstants) (boundary : Boundary) :
    List (Seat Hash Key) → List (ConsensusCandidate Hash Key Sig) → List (Seat Hash Key)
  | seats,[] => seats
  | seats,candidate::rest =>
    match candidate.identity with
    | none => seatCandidates candidates params boundary seats rest
    | some identity =>
      if seats.any (·.1.withdrawalCredentials = candidate.address) ∨ seats.any (·.1.pubkey = identity.pubkey) ∨
          popValid identity.pubkey candidate.address identity.popSignature = false then
        seatCandidates candidates params boundary seats rest
      else
        seatCandidates candidates params boundary (seats ++ [newSeat candidates params boundary candidate.address identity.pubkey]) rest

def keptWeights : Nat → List (Seat Hash Key) → Except RotationError Nat
  | kept,[] => .ok kept
  | kept,(validator,none)::rest => do
    let sum ← required (checkedAdd kept validator.effectiveStake) .stake
    keptWeights sum rest
  | kept,(_,some _)::rest => keptWeights kept rest

def projectSeat (shift : Nat) : Seat Hash Key → Except RotationError (Validator Hash Key)
  | (validator,none) => .ok validator
  | (validator,some stake) => do
    let effectiveStake ← required (shiftedWeight stake shift) .stake
    pure {validator with effectiveStake}

def projectWeights (seats : List (Seat Hash Key)) : Except RotationError (List (Validator Hash Key)) := do
  let kept ← keptWeights 0 seats
  seats.mapM (projectSeat (weightShift (seats.filterMap (·.2)) (maxU64 - kept)))

def enterBoundary (params : ConsensusConstants) (unbondingDelayBlocks chunkId : Nat) : Except RotationError Boundary := do
  let nextChunk ← required (checkedAdd chunkId 1) .epoch
  ensure (params.epochLengthInChunks ≠ 0) .epoch
  let retirementDelay ← required (retirementDelayChunks params unbondingDelayBlocks) .epoch
  pure ⟨nextChunk,nextChunk / params.epochLengthInChunks,retirementDelay⟩

variable (previous : List (Validator Hash Key)) (candidates : ConsensusCandidates Hash Key Sig)
variable (params : ConsensusConstants)

def nextSeats (boundary : Boundary) : List (Seat Hash Key) :=
  seatCandidates popValid candidates params boundary (previous.filterMap (carry candidates params boundary)) candidates.entries

def deriveNextValidators (unbondingDelayBlocks chunkId : Nat) : Except RotationError (List (Validator Hash Key)) := do
  let boundary ← enterBoundary params unbondingDelayBlocks chunkId
  projectWeights (nextSeats popValid previous candidates params boundary)
end
section
theorem shifted_weight_some (bounded : stake < 2^128) :
    shiftedWeight stake shift = some weight ↔ stake >>> shift = weight ∧ weight < 2^64 := by
  have vanishes : (if shift < 128 then stake >>> shift else 0) = stake >>> shift := by
    split
    · rfl
    · rename_i wide
      rw [Nat.shiftRight_eq_div_pow,Nat.div_eq_of_lt (Nat.lt_of_lt_of_le bounded (Nat.pow_le_pow_right (by omega) (by omega)))]
  simp only [shiftedWeight,vanishes]
  split
  · rename_i small
    simp only [Option.some.injEq]
    exact ⟨fun same => ⟨same,same ▸ small⟩,fun facts => facts.1⟩
  · rename_i large
    simp only [reduceCtorEq,false_iff]
    rintro ⟨rfl,small⟩
    exact large small

def shiftedTotal (stakes : List Nat) (shift : Nat) : Nat := (stakes.map (· >>> shift)).sum

variable {stakes : List Nat}

theorem shifted_total_mono (ordered : small ≤ large) : shiftedTotal stakes large ≤ shiftedTotal stakes small := by
  induction stakes with
  | nil => exact Nat.le_refl _
  | cons stake rest ih =>
    have first : stake >>> large ≤ stake >>> small := by
      rw [Nat.shiftRight_eq_div_pow,Nat.shiftRight_eq_div_pow]
      exact Nat.div_le_div_left (Nat.pow_le_pow_right (by omega) ordered) (Nat.two_pow_pos _)
    simp only [shiftedTotal,List.map_cons,List.sum_cons] at ih ⊢
    omega

theorem fits_within_iff (bounded : ∀ stake ∈ stakes, stake < 2^128)
    (narrow : room < 2^64) (shift : Nat) : fitsWithin shift room stakes = true ↔ shiftedTotal stakes shift ≤ room := by
  induction stakes generalizing room with
  | nil => simp [fitsWithin,shiftedTotal]
  | cons stake rest ih =>
    have total : shiftedTotal (stake::rest) shift = stake >>> shift + shiftedTotal rest shift := by
      simp [shiftedTotal]
    rw [fitsWithin,total]
    cases weighed : shiftedWeight stake shift with
    | none =>
      have wide : ¬stake >>> shift < 2^64 := fun small => by
        rw [(shifted_weight_some (bounded stake (by simp))).mpr ⟨rfl,small⟩] at weighed
        exact nomatch weighed
      simp only [Bool.false_eq_true,false_iff]
      omega
    | some weight =>
      obtain ⟨rfl,-⟩ := (shifted_weight_some (bounded stake (by simp))).mp weighed
      simp only
      split
      · have left : room - stake >>> shift < 2^64 := Nat.lt_of_le_of_lt (Nat.sub_le _ _) narrow
        rw [ih (fun other listed => bounded other (by simp [listed])) left]
        omega
      · simp only [Bool.false_eq_true,false_iff]
        omega

theorem weight_shift_least (bounded : ∀ stake ∈ stakes, stake < 2^128)
    (narrow : budget < 2^64) : Least (fitsWithin · budget stakes) (weightShift stakes budget) := by
  have decided : ∀ shift, fitsWithin shift budget stakes = true ↔ shiftedTotal stakes shift ≤ budget := fits_within_iff bounded narrow
  unfold weightShift
  split
  · rename_i whole
    exact ⟨whole,fun _ less => absurd less (Nat.not_lt_zero _)⟩
  · rename_i refused
    refine bisect_least (fun small large ordered taken => ?_) (by omega) (by omega) ?_ fun smaller less => ?_
    · rw [decided] at taken ⊢
      exact Nat.le_trans (shifted_total_mono ordered) taken
    · -- At the full width every stake is shifted out.
      rw [decided]
      have gone : shiftedTotal stakes 128 = 0 := by
        refine List.sum_eq_zero fun weight listed => ?_
        obtain ⟨stake,backing,rfl⟩ := List.mem_map.mp listed
        rw [Nat.shiftRight_eq_div_pow,Nat.div_eq_of_lt (bounded stake backing)]
      omega
    · have first : smaller = 0 := by omega
      subst first
      simpa using refused
end
section
variable {Hash Key Sig : Type} [DecidableEq Hash] [DecidableEq Key] {popValid : Key → Hash → Sig → Bool}
variable {candidates : ConsensusCandidates Hash Key Sig}

theorem contains_of_listed (listed : candidate ∈ candidates.entries) : candidates.contains candidate.address = true := by
  rw [ConsensusCandidates.contains,ConsensusCandidates.get,List.find?_isSome]
  exact ⟨candidate,listed,by simp⟩

theorem seat_candidates_induct (holds : List (Seat Hash Key) → Prop)
    (seated : ∀ seats candidate identity, candidate ∈ candidates.entries → candidate.identity = some identity →
      (∀ seat ∈ seats, seat.1.withdrawalCredentials ≠ candidate.address) → (∀ seat ∈ seats, seat.1.pubkey ≠ identity.pubkey) → holds seats →
      holds (seats ++ [newSeat candidates params boundary candidate.address identity.pubkey]))
        (listed : ∀ candidate ∈ pending, candidate ∈ candidates.entries) (initial : holds seats) :
    holds (seatCandidates popValid candidates params boundary seats pending) := by
  induction pending generalizing seats with
  | nil => exact initial
  | cons candidate rest ih =>
    have later := fun other member => listed other (List.mem_cons_of_mem _ member)
    rw [seatCandidates]
    split
    · exact ih later initial
    · rename_i identity known
      split
      · exact ih later initial
      · rename_i free
        simp only [List.any_eq_true,decide_eq_true_eq,not_or,not_exists,not_and] at free
        exact ih later (seated seats candidate identity (listed candidate (by simp)) known free.1 free.2.1 initial)

theorem next_seats_induct (holds : List (Seat Hash Key) → Prop) (carried : holds (previous.filterMap (carry candidates params boundary)))
    (seated : ∀ seats candidate identity, candidate ∈ candidates.entries → candidate.identity = some identity →
      (∀ seat ∈ seats, seat.1.withdrawalCredentials ≠ candidate.address) → (∀ seat ∈ seats, seat.1.pubkey ≠ identity.pubkey) → holds seats →
      holds (seats ++ [newSeat candidates params boundary candidate.address identity.pubkey])) :
    holds (nextSeats popValid previous candidates params boundary) :=
  seat_candidates_induct holds seated (fun _ listed => listed) carried

theorem carry_some : carry candidates params boundary validator = some seat ↔
      retired (updatedSeat candidates params boundary validator).1 candidates params boundary = false ∧
        seat = updatedSeat candidates params boundary validator := by
  simp only [carry]
  split
  · rename_i gone
    simp [gone]
  · rename_i stays
    simp [stays,eq_comm]

theorem carry_none (dropped : carry candidates params boundary validator = none) :
    validator.slashed = false ∧ candidates.contains validator.withdrawalCredentials = false ∧
    exitEpochAfter validator candidates params boundary ≠ maxU64 ∧
    exitEpochAfter validator candidates params boundary * params.epochLengthInChunks + boundary.retirementDelay ≤ boundary.nextChunk := by
  simp only [carry] at dropped
  split at dropped
  · rename_i gone
    rw [retired] at gone
    split at gone
    · cases gone
    · rename_i live
      simp only [not_or,Bool.not_eq_true] at live
      simp only [Option.any_eq_true,Option.bind_eq_some_iff,checked_mul_some,checked_add_some,decide_eq_true_eq] at gone
      obtain ⟨_,⟨_,⟨rfl,-⟩,⟨rfl,-⟩⟩,due⟩ := gone
      exact ⟨live.1,live.2.2,live.2.1,due⟩
  · cases dropped
end
section
variable {Hash Key Sig : Type} [DecidableEq Hash] [DecidableEq Key] {popValid : Key → Hash → Sig → Bool}
variable (previous : List (Validator Hash Key)) (candidates : ConsensusCandidates Hash Key Sig)

def runtimeStake (validator : Validator Hash Key) : Nat := (candidates.stakeFor validator.withdrawalCredentials).getD 0

def isFresh (validator : Validator Hash Key) : Bool := previous.all fun seat =>
    !(decide (seat.pubkey = validator.pubkey) && decide (seat.withdrawalCredentials = validator.withdrawalCredentials))

-- A seat created here has no exit to have reached, not even in the last epoch.
def isBacked (epoch : Nat) (validator : Validator Hash Key) : Bool :=
  registered validator candidates && !validator.slashed && decide (validator.activationEpoch ≤ epoch) &&
    (decide (epoch < validator.exitEpoch) || isFresh previous validator)

def isKept (epoch : Nat) (validator : Validator Hash Key) : Bool :=
  !idle validator validator.exitEpoch epoch && !registered validator candidates

def keptTotal (epoch : Nat) : Nat := ((previous.filter (isKept candidates epoch)).map (·.effectiveStake)).sum

def backedStakes (epoch : Nat) (next : List (Validator Hash Key)) : List Nat :=
  (next.filter (isBacked previous candidates epoch)).map (runtimeStake candidates)

variable {previous candidates}

theorem runtime_stake_lt (validator : Validator Hash Key) : runtimeStake candidates validator < 2^128 := by
  rw [runtimeStake,ConsensusCandidates.stakeFor]
  cases candidates.get validator.withdrawalCredentials with
  | none => exact Nat.two_pow_pos _
  | some entry => exact entry.stake.isLt

def Placed (previous : List (Validator Hash Key)) (candidates : ConsensusCandidates Hash Key Sig) (epoch : Nat)
    (seat : Seat Hash Key) : Prop :=
  seat.2 = if isBacked previous candidates epoch seat.1 then some (runtimeStake candidates seat.1) else none

theorem updated_placed (listed : validator ∈ previous) :
    Placed previous candidates boundary.epoch (updatedSeat candidates params boundary validator) := by
  have seated : isFresh previous (updatedSeat candidates params boundary validator).1 = false := by
    rw [isFresh,List.all_eq_false]
    exact ⟨validator,listed,by simp [updatedSeat]⟩
  have backing : isBacked previous candidates boundary.epoch (updatedSeat candidates params boundary validator).1 =
      (!idle validator (exitEpochAfter validator candidates params boundary) boundary.epoch && registered validator candidates) := by
    rw [isBacked,seated,Bool.eq_iff_iff]
    simp only [updatedSeat,registered,idle,Bool.and_eq_true,Bool.or_eq_true,Bool.not_eq_true',Bool.or_eq_false_iff,
      decide_eq_true_eq,decide_eq_false_iff_not,Nat.not_lt,Nat.not_le,Bool.false_eq_true,or_false]
    tauto
  rw [Placed,backing]
  by_cases stopped : idle validator (exitEpochAfter validator candidates params boundary) boundary.epoch = true
  · simp [updatedSeat,stopped]
  · simp [updatedSeat,stopped,runtimeStake]

theorem new_placed (known : candidates.contains address = true)
    (fresh : ∀ validator ∈ previous, validator.withdrawalCredentials = address → validator.pubkey ≠ pubkey) :
    Placed previous candidates boundary.epoch (newSeat candidates params boundary address pubkey) := by
  have unseated : isFresh previous (newSeat candidates params boundary address pubkey).1 = true := by
    rw [isFresh,List.all_eq_true]
    intro validator listed
    have apart := fresh validator listed
    simp only [newSeat]
    grind
  have backing : isBacked previous candidates boundary.epoch (newSeat candidates params boundary address pubkey).1 = true ↔
      saturatingAdd boundary.epoch params.activationDelayEpochs ≤ boundary.epoch := by
    have entered : registered (newSeat candidates params boundary address pubkey).1 candidates = true := by
      simp [registered,newSeat,known]
    rw [isBacked,unseated,entered,Bool.or_true,Bool.and_true,Bool.true_and,Bool.and_eq_true,decide_eq_true_eq]
    exact and_iff_right rfl
  by_cases active : saturatingAdd boundary.epoch params.activationDelayEpochs ≤ boundary.epoch
  · rw [Placed,if_pos (backing.mpr active)]
    simp [newSeat,active,runtimeStake]
  · rw [Placed,if_neg (mt backing.mp active)]
    simp [newSeat,active]

-- Carried over, or created for an identity the previous set does not seat there.
inductive Origin (previous : List (Validator Hash Key)) (candidates : ConsensusCandidates Hash Key Sig)
    (params : ConsensusConstants) (boundary : Boundary) (seat : Seat Hash Key) : Prop where
  | carried (validator : Validator Hash Key) (member : validator ∈ previous)
      (kept : carry candidates params boundary validator = some seat)
  | created (address : Hash) (pubkey : Key) (entry : candidates.contains address = true)
      (new : seat = newSeat candidates params boundary address pubkey)
      (fresh : ∀ validator ∈ previous, validator.withdrawalCredentials = address → validator.pubkey ≠ pubkey)

theorem next_seats_origin (popValid : Key → Hash → Sig → Bool) : ∀ seat ∈ nextSeats popValid previous candidates params boundary,
      Origin previous candidates params boundary seat := by
  refine (next_seats_induct (fun seats => (∀ seat ∈ seats, Origin previous candidates params boundary seat) ∧
    ∀ validator ∈ previous, candidates.contains validator.withdrawalCredentials = true →
      ∃ seat ∈ seats, seat.1.pubkey = validator.pubkey) ⟨?_,?_⟩ ?_).1
  · intro seat listed
    obtain ⟨validator,member,kept⟩ := List.mem_filterMap.mp listed
    exact .carried validator member kept
  · intro validator member entry
    cases carried : carry candidates params boundary validator with
    | none =>
      have missing := (carry_none carried).2.1
      rw [entry] at missing
      exact nomatch missing
    | some seat =>
      refine ⟨seat,List.mem_filterMap.mpr ⟨validator,member,carried⟩,?_⟩
      rw [(carry_some.mp carried).2]
      rfl
  · intro seats candidate identity listed named freeAddress freeKey holds
    have entry := contains_of_listed listed
    refine ⟨fun seat member => ?_,fun validator member known => ?_⟩
    · rcases List.mem_append.mp member with old | new
      · exact holds.1 seat old
      · refine .created candidate.address identity.pubkey entry (List.mem_singleton.mp new) fun validator seated same clash => ?_
        obtain ⟨other,found,key⟩ := holds.2 validator seated (same ▸ entry)
        exact freeKey other found (key.trans clash)
    · obtain ⟨seat,found,key⟩ := holds.2 validator member known
      exact ⟨seat,List.mem_append_left _ found,key⟩

theorem next_seats_placed (popValid : Key → Hash → Sig → Bool) :
    ∀ seat ∈ nextSeats popValid previous candidates params boundary, Placed previous candidates boundary.epoch seat := by
  intro seat listed
  cases next_seats_origin popValid seat listed with
  | carried validator member kept =>
    rw [(carry_some.mp kept).2]
    exact updated_placed member
  | created address pubkey entry new fresh =>
    rw [new]
    exact new_placed entry fresh

theorem carried_listed (popValid : Key → Hash → Sig → Bool)
    (member : validator ∈ previous) (carried : carry candidates params boundary validator = some seat) :
    seat ∈ nextSeats popValid previous candidates params boundary :=
  next_seats_induct (seat ∈ ·) (List.mem_filterMap.mpr ⟨validator,member,carried⟩) fun _ _ _ _ _ _ _ => List.mem_append_left _

def keptSum (seats : List (Seat Hash Key)) : Nat := ((seats.filter (·.2.isNone)).map (·.1.effectiveStake)).sum

theorem kept_sum_append (left right : List (Seat Hash Key)) : keptSum (left ++ right) = keptSum left + keptSum right := by
  simp [keptSum]

theorem kept_sum_new (address : Hash) (pubkey : Key) : keptSum [newSeat candidates params boundary address pubkey] = 0 := by
  simp only [keptSum,List.filter_cons,List.filter_nil]
  split <;> rfl

theorem kept_sum_carry (candidates : ConsensusCandidates Hash Key Sig) (sound : boundary.epoch = boundary.nextChunk / params.epochLengthInChunks)
    (positive : params.epochLengthInChunks ≠ 0) (validator : Validator Hash Key) :
    keptSum (carry candidates params boundary validator).toList =
      if isKept candidates boundary.epoch validator then validator.effectiveStake else 0 := by
  have unregistered : registered validator candidates = false →
      exitEpochAfter validator candidates params boundary = validator.exitEpoch := by
    intro unknown
    simp [exitEpochAfter,unknown]
  cases carried : carry candidates params boundary validator with
  | none =>
    obtain ⟨-,-,-,due⟩ := carry_none carried
    split
    · rename_i kept
      simp only [isKept,idle,Bool.and_eq_true,Bool.not_eq_true',Bool.or_eq_false_iff,decide_eq_false_iff_not] at kept
      rw [unregistered kept.2] at due
      have active : boundary.nextChunk / params.epochLengthInChunks < validator.exitEpoch := by omega
      rw [Nat.div_lt_iff_lt_mul (Nat.pos_of_ne_zero positive)] at active
      omega
    · rfl
  | some seat =>
    rw [(carry_some.mp carried).2]
    by_cases known : registered validator candidates = true
    · by_cases stopped : idle validator (exitEpochAfter validator candidates params boundary) boundary.epoch = true
      · simp [keptSum,updatedSeat,isKept,known,stopped]
      · simp [keptSum,updatedSeat,isKept,known,stopped]
    · have same := unregistered (by simpa using known)
      by_cases stopped : idle validator validator.exitEpoch boundary.epoch = true
      · simp [keptSum,updatedSeat,isKept,known,stopped,same]
      · simp [keptSum,updatedSeat,isKept,known,stopped,same]

theorem kept_sum_next (popValid : Key → Hash → Sig → Bool) (sound : boundary.epoch = boundary.nextChunk / params.epochLengthInChunks)
    (positive : params.epochLengthInChunks ≠ 0) :
    keptSum (nextSeats popValid previous candidates params boundary) = keptTotal previous candidates boundary.epoch := by
  refine next_seats_induct (fun seats => keptSum seats = keptTotal previous candidates boundary.epoch) ?_ ?_
  · induction previous with
    | nil => rfl
    | cons validator rest ih =>
      have first := kept_sum_carry candidates sound positive validator
      have split : (validator::rest).filterMap (carry candidates params boundary) =
          (carry candidates params boundary validator).toList ++ rest.filterMap (carry candidates params boundary) := by
        cases carried : carry candidates params boundary validator <;> simp [carried]
      rw [split,kept_sum_append,first,ih]
      simp only [keptTotal,List.filter_cons]
      split <;> simp
  · intro seats candidate identity _ _ _ _ holds
    rw [kept_sum_append,kept_sum_new,holds]
    rfl

theorem kept_weights_eq (seats : List (Seat Hash Key)) (fits : kept < 2^64) : keptWeights kept seats =
      if kept + keptSum seats < 2^64 then .ok (kept + keptSum seats) else .error .stake := by
  induction seats generalizing kept with
  | nil => exact (if_pos fits).symm
  | cons seat rest ih =>
    obtain ⟨validator,stake⟩ := seat
    cases stake with
    | some stake =>
      have skipped : keptSum ((validator,some stake)::rest) = keptSum rest := by simp [keptSum]
      rw [keptWeights,skipped,ih fits]
    | none =>
      have counted : keptSum ((validator,none)::rest) = validator.effectiveStake + keptSum rest := by simp [keptSum]
      rw [keptWeights,counted,← Nat.add_assoc]
      by_cases small : kept + validator.effectiveStake < 2^64
      · rw [checked_add_some.mpr ⟨rfl,small⟩,required_some,ok_bind,ih small]
      · have refused : checkedAdd kept validator.effectiveStake = none := by
          cases sum : checkedAdd kept validator.effectiveStake with
          | none => rfl
          | some total =>
            obtain ⟨rfl,less⟩ := checked_add_some.mp sum
            exact absurd less small
        rw [refused,if_neg (by omega)]
        rfl

def projected (shift : Nat) (seat : Seat Hash Key) : Validator Hash Key :=
  match seat.2 with
  | none => seat.1
  | some stake => {seat.1 with effectiveStake := stake >>> shift}

variable {seats : List (Seat Hash Key)} {shift : Nat}

theorem project_seats (bounded : ∀ stake ∈ seats.filterMap (·.2), stake < 2^128)
    (fits : shiftedTotal (seats.filterMap (·.2)) shift < 2^64) :
    seats.mapM (projectSeat shift) = (.ok (seats.map (projected shift)) : Except RotationError _) := by
  induction seats with
  | nil => rfl
  | cons seat rest ih =>
    obtain ⟨validator,stake⟩ := seat
    rw [List.mapM_cons]
    cases stake with
    | none =>
      rw [projectSeat,ok_bind,ih (by simpa using bounded) (by simpa using fits)]
      rfl
    | some stake =>
      have listed : ((validator,some stake)::rest).filterMap (·.2) = stake::rest.filterMap (·.2) := rfl
      rw [listed] at bounded fits
      simp only [shiftedTotal,List.map_cons,List.sum_cons] at fits
      have weighed : shiftedWeight stake shift = some (stake >>> shift) :=
        (shifted_weight_some (bounded stake (by simp))).mpr ⟨rfl,Nat.lt_of_le_of_lt (Nat.le_add_right _ _) fits⟩
      have tail := ih (fun other member => bounded other (by simp [member])) (Nat.lt_of_le_of_lt (Nat.le_add_left _ _) fits)
      rw [projectSeat,weighed,required_some,ok_bind,tail]
      rfl

theorem projected_total : ((seats.map (projected shift)).map (·.effectiveStake)).sum =
      keptSum seats + shiftedTotal (seats.filterMap (·.2)) shift := by
  induction seats with
  | nil => rfl
  | cons seat rest ih =>
    obtain ⟨validator,stake⟩ := seat
    cases stake with
    | none =>
      simp only [List.map_cons,List.sum_cons,ih]
      simp [projected,keptSum,Nat.add_assoc]
    | some stake =>
      simp only [List.map_cons,List.sum_cons,ih]
      simp [projected,keptSum,shiftedTotal,Nat.add_left_comm]

theorem projected_backing (previous : List (Validator Hash Key)) (candidates : ConsensusCandidates Hash Key Sig)
    (epoch shift : Nat) (seat : Seat Hash Key) :
    isBacked previous candidates epoch (projected shift seat) = isBacked previous candidates epoch seat.1 ∧
    runtimeStake candidates (projected shift seat) = runtimeStake candidates seat.1 := by
  obtain ⟨validator,stake⟩ := seat
  cases stake <;> exact ⟨rfl,rfl⟩

variable {epoch : Nat}

theorem backed_stakes_projected (placed : ∀ seat ∈ seats, Placed previous candidates epoch seat) (shift : Nat) :
    backedStakes previous candidates epoch (seats.map (projected shift)) = seats.filterMap (·.2) := by
  induction seats with
  | nil => rfl
  | cons seat rest ih =>
    have first := placed seat (by simp)
    have tail := ih fun other listed => placed other (by simp [listed])
    obtain ⟨backing,stake⟩ := projected_backing previous candidates epoch shift seat
    simp only [backedStakes,List.map_cons,List.filter_cons,backing] at tail ⊢
    rw [Placed] at first
    cases backed : isBacked previous candidates epoch seat.1 with
    | false =>
      rw [backed] at first
      rw [List.filterMap_cons_none (by simpa using first)]
      simpa using tail
    | true =>
      rw [backed] at first
      rw [List.filterMap_cons_some (by simpa using first)]
      simpa [stake] using tail

theorem projected_weight (placed : ∀ seat ∈ seats, Placed previous candidates epoch seat) :
    ∀ validator ∈ seats.map (projected shift), isBacked previous candidates epoch validator = true →
      validator.effectiveStake = runtimeStake candidates validator >>> shift := by
  intro validator listed backed
  obtain ⟨seat,member,rfl⟩ := List.mem_map.mp listed
  obtain ⟨backing,stake⟩ := projected_backing previous candidates epoch shift seat
  have behind := placed seat member
  rw [backing] at backed
  rw [Placed,if_pos backed] at behind
  rw [stake]
  simp [projected,behind]

def BadEpoch (params : ConsensusConstants) (unbondingDelayBlocks chunkId : Nat) : Prop :=
  maxU64 < chunkId + 1 ∨ params.epochLengthInChunks = 0 ∨ retirementDelayChunks params unbondingDelayBlocks = none

variable {unbondingDelayBlocks chunkId : Nat}

theorem enter_boundary_ok : enterBoundary params unbondingDelayBlocks chunkId = .ok boundary ↔
      chunkId + 1 ≤ maxU64 ∧ params.epochLengthInChunks ≠ 0 ∧
      retirementDelayChunks params unbondingDelayBlocks = some boundary.retirementDelay ∧
      boundary.nextChunk = chunkId + 1 ∧ boundary.epoch = (chunkId + 1) / params.epochLengthInChunks := by
  simp only [enterBoundary,bind_ok,required_ok,ensure_ok,pure_ok,checked_add_some]
  constructor
  · rintro ⟨_,⟨rfl,small⟩,_,positive,delay,known,rfl⟩
    exact ⟨by rw [maxU64]; omega,positive,known,rfl,rfl⟩
  · rintro ⟨small,positive,known,chunk,epoch⟩
    refine ⟨_,⟨rfl,by rw [maxU64] at small; omega⟩,(),positive,_,known,?_⟩
    rw [← chunk] at epoch ⊢
    rw [← epoch]

theorem enter_boundary_error (failed : enterBoundary params unbondingDelayBlocks chunkId = .error error) :
    error = .epoch ∧ BadEpoch params unbondingDelayBlocks chunkId := by
  have only : error = .epoch := by
    simp only [enterBoundary,required,ensure] at failed
    revert failed
    cases checkedAdd chunkId 1 <;> cases retirementDelayChunks params unbondingDelayBlocks <;>
      by_cases zero : params.epochLengthInChunks = 0 <;> simp [zero,bind,Except.bind,pure,Except.pure,eq_comm]
  refine ⟨only,?_⟩
  by_contra good
  simp only [BadEpoch,not_or,Nat.not_lt,← ne_eq,Option.ne_none_iff_exists'] at good
  obtain ⟨small,positive,delay,known⟩ := good
  have entered : enterBoundary params unbondingDelayBlocks chunkId = .ok ⟨chunkId + 1,(chunkId + 1) / params.epochLengthInChunks,delay⟩ :=
    enter_boundary_ok.mpr ⟨small,positive,known,rfl,rfl⟩
  rw [entered] at failed
  cases failed

-- One shift gives all derived weights, the least that fits beside the kept ones.
structure SharedShift (previous : List (Validator Hash Key)) (candidates : ConsensusCandidates Hash Key Sig) (epoch : Nat)
    (next : List (Validator Hash Key)) (shift : Nat) : Prop where
  weights : ∀ validator ∈ next, isBacked previous candidates epoch validator = true →
    validator.effectiveStake = runtimeStake candidates validator >>> shift
  total : (next.map (·.effectiveStake)).sum =
    keptTotal previous candidates epoch + shiftedTotal (backedStakes previous candidates epoch next) shift
  fits : keptTotal previous candidates epoch + shiftedTotal (backedStakes previous candidates epoch next) shift ≤ maxU64
  minimal : ∀ smaller, smaller < shift →
    maxU64 < keptTotal previous candidates epoch + shiftedTotal (backedStakes previous candidates epoch next) smaller

theorem project_weights_spec (placed : ∀ seat ∈ seats, Placed previous candidates epoch seat)
    (kept : keptSum seats = keptTotal previous candidates epoch) :
    (∀ error, projectWeights seats = .error error → error = .stake ∧ maxU64 < keptTotal previous candidates epoch) ∧
    (∀ next, projectWeights seats = .ok next →
      ∃ shift, next = seats.map (projected shift) ∧ SharedShift previous candidates epoch next shift) := by
  have counted := kept_weights_eq seats (Nat.two_pow_pos 64)
  rw [Nat.zero_add,kept] at counted
  by_cases small : keptTotal previous candidates epoch < 2^64
  · rw [if_pos small] at counted
    have bounded : ∀ stake ∈ seats.filterMap (·.2), stake < 2^128 := by
      intro stake listed
      rw [← backed_stakes_projected placed 0] at listed
      obtain ⟨validator,-,rfl⟩ := List.mem_map.mp listed
      exact runtime_stake_lt validator
    have narrow : maxU64 - keptTotal previous candidates epoch < 2^64 := by rw [maxU64]; omega
    have least := weight_shift_least bounded narrow
    have decided := fits_within_iff bounded narrow
    rw [projectWeights,counted,ok_bind]
    generalize weightShift (seats.filterMap (·.2)) (maxU64 - keptTotal previous candidates epoch) = shift at least
    have fits := (decided shift).mp least.accepted
    rw [project_seats bounded (Nat.lt_of_le_of_lt fits narrow)]
    refine ⟨fun _ failed => (nomatch failed),fun next derived => ?_⟩
    cases derived
    have stakes := backed_stakes_projected placed shift
    refine ⟨shift,rfl,projected_weight placed,?_,?_,fun smaller less => ?_⟩
    · rw [projected_total,stakes,kept]
    · rw [stakes]
      rw [maxU64] at fits ⊢
      omega
    · have refused := mt (decided smaller).mpr (by simp [least.minimal smaller less])
      rw [stakes]
      omega
  · rw [if_neg small] at counted
    rw [projectWeights,counted]
    refine ⟨fun error failed => ?_,fun _ derived => nomatch derived⟩
    cases failed
    exact ⟨rfl,by rw [maxU64]; omega⟩

theorem derive_next_ok (derived : deriveNextValidators popValid previous candidates params unbondingDelayBlocks chunkId = .ok next) :
    ∃ boundary shift, enterBoundary params unbondingDelayBlocks chunkId = .ok boundary ∧
      next = (nextSeats popValid previous candidates params boundary).map (projected shift) := by
  simp only [deriveNextValidators,bind_ok] at derived
  obtain ⟨boundary,entered,done⟩ := derived
  obtain ⟨-,positive,-,chunk,timed⟩ := enter_boundary_ok.mp entered
  obtain ⟨shift,same,-⟩ := (project_weights_spec (next_seats_placed popValid)
    (kept_sum_next popValid (by rw [timed,chunk]) positive)).2 next done
  exact ⟨boundary,shift,entered,same⟩

theorem rotation_projects_weights (previous : List (Validator Hash Key)) (candidates : ConsensusCandidates Hash Key Sig)
    (params : ConsensusConstants) (unbondingDelayBlocks chunkId : Nat) : let epoch := (chunkId + 1) / params.epochLengthInChunks
    let derived := deriveNextValidators popValid previous candidates params unbondingDelayBlocks chunkId
    (∀ error, derived = .error error → (error = .stake ∧ maxU64 < keptTotal previous candidates epoch) ∨
      (error = .epoch ∧ BadEpoch params unbondingDelayBlocks chunkId)) ∧
    (∀ next, derived = .ok next → (next.map (·.effectiveStake)).sum ≤ maxU64 ∧ (∃ shift, SharedShift previous candidates epoch next shift) ∧
      (keptTotal previous candidates epoch + (backedStakes previous candidates epoch next).sum ≤ maxU64 →
        ∀ validator ∈ next, isBacked previous candidates epoch validator = true →
          validator.effectiveStake = runtimeStake candidates validator) ∧
      (∀ one ∈ next, ∀ two ∈ next, isBacked previous candidates epoch one = true →
        isBacked previous candidates epoch two = true → runtimeStake candidates one ≤ runtimeStake candidates two →
        one.effectiveStake ≤ two.effectiveStake)) := by
  intro epoch derived
  cases entered : enterBoundary params unbondingDelayBlocks chunkId with
  | error error =>
    have result : derived = .error error := by
      simp only [derived,deriveNextValidators,entered]
      rfl
    rw [result]
    refine ⟨fun _ failed => ?_,fun _ done => nomatch done⟩
    cases failed
    exact .inr (enter_boundary_error entered)
  | ok boundary =>
    obtain ⟨-,positive,-,chunk,timed⟩ := enter_boundary_ok.mp entered
    have result : derived = projectWeights (nextSeats popValid previous candidates params boundary) := by
      simp only [derived,deriveNextValidators,entered,ok_bind]
    have current : boundary.epoch = epoch := timed
    obtain ⟨failing,passing⟩ := project_weights_spec (next_seats_placed popValid) (kept_sum_next popValid (by rw [timed,chunk]) positive)
    rw [← result,current] at failing passing
    refine ⟨fun error failed => .inl (failing error failed),fun next done => ?_⟩
    obtain ⟨shift,-,shared⟩ := passing next done
    refine ⟨shared.total ▸ shared.fits,⟨shift,shared⟩,fun whole validator listed backed => ?_,
      fun one first two second backing behind less => ?_⟩
    · -- A total that fits unshifted leaves no smaller shift to refuse.
      have unshifted : shift = 0 := by
        by_contra shifted
        have refused := shared.minimal 0 (Nat.pos_of_ne_zero shifted)
        rw [shiftedTotal] at refused
        simp only [Nat.shiftRight_zero,List.map_id'] at refused
        omega
      rw [shared.weights validator listed backed,unshifted,Nat.shiftRight_zero]
    · rw [shared.weights one first backing,shared.weights two second behind,Nat.shiftRight_eq_div_pow, Nat.shiftRight_eq_div_pow]
      exact Nat.div_le_div_right less
end

def sampleParams : ConsensusConstants := ⟨⟨4,2,3,2,3⟩,1,1,1,1,1,0,1,1,1,1,1,1,1,1,1⟩

-- A genesis seat unknown to the runtime beside two whose stakes exceed u64.
def sampleSeats : List (Validator Nat Nat) := [⟨1,1,5,false,0,maxU64,0⟩,⟨2,2,0,false,1,maxU64,0⟩,⟨3,3,0,false,1,maxU64,0⟩]

def sampleCandidates : ConsensusCandidates Nat Nat Nat where
  entries := [⟨2,2^64,none⟩,⟨3,2^63,none⟩]
  distinct := by decide

theorem sample_weights_shift_once : ∃ next,
    deriveNextValidators (fun _ _ _ => true) sampleSeats sampleCandidates sampleParams 40 9 = .ok next ∧
    next.map (·.effectiveStake) = [5,2^63,2^62] ∧ (∃ shift, SharedShift sampleSeats sampleCandidates 10 next shift) := by
  have derived : ∃ next, deriveNextValidators (fun _ _ _ => true) sampleSeats sampleCandidates sampleParams 40 9 = .ok next ∧
      next.map (·.effectiveStake) = [5,2^63,2^62] := by
    refine ⟨[⟨1,1,5,false,0,maxU64,10⟩,⟨2,2,2^63,false,1,maxU64,10⟩,⟨3,3,2^62,false,1,maxU64,10⟩],?_,rfl⟩
    decide +kernel
  obtain ⟨next,done,weights⟩ := derived
  exact ⟨next,done,weights, ((rotation_projects_weights sampleSeats sampleCandidates sampleParams 40 9).2 next done).2.1⟩
end Neutrino.Chain
