import Neutrino.Library.Runs
import Neutrino.Chain.Rotation

-- The consensus set over runs of chunk boundaries: sanctions mark or tombstone their
-- offenders, then the set rotates (prover-chunk, consensus.rs).
namespace Neutrino.Chain
open Checks Consensus

section
variable {Hash Key Sig : Type} [DecidableEq Hash] [DecidableEq Key]

-- An identity that is no longer seated is kept as a permanent tombstone.
def markOffender (validators : List (Validator Hash Key)) (offender : Validator Hash Key) : List (Validator Hash Key) :=
  if validators.any (·.pubkey = offender.pubkey) then
    validators.map fun validator => if validator.pubkey = offender.pubkey then {validator with slashed := true} else validator
  else validators ++ [{offender with slashed := true, effectiveStake := 0}]

def markOffenders (validators offenders : List (Validator Hash Key)) : List (Validator Hash Key) := offenders.foldl markOffender validators

structure ActiveSet (Hash Key : Type) where
  validators : List (Validator Hash Key)
  chunkId : Nat
deriving DecidableEq

-- A chunk's sanctioned offenders and the candidate record of its final state.
structure ChunkEnd (Hash Key Sig : Type) where
  offenders : List (Validator Hash Key)
  candidates : ConsensusCandidates Hash Key Sig

variable (popValid : Key → Hash → Sig → Bool) (params : ConsensusConstants) (unbondingDelayBlocks : Nat)

def rotate (active : ActiveSet Hash Key) (chunk : ChunkEnd Hash Key Sig) : Except RotationError (ActiveSet Hash Key) := do
  let validators ← deriveNextValidators popValid (markOffenders active.validators chunk.offenders) chunk.candidates params
    unbondingDelayBlocks active.chunkId
  pure ⟨validators,active.chunkId + 1⟩

def Rotates (before : ActiveSet Hash Key) (chunk : ChunkEnd Hash Key Sig) (after : ActiveSet Hash Key) : Prop :=
  rotate popValid params unbondingDelayBlocks before chunk = .ok after

def ActiveSet.epoch (active : ActiveSet Hash Key) : Nat := active.chunkId / params.epochLengthInChunks

def ActiveSet.Seats (active : ActiveSet Hash Key) (pubkey : Key) (address : Hash) : Prop :=
  ∃ validator ∈ active.validators, validator.pubkey = pubkey ∧ validator.withdrawalCredentials = address

def ActiveSet.Condemned (active : ActiveSet Hash Key) (pubkey : Key) : Prop :=
  ∃ validator ∈ active.validators, validator.pubkey = pubkey ∧ validator.slashed = true ∧ validator.effectiveStake = 0

def Keeps (pubkey : Key) (address : Hash) (before : ActiveSet Hash Key) (chunk : ChunkEnd Hash Key Sig)
    (after : ActiveSet Hash Key) : Prop :=
  Rotates popValid params unbondingDelayBlocks before chunk after ∧ after.Seats pubkey address

structure Unique (validators : List (Validator Hash Key)) : Prop where
  keys : (validators.map (·.pubkey)).Nodup
  addresses : ((validators.filter (!·.slashed)).map (·.withdrawalCredentials)).Nodup
end
section
variable {Hash Key : Type} [DecidableEq Hash] [DecidableEq Key] {offender : Validator Hash Key}

theorem mark_offender_seated (seated : offender.pubkey ∈ validators.map (·.pubkey)) :
    markOffender validators offender = validators.map fun validator =>
      if validator.pubkey = offender.pubkey then {validator with slashed := true} else validator := by
  rw [markOffender,if_pos]
  simpa using seated

theorem mark_offender_unseated (unseated : offender.pubkey ∉ validators.map (·.pubkey)) :
    markOffender validators offender = validators ++ [{offender with slashed := true, effectiveStake := 0}] := by
  rw [markOffender,if_neg]
  simpa using unseated

theorem mark_offender_unique (offender : Validator Hash Key) (unique : Unique validators) : Unique (markOffender validators offender) := by
  by_cases seated : offender.pubkey ∈ validators.map (·.pubkey)
  · rw [mark_offender_seated seated]
    refine ⟨?_,?_⟩
    · have same : (validators.map fun validator =>
          if validator.pubkey = offender.pubkey then {validator with slashed := true} else validator).map (·.pubkey) =
          validators.map (·.pubkey) := by
        rw [List.map_map]
        refine List.map_congr_left fun validator _ => ?_
        simp only [Function.comp_apply]
        split <;> rfl
      rw [same]
      exact unique.keys
    · -- Slashing only takes seats out of the unslashed ones.
      refine List.Nodup.sublist ?_ unique.addresses
      clear unique seated
      induction validators with
      | nil => exact List.Sublist.refl _
      | cons validator rest ih =>
        rw [List.map_cons,List.filter_cons,List.filter_cons]
        by_cases hit : validator.pubkey = offender.pubkey
        · simp only [hit,if_true,Bool.not_true,Bool.false_eq_true,if_false]
          cases validator.slashed with
          | true => simpa using ih
          | false => simpa using ih.cons _
        · simp only [hit,if_false]
          cases validator.slashed with
          | true => simpa using ih
          | false => simpa using ih
  · rw [mark_offender_unseated seated]
    refine ⟨?_,?_⟩
    · rw [List.map_append]
      refine List.Nodup.append unique.keys (by simp) ?_
      simpa using seated
    · simpa using unique.addresses

theorem mark_offender_keeps (offender : Validator Hash Key) (listed : validator ∈ validators) :
    ∃ flag, (validator.slashed = true → flag = true) ∧ {validator with slashed := flag} ∈ markOffender validators offender := by
  by_cases seated : offender.pubkey ∈ validators.map (·.pubkey)
  · rw [mark_offender_seated seated]
    by_cases hit : validator.pubkey = offender.pubkey
    · exact ⟨true,fun _ => rfl,List.mem_map.mpr ⟨validator,listed,by rw [if_pos hit]⟩⟩
    · exact ⟨validator.slashed,id,List.mem_map.mpr ⟨validator,listed,by rw [if_neg hit]⟩⟩
  · rw [mark_offender_unseated seated]
    exact ⟨validator.slashed,id,List.mem_append_left _ listed⟩

theorem mark_offender_origin {marked : Validator Hash Key}
    (listed : marked ∈ markOffender validators offender) (known : marked.pubkey ∈ validators.map (·.pubkey)) :
    ∃ validator ∈ validators, marked = {validator with slashed := marked.slashed} := by
  by_cases seated : offender.pubkey ∈ validators.map (·.pubkey)
  · rw [mark_offender_seated seated] at listed
    obtain ⟨validator,member,rfl⟩ := List.mem_map.mp listed
    refine ⟨validator,member,?_⟩
    split <;> rfl
  · rw [mark_offender_unseated seated] at listed
    rcases List.mem_append.mp listed with old | new
    · exact ⟨marked,old,rfl⟩
    · rw [List.mem_singleton.mp new] at known
      exact absurd known seated

theorem mark_offender_slashes (validators : List (Validator Hash Key)) (offender : Validator Hash Key) :
    ∃ validator ∈ markOffender validators offender, validator.pubkey = offender.pubkey ∧ validator.slashed = true := by
  by_cases seated : offender.pubkey ∈ validators.map (·.pubkey)
  · rw [mark_offender_seated seated]
    obtain ⟨validator,member,same⟩ := List.mem_map.mp seated
    exact ⟨_,List.mem_map.mpr ⟨validator,member,rfl⟩,by rw [if_pos same]; exact ⟨same,rfl⟩⟩
  · rw [mark_offender_unseated seated]
    exact ⟨_,List.mem_append_right _ (List.mem_singleton.mpr rfl),rfl,rfl⟩

theorem mark_offenders_unique (offenders : List (Validator Hash Key))
    (unique : Unique validators) : Unique (markOffenders validators offenders) := by
  induction offenders generalizing validators with
  | nil => exact unique
  | cons offender rest ih => exact ih (mark_offender_unique offender unique)

theorem mark_offenders_keep (offenders : List (Validator Hash Key)) (listed : validator ∈ validators) :
    ∃ flag, (validator.slashed = true → flag = true) ∧ {validator with slashed := flag} ∈ markOffenders validators offenders := by
  induction offenders generalizing validators validator with
  | nil => exact ⟨validator.slashed,id,listed⟩
  | cons offender rest ih =>
    obtain ⟨first,kept,marked⟩ := mark_offender_keeps offender listed
    obtain ⟨flag,still,found⟩ := ih marked
    exact ⟨flag,still ∘ kept,found⟩

theorem mark_offenders_origin {marked : Validator Hash Key}
    (listed : marked ∈ markOffenders validators offenders) (known : marked.pubkey ∈ validators.map (·.pubkey)) :
    ∃ validator ∈ validators, marked = {validator with slashed := marked.slashed} := by
  induction offenders generalizing validators with
  | nil => exact ⟨marked,listed,rfl⟩
  | cons offender rest ih =>
    obtain ⟨seat,member,key⟩ := List.mem_map.mp known
    obtain ⟨_,-,after⟩ := mark_offender_keeps offender member
    obtain ⟨middle,found,same⟩ := ih listed (List.mem_map.mpr ⟨_,after,key⟩)
    have seated : middle.pubkey ∈ validators.map (·.pubkey) := by
      rw [same] at known
      exact known
    obtain ⟨validator,origin,before⟩ := mark_offender_origin found seated
    refine ⟨validator,origin,?_⟩
    rw [before] at same
    exact same

theorem mark_offenders_slash (validators : List (Validator Hash Key)) (named : offender ∈ offenders) :
    ∃ validator ∈ markOffenders validators offenders, validator.pubkey = offender.pubkey ∧ validator.slashed = true := by
  induction offenders generalizing validators with
  | nil => exact nomatch named
  | cons first rest ih =>
    rcases List.mem_cons.mp named with rfl | later
    · obtain ⟨validator,member,key,slashed⟩ := mark_offender_slashes validators offender
      obtain ⟨flag,kept,found⟩ := mark_offenders_keep rest member
      exact ⟨_,found,key,kept slashed⟩
    · exact ih _ later
end
section
variable {Hash Key Sig : Type} [DecidableEq Hash] [DecidableEq Key] {popValid : Key → Hash → Sig → Bool}
variable {candidates : ConsensusCandidates Hash Key Sig}

section
variable (shift : Nat) (seat : Seat Hash Key)
include shift seat

@[simp] theorem projected_pubkey : (projected shift seat).pubkey = seat.1.pubkey := by
  unfold projected
  split <;> rfl

@[simp] theorem projected_address : (projected shift seat).withdrawalCredentials = seat.1.withdrawalCredentials := by
  unfold projected
  split <;> rfl

@[simp] theorem projected_slashed : (projected shift seat).slashed = seat.1.slashed := by
  unfold projected
  split <;> rfl

@[simp] theorem projected_exit : (projected shift seat).exitEpoch = seat.1.exitEpoch := by
  unfold projected
  split <;> rfl
end

theorem filter_map_sublist {step : A → Option B} {after : B → C} {before : A → C}
    (same : ∀ item result, step item = some result → after result = before item) (items : List A) :
    ((items.filterMap step).map after).Sublist (items.map before) := by
  induction items with
  | nil => exact List.Sublist.refl _
  | cons item rest ih =>
    cases stepped : step item with
    | none => simpa [stepped] using ih.cons _
    | some result => simpa [stepped,same item result stepped] using ih

theorem carried_unslashed (previous : List (Validator Hash Key)) :
    (previous.filterMap (carry candidates params boundary)).filter (!·.1.slashed) =
      (previous.filter (!·.slashed)).filterMap (carry candidates params boundary) := by
  rw [List.filter_filterMap,List.filterMap_filter]
  refine List.filterMap_congr fun validator _ => ?_
  cases carried : carry candidates params boundary validator with
  | none => simp
  | some seat =>
    rw [(carry_some.mp carried).2]
    cases slashed : validator.slashed <;> simp [updatedSeat,slashed]

theorem next_unique (shift : Nat) (unique : Unique previous) :
    Unique ((nextSeats popValid previous candidates params boundary).map (projected shift)) := by
  have distinct : ((nextSeats popValid previous candidates params boundary).map (·.1.pubkey)).Nodup ∧
      (((nextSeats popValid previous candidates params boundary).filter (!·.1.slashed)).map (·.1.withdrawalCredentials)).Nodup := by
    refine next_seats_induct (fun seats : List (Seat Hash Key) => (seats.map (·.1.pubkey)).Nodup ∧
      ((seats.filter (!·.1.slashed)).map (·.1.withdrawalCredentials)).Nodup) ⟨?_,?_⟩ ?_
    · refine List.Nodup.sublist (filter_map_sublist (fun validator seat carried => ?_) previous) unique.keys
      rw [(carry_some.mp carried).2]
      rfl
    · rw [carried_unslashed]
      refine List.Nodup.sublist (filter_map_sublist (fun validator seat carried => ?_) _) unique.addresses
      rw [(carry_some.mp carried).2]
      rfl
    · intro seats candidate identity _ _ freeAddress freeKey holds
      refine ⟨?_,?_⟩
      · rw [List.map_append]
        refine List.Nodup.append holds.1 (by simp) ?_
        simpa [newSeat] using fun validator stake member => freeKey (validator,stake) member
      · rw [List.filter_append,List.map_append]
        refine List.Nodup.append holds.2 (by simp [newSeat]) ?_
        simpa [newSeat] using fun validator stake member _ => freeAddress (validator,stake) member
  refine ⟨?_,?_⟩
  · simpa [Function.comp_def] using distinct.1
  · rw [List.filter_map,List.map_map]
    simpa [Function.comp_def] using distinct.2

theorem next_condemns (shift : Nat) (listed : validator ∈ previous) (slashed : validator.slashed = true) :
    ∃ seat ∈ (nextSeats popValid previous candidates params boundary).map (projected shift),
      seat.pubkey = validator.pubkey ∧ seat.slashed = true ∧ seat.effectiveStake = 0 := by
  have carried : carry candidates params boundary validator = some (updatedSeat candidates params boundary validator) := by
    refine carry_some.mpr ⟨?_,rfl⟩
    rw [retired,if_pos]
    exact .inl slashed
  refine ⟨_,List.mem_map.mpr ⟨_,carried_listed popValid listed carried,rfl⟩,?_,?_,?_⟩
  · rw [projected_pubkey]
    rfl
  · rw [projected_slashed]
    exact slashed
  · simp [projected,updatedSeat,idle,slashed]

theorem held_carried (listed : seat ∈ nextSeats popValid previous candidates params boundary)
    (held : ∃ validator ∈ previous, validator.pubkey = seat.1.pubkey ∧ validator.withdrawalCredentials = seat.1.withdrawalCredentials) :
    ∃ validator ∈ previous, seat = updatedSeat candidates params boundary validator := by
  cases next_seats_origin popValid seat listed with
  | carried validator member kept => exact ⟨validator,member,(carry_some.mp kept).2⟩
  | created address pubkey entry new fresh =>
    obtain ⟨validator,member,key,home⟩ := held
    rw [new] at key home
    exact absurd key (fresh validator member home)

theorem exited_weightless (shift : Nat) (listed : seat ∈ nextSeats popValid previous candidates params boundary)
    (held : ∃ validator ∈ previous, validator.pubkey = seat.1.pubkey ∧ validator.withdrawalCredentials = seat.1.withdrawalCredentials)
    (reached : seat.1.exitEpoch ≤ boundary.epoch) : (projected shift seat).effectiveStake = 0 := by
  obtain ⟨validator,-,rfl⟩ := held_carried listed held
  have stopped : idle validator (exitEpochAfter validator candidates params boundary) boundary.epoch = true := by
    rw [idle,Bool.or_eq_true]
    exact .inr (decide_eq_true reached)
  simp [projected,updatedSeat,stopped]
end
section
variable {Hash Key Sig : Type} [DecidableEq Hash] [DecidableEq Key]
variable {popValid : Key → Hash → Sig → Bool} {unbondingDelayBlocks : Nat}
variable {before after : ActiveSet Hash Key} {chunk : ChunkEnd Hash Key Sig}

section
variable (rotated : Rotates popValid params unbondingDelayBlocks before chunk after)
include rotated

theorem rotates_cases :
    ∃ boundary shift, enterBoundary params unbondingDelayBlocks before.chunkId = .ok boundary ∧
      after.chunkId = boundary.nextChunk ∧ boundary.epoch = after.epoch params ∧
      after.validators = (nextSeats popValid (markOffenders before.validators chunk.offenders) chunk.candidates params
        boundary).map (projected shift) := by
  simp only [Rotates,rotate,bind_ok,pure_ok] at rotated
  obtain ⟨validators,derived,rfl⟩ := rotated
  obtain ⟨boundary,shift,entered,rfl⟩ := derive_next_ok derived
  obtain ⟨-,-,-,next,epoch⟩ := enter_boundary_ok.mp entered
  exact ⟨boundary,shift,entered,next.symm,epoch,rfl⟩

theorem rotates_unique (unique : Unique before.validators) : Unique after.validators := by
  obtain ⟨boundary,shift,-,-,-,same⟩ := rotates_cases rotated
  rw [same]
  exact next_unique shift (mark_offenders_unique chunk.offenders unique)

theorem rotates_condemns (guilty : (∃ validator ∈ before.validators, validator.pubkey = pubkey ∧ validator.slashed = true) ∨
      ∃ offender ∈ chunk.offenders, offender.pubkey = pubkey) : after.Condemned pubkey := by
  have marked : ∃ validator ∈ markOffenders before.validators chunk.offenders, validator.pubkey = pubkey ∧ validator.slashed = true := by
    rcases guilty with ⟨validator,member,key,slashed⟩ | ⟨offender,named,key⟩
    · obtain ⟨flag,kept,found⟩ := mark_offenders_keep chunk.offenders member
      exact ⟨_,found,key,kept slashed⟩
    · obtain ⟨validator,member,same,slashed⟩ := mark_offenders_slash before.validators named
      exact ⟨validator,member,same.trans key,slashed⟩
  obtain ⟨validator,member,rfl,slashed⟩ := marked
  obtain ⟨boundary,shift,-,-,-,same⟩ := rotates_cases rotated
  rw [ActiveSet.Condemned,same]
  exact next_condemns shift member slashed
end

section
variable (rotated : Rotates popValid params unbondingDelayBlocks before chunk after)
include rotated

theorem rotates_exits (listed : validator ∈ after.validators) (seated : before.Seats validator.pubkey validator.withdrawalCredentials) :
    (validator.exitEpoch ≤ after.epoch params → validator.effectiveStake = 0) ∧
    ∃ earlier ∈ before.validators, earlier.pubkey = validator.pubkey ∧
      (earlier.exitEpoch ≠ maxU64 → validator.exitEpoch = earlier.exitEpoch) := by
  obtain ⟨boundary,shift,-,-,epoch,same⟩ := rotates_cases rotated
  rw [same] at listed
  obtain ⟨seat,member,rfl⟩ := List.mem_map.mp listed
  rw [projected_pubkey,projected_address] at seated
  obtain ⟨holder,listing,key,home⟩ := seated
  obtain ⟨flag,-,marked⟩ := mark_offenders_keep chunk.offenders listing
  refine ⟨fun reached => ?_,?_⟩
  · rw [projected_exit,← epoch] at reached
    exact exited_weightless shift member ⟨_,marked,key,home⟩ reached
  · obtain ⟨marked,found,rfl⟩ := held_carried member ⟨_,marked,key,home⟩
    obtain ⟨earlier,origin,mark⟩ := mark_offenders_origin found (List.mem_map.mpr ⟨holder,listing,key⟩)
    refine ⟨earlier,origin,?_,fun fixed => ?_⟩
    · rw [projected_pubkey]
      change earlier.pubkey = marked.pubkey
      rw [mark]
    · have unchanged : marked.exitEpoch = earlier.exitEpoch := by rw [mark]
      rw [projected_exit]
      change exitEpochAfter marked chunk.candidates params boundary = earlier.exitEpoch
      rw [exitEpochAfter,if_neg (fun unset => fixed (unchanged ▸ unset.2.1)),unchanged]

theorem rotates_chunk : before.chunkId < maxU64 ∧ after.chunkId = before.chunkId + 1 := by
  obtain ⟨boundary,-,entered,next,-,-⟩ := rotates_cases rotated
  obtain ⟨small,-,-,chunk,-⟩ := enter_boundary_ok.mp entered
  exact ⟨by omega,next.trans chunk⟩

theorem rotates_epoch : before.epoch params < maxU64 ∧ before.epoch params ≤ after.epoch params := by
  obtain ⟨small,next⟩ := rotates_chunk rotated
  refine ⟨Nat.lt_of_le_of_lt (Nat.div_le_self _ _) small,?_⟩
  rw [ActiveSet.epoch,ActiveSet.epoch,next]
  exact Nat.div_le_div_right (Nat.le_succ _)
end

theorem exited_forever (run : Runs (Keeps popValid params unbondingDelayBlocks pubkey address) before chunks after)
    (unique : Unique before.validators) (reached : exit ≤ before.epoch params) (seated : before.Seats pubkey address)
    (exited : ∀ validator ∈ before.validators, validator.pubkey = pubkey → validator.withdrawalCredentials = address →
      validator.exitEpoch = exit ∧ validator.effectiveStake = 0) :
    ∀ validator ∈ after.validators, validator.pubkey = pubkey → validator.withdrawalCredentials = address →
      validator.exitEpoch = exit ∧ validator.effectiveStake = 0 := by
  refine (run.invariant (fun _ active => Unique active.validators ∧ exit ≤ active.epoch params ∧
    active.Seats pubkey address ∧ ∀ validator ∈ active.validators, validator.pubkey = pubkey →
      validator.withdrawalCredentials = address → validator.exitEpoch = exit ∧ validator.effectiveStake = 0)
    ⟨unique,reached,seated,exited⟩ ?_).2.2.2
  rintro _ middle chunk next - ⟨unique,reached,seated,exited⟩ ⟨rotated,still⟩
  obtain ⟨last,later⟩ := rotates_epoch rotated
  refine ⟨rotates_unique rotated unique,Nat.le_trans reached later,still,fun validator listed key home => ?_⟩
  subst key home
  obtain ⟨weightless,earlier,member,key,stable⟩ := rotates_exits rotated listed seated
  obtain ⟨holder,listing,same,place⟩ := seated
  have one : earlier = holder := List.inj_on_of_nodup_map unique.keys member listing (key.trans same.symm)
  have leaves := (exited holder listing same place).1
  rw [one,leaves] at stable
  have kept : validator.exitEpoch = exit := stable (by omega)
  exact ⟨kept,weightless (by omega)⟩

theorem carry_dropped (same : after.validators = (nextSeats popValid (markOffenders before.validators chunk.offenders) chunk.candidates
      params boundary).map (projected shift)) (listed : validator ∈ markOffenders before.validators chunk.offenders)
    (removed : ¬after.Seats validator.pubkey validator.withdrawalCredentials) :
    carry chunk.candidates params boundary validator = none := by
  cases carried : carry chunk.candidates params boundary validator with
  | none => rfl
  | some seat =>
    refine absurd ⟨projected shift seat,?_,?_,?_⟩ removed
    · rw [same]
      exact List.mem_map.mpr ⟨seat,carried_listed popValid listed carried,rfl⟩
    · rw [projected_pubkey,(carry_some.mp carried).2]
      rfl
    · rw [projected_address,(carry_some.mp carried).2]
      rfl

theorem rotates_removes (rotated : Rotates popValid params unbondingDelayBlocks before chunk after) (listed : validator ∈ before.validators)
    (removed : ¬after.Seats validator.pubkey validator.withdrawalCredentials) :
    chunk.candidates.contains validator.withdrawalCredentials = false ∧
    ∃ exit delay, retirementDelayChunks params unbondingDelayBlocks = some delay ∧ exit ≠ maxU64 ∧
      exit * params.epochLengthInChunks + delay ≤ after.chunkId ∧ (exit = validator.exitEpoch ∨
        params.exitDelayEpochs = 0 ∧ validator.exitEpoch = maxU64 ∧ exit = after.epoch params) := by
  obtain ⟨boundary,shift,entered,next,epoch,same⟩ := rotates_cases rotated
  obtain ⟨-,positive,delay,turn,-⟩ := enter_boundary_ok.mp entered
  obtain ⟨flag,-,marked⟩ := mark_offenders_keep chunk.offenders listed
  obtain ⟨-,missing,fixed,due⟩ := carry_none (carry_dropped same marked removed)
  refine ⟨missing,_,_,delay,fixed,next ▸ due,?_⟩
  rw [exitEpochAfter] at fixed due ⊢
  split at due
  · rename_i opened
    rw [if_pos opened] at fixed ⊢
    have early : boundary.nextChunk < (boundary.epoch + 1) * params.epochLengthInChunks := by
      rw [epoch,ActiveSet.epoch,next]
      exact Nat.lt_mul_of_div_lt (Nat.lt_succ_self _) (Nat.pos_of_ne_zero positive)
    have sum : saturatingAdd boundary.epoch params.exitDelayEpochs = boundary.epoch + params.exitDelayEpochs := by
      rw [saturatingAdd] at fixed ⊢
      omega
    have instant : params.exitDelayEpochs = 0 := by
      by_contra delayed
      rw [sum] at due
      have late : (boundary.epoch + 1) * params.epochLengthInChunks ≤
          (boundary.epoch + params.exitDelayEpochs) * params.epochLengthInChunks :=
        Nat.mul_le_mul_right _ (by omega)
      omega
    refine .inr ⟨instant,opened.2.1,?_⟩
    rw [sum,instant,← epoch]
    rfl
  · rename_i closed
    rw [if_neg closed]
    exact .inl rfl

theorem validator_set_invariants {genesis active : ActiveSet Hash Key} {chunks : List (ChunkEnd Hash Key Sig)}
    (keys : (genesis.validators.map (·.pubkey)).Nodup) (addresses : (genesis.validators.map (·.withdrawalCredentials)).Nodup)
    (run : Runs (Rotates popValid params unbondingDelayBlocks) genesis chunks active) : (active.validators.map (·.pubkey)).Nodup ∧
    ((active.validators.filter (!·.slashed)).map (·.withdrawalCredentials)).Nodup ∧
    ∀ chunk next, Rotates popValid params unbondingDelayBlocks active chunk next →
      (∀ pubkey, (∃ validator ∈ active.validators, validator.pubkey = pubkey ∧ validator.slashed = true) ∨
          (∃ offender ∈ chunk.offenders, offender.pubkey = pubkey) →
        ∀ later final, Runs (Rotates popValid params unbondingDelayBlocks) next later final → final.Condemned pubkey) ∧
      (∀ validator ∈ next.validators, active.Seats validator.pubkey validator.withdrawalCredentials →
        validator.exitEpoch ≤ next.epoch params → ∀ later final,
          Runs (Keeps popValid params unbondingDelayBlocks validator.pubkey validator.withdrawalCredentials) next later final →
          ∀ seat ∈ final.validators, seat.pubkey = validator.pubkey → seat.withdrawalCredentials = validator.withdrawalCredentials →
            seat.exitEpoch = validator.exitEpoch ∧ seat.effectiveStake = 0) ∧
      (∀ validator ∈ active.validators, ¬next.Seats validator.pubkey validator.withdrawalCredentials →
        chunk.candidates.contains validator.withdrawalCredentials = false ∧
        ∃ exit delay, retirementDelayChunks params unbondingDelayBlocks = some delay ∧ exit ≠ maxU64 ∧
          exit * params.epochLengthInChunks + delay ≤ next.chunkId ∧ (exit = validator.exitEpoch ∨
            params.exitDelayEpochs = 0 ∧ validator.exitEpoch = maxU64 ∧ exit = next.epoch params)) := by
  have initial : Unique genesis.validators := ⟨keys,List.Nodup.sublist (List.Sublist.map _ List.filter_sublist) addresses⟩
  have unique := run.invariant (fun _ middle => Unique middle.validators) initial fun _ _ _ _ _ held rotated => rotates_unique rotated held
  refine ⟨unique.keys,unique.addresses,fun chunk next rotated => ⟨fun pubkey guilty later final path => ?_,
    fun validator listed seated reached later final path => ?_,fun validator => rotates_removes rotated⟩⟩
  · refine path.invariant (fun _ active => active.Condemned pubkey) (rotates_condemns rotated guilty) fun _ _ _ _ _ held rotated => ?_
    obtain ⟨validator,member,key,slashed,-⟩ := held
    exact rotates_condemns rotated (.inl ⟨validator,member,key,slashed⟩)
  · have after := rotates_unique rotated unique
    refine exited_forever path after reached ⟨validator,listed,rfl,rfl⟩ fun seat member key home => ?_
    have one : seat = validator := List.inj_on_of_nodup_map after.keys member listed key
    rw [one]
    exact ⟨rfl,(rotates_exits rotated listed seated).1 reached⟩
end

def sampleGenesis : ActiveSet Nat Nat := ⟨sampleSeats,8⟩
def sampleChunkEnd : ChunkEnd Nat Nat Nat := ⟨[⟨9,4,7,false,1,6,0⟩],sampleCandidates⟩

def sampleAfter : ActiveSet Nat Nat :=
  ⟨[⟨1,1,5,false,0,maxU64,9⟩,⟨2,2,2^63,false,1,maxU64,9⟩,⟨3,3,2^62,false,1,maxU64,9⟩,⟨9,4,0,true,1,6,9⟩],9⟩

theorem sample_tombstone_stays :
    Rotates (fun _ _ _ => true) sampleParams 40 sampleGenesis sampleChunkEnd sampleAfter ∧ sampleAfter.Condemned 9 ∧
    ∃ later, Rotates (fun _ _ _ => true) sampleParams 40 sampleAfter ⟨[],sampleCandidates⟩ later ∧ later.Condemned 9 := by
  have rotated : Rotates (fun _ _ _ => true) sampleParams 40 sampleGenesis sampleChunkEnd sampleAfter := by
    unfold Rotates
    decide +kernel
  have invariants := validator_set_invariants (by decide) (by decide)
    (Runs.nil : Runs (Rotates (fun _ _ _ => true) sampleParams 40) sampleGenesis ([] : List (ChunkEnd Nat Nat Nat)) _)
  have stays := (invariants.2.2 sampleChunkEnd sampleAfter rotated).1 9 (.inr ⟨_,List.mem_singleton.mpr rfl,rfl⟩)
  refine ⟨rotated,stays _ _ Runs.nil,?_⟩
  obtain ⟨later,turned,-⟩ := completed_check (show (rotate (fun _ _ _ => true) sampleParams 40 sampleAfter
    ⟨[],sampleCandidates⟩).toOption.any (fun _ => true) = true by decide +kernel)
  exact ⟨later,turned,stays _ _ (Runs.nil.snoc turned)⟩
end Neutrino.Chain
