import Neutrino.Consensus.Electorate
import Neutrino.Consensus.Session

-- Stake, keys and indexes behind a bitmap, for session and guest.

namespace Neutrino.Consensus
open Checks
variable {Hash Key Sig : Type} {validators : List (Validator Hash Key)}

theorem active_stake_cons (validator : Validator Hash Key) (rest : List (Validator Hash Key)) :
    unslashedStake (validator::rest) = (if isActive validator then validator.effectiveStake else 0) + unslashedStake rest := by
  unfold unslashedStake isActive
  cases slashed : validator.slashed
  · by_cases staked : 0 < validator.effectiveStake
    · simp [slashed,staked]
    · simp [slashed,Nat.eq_zero_of_not_pos staked]
  · simp [slashed]

theorem add_active_stake (small : total < 2^64) : addActiveStake total validators =
    if total + unslashedStake validators < 2^64 then .ok (total + unslashedStake validators) else .error .stakeOverflow := by
  induction validators generalizing total with
  | nil => exact (if_pos small).symm
  | cons validator rest ih =>
    rw [addActiveStake,active_stake_cons]
    by_cases active : isActive validator
    · simp only [active,if_true,← Nat.add_assoc]
      by_cases room : total + validator.effectiveStake < 2^64
      · rw [ensure_pos room,ok_bind,ih room]
      · rw [ensure_neg room,if_neg (by omega)]
        rfl
    · simp [active,ih small]

theorem total_active_stake_ok : totalActiveStake validators = .ok total ↔ activeStakeTotal validators = some total := by
  rw [totalActiveStake,add_active_stake (by decide),activeStakeTotal,Nat.zero_add]
  by_cases room : unslashedStake validators < 2^64
  · simp only [room,if_true,ok_bind,bind_ok,ensure_ok,pure_ok,and_true]
    by_cases staked : 0 < unslashedStake validators
    · simp [staked,Nat.pos_iff_ne_zero.mp staked]
    · simp [Nat.eq_zero_of_not_pos staked]
  · rw [if_neg room,if_neg (room ·.2)]
    simp

theorem total_fits (summed : activeStakeTotal validators = some total) : total = unslashedStake validators ∧ 0 < total ∧ total < 2^64 := by
  unfold activeStakeTotal at summed
  split at summed
  · cases summed
    rename_i bounds
    exact ⟨rfl,bounds⟩
  · cases summed

variable {seats : List (Validator Hash Key × Nat)}

theorem signers_from_keys (counted : signersFrom bits seats = some (keys,stake)) :
    keys = (seats.filter fun seat => bits.get seat.2 = some true).map (·.1.pubkey) := by
  induction seats generalizing keys stake with
  | nil => cases counted; rfl
  | cons seat rest ih =>
    obtain ⟨marked,_,_,_,found,rfl,_⟩ | ⟨unmarked,found⟩ := signers_from_cons counted
    · simp [marked,← ih found]
    · simp [unmarked,← ih found]

theorem signers_keys (counted : signers validators bits = some (keys,stake)) : keys = markedKeys validators bits :=
  signers_from_keys counted

theorem add_marked_stake (narrow : ∀ seat ∈ seats, seat.2 < 2^32) (small : stake < 2^64) : addMarkedStake bits stake seats = .ok result ↔
      ∃ keys signed, signersFrom bits seats = some (keys,signed) ∧ stake + signed < 2^64 ∧ result = stake + signed := by
  induction seats generalizing stake with
  | nil =>
    simp only [addMarkedStake,signersFrom,Except.ok.injEq,Option.some.injEq,Prod.mk.injEq]
    constructor
    · rintro rfl
      exact ⟨[],0,⟨rfl,rfl⟩,small,rfl⟩
    · rintro ⟨_,_,⟨rfl,rfl⟩,-,rfl⟩
      rfl
  | cons seat rest ih =>
    obtain ⟨validator,index⟩ := seat
    have below : ¬2^32 ≤ index := Nat.not_le.mpr (narrow (validator,index) (by simp))
    have later : ∀ seat ∈ rest, seat.2 < 2^32 := fun seat listed => narrow seat (by simp [listed])
    rw [addMarkedStake,signersFrom,if_neg below]
    by_cases marked : bits.get index = some true
    · simp only [marked,if_true,bind_ok,ensure_ok]
      by_cases active : isActive validator
      · simp only [active,if_true,Option.map_eq_some_iff,Prod.exists,Prod.mk.injEq,true_and]
        constructor
        · rintro ⟨_,_,room,added⟩
          obtain ⟨keys,signed,found,fits,rfl⟩ := (ih later room).mp added
          exact ⟨_,_,⟨keys,signed,found,rfl,rfl⟩,by omega,by omega⟩
        · rintro ⟨_,_,⟨keys,signed,found,rfl,rfl⟩,fits,rfl⟩
          have room : stake + validator.effectiveStake < 2^64 := by omega
          exact ⟨(),(),room,(ih later room).mpr ⟨keys,signed,found,by omega,by omega⟩⟩
      · simp [active]
    · simp only [marked,if_false]
      exact ih later small

theorem signed_le_total (counted : signers validators bits = some (keys,stake)) : stake ≤ unslashedStake validators := by
  obtain ⟨rfl,inside,-⟩ := signers_marked counted
  rw [← total_unslashed]
  exact WeightedQuorum.total_mono _ inside

theorem bitmap_stake_ok (summed : activeStakeTotal validators = some total) : bitmapStake validators bits = .ok stake ↔
    validators.length < 2^32 ∧ bits.bitLen = validators.length ∧
      signers validators bits = some (markedKeys validators bits,stake) ∧ stake ≠ 0 := by
  obtain ⟨rfl,-,fits⟩ := total_fits summed
  have narrow (short : validators.length < 2^32) : ∀ seat ∈ validators.zipIdx, seat.2 < 2^32 := fun seat listed => by
      have := List.snd_lt_of_mem_zipIdx listed
      omega
  simp only [bitmapStake,bind_ok,ensure_ok,pure_ok]
  constructor
  · rintro ⟨_,short,_,whole,_,added,_,positive,rfl⟩
    obtain ⟨keys,signed,counted,-,rfl⟩ := (add_marked_stake (narrow short) (by decide)).mp added
    rw [Nat.zero_add] at positive ⊢
    exact ⟨short,whole,signers_keys counted ▸ counted,positive⟩
  · rintro ⟨short,whole,counted,positive⟩
    have bounded := signed_le_total counted
    exact ⟨(),short,(),whole,stake, (add_marked_stake (narrow short) (by decide)).mpr ⟨_,stake,counted,by omega,(Nat.zero_add _).symm⟩,
      (),positive,rfl⟩

variable {bits : BitVec}

def BitVec.marked (bits : BitVec) : List Nat := (List.range bits.bitLen).filter (bits.get · = some true)
def keyAt (validators : List (Validator Hash Key)) (index : Nat) : Option Key := validators[index]?.map (·.pubkey)
theorem marked_nodup (bits : BitVec) : bits.marked.Nodup := List.nodup_range.filter _

theorem mem_marked : index ∈ bits.marked ↔ bits.get index = some true := by
  simp only [BitVec.marked,List.mem_filter,List.mem_range,decide_eq_true_eq,and_iff_right_iff_imp]
  intro set
  exact (List.getElem?_eq_some_iff.mp set).1

theorem marked_seats (whole : bits.bitLen = validators.length) :
    bits.marked = (validators.zipIdx.filter fun seat => bits.get seat.2 = some true).map Prod.snd := by
  have indexes : List.range bits.bitLen = validators.zipIdx.map Prod.snd := by
    rw [List.zipIdx_map_snd,whole,List.range_eq_range']
  rw [BitVec.marked,indexes,List.filter_map]
  rfl

theorem marked_keys_indexed (whole : bits.bitLen = validators.length) :
    markedKeys validators bits = bits.marked.filterMap (keyAt validators) := by
  rw [marked_seats whole,List.filterMap_map,markedKeys,← List.filterMap_eq_map]
  refine List.filterMap_congr fun seat listed => ?_
  have found : validators[seat.2]? = some seat.1 := List.mem_zipIdx_iff_getElem?.mp (List.mem_of_mem_filter listed)
  simp [keyAt,found]

theorem signers_from_empty (counted : signersFrom bits seats = some (keys,stake)) : keys.isEmpty = true ↔ stake = 0 := by
  induction seats generalizing keys stake with
  | nil => cases counted; simp
  | cons seat rest ih =>
    obtain ⟨_,active,_,_,_,rfl,rfl⟩ | ⟨_,found⟩ := signers_from_cons counted
    · simp only [isActive,Bool.and_eq_true,decide_eq_true_eq] at active
      simp only [List.isEmpty_cons,Bool.false_eq_true,false_iff]
      omega
    · exact ih found
end Neutrino.Consensus
