import Neutrino.Consensus.Verification
import Neutrino.Library.Bits

-- Aggregator committees: the swap-or-not shuffle and who is selected.
namespace Neutrino.Committee
open Checks Bits Consensus

abbrev Digest := Fin 32 → Byte

inductive VrfError where
  | zeroTotalStake
  | stakeOverflow
  | validatorIndexOverflow (len : Nat)
  -- An expectation of the source failed.
  | panicked

structure AggregatorSelection where
  validatorIndex : Nat
  selectionOutput : Digest

-- The arguments of a selection, with the hash function and the threshold test.
structure Draw (Hash Key : Type) where
  activeSet : List (Validator Hash Key)
  seed : Digest
  chunkId : Nat
  round : Nat
  expected : Nat
  sha256 : List Byte → Digest
  isEligible : Digest → Nat → Nat → Nat → Bool

def shuffleRoundCount : Nat := 90
def domainAggProof : List Byte := [78,69,85,84,82,73,78,79,95,65,71,71,80,82,70,95]

variable {Hash Key : Type}

def addActiveStake : Nat → List (Validator Hash Key) → Except VrfError Nat
  | total,[] => return total
  | total,validator::rest => do
    if !isActive validator then addActiveStake total rest
    else
      ensure (total + validator.effectiveStake < 2 ^ 64) .stakeOverflow
      addActiveStake (total + validator.effectiveStake) rest

def totalActiveStake (activeSet : List (Validator Hash Key)) : Except VrfError Nat := do
  let total ← addActiveStake 0 activeSet
  ensure (total ≠ 0) .zeroTotalStake
  return total

def indexedValidatorCount (activeSet : List (Validator Hash Key)) : Except VrfError Nat := do
  ensure (activeSet.length < 2 ^ 32) (.validatorIndexOverflow activeSet.length)
  return activeSet.length

namespace Draw
variable (draw : Draw Hash Key)

-- A position is below a 32-bit count, so its window fits the four bytes.
def shuffleDigest (round : Nat) (positionWindow : Option Nat) : Digest :=
  draw.sha256 (List.ofFn draw.seed ++ BitVec.ofNat 8 round::positionWindow.elim [] (leBytes 4))

def shufflePivots : List Nat :=
  (List.range shuffleRoundCount).map fun round => fromLe ((List.ofFn (draw.shuffleDigest round none)).take 8)

def positionBit (round position : Nat) : Bool :=
  let byte := draw.shuffleDigest round (some (position / 256)) ⟨position % 256 / 8,by omega⟩
  (byte >>> (position % 8)) &&& 1 == 1

def swapOrNot (count index : Nat) (turn : Nat × Nat) : Nat :=
  let flip := (turn.2 % count + count - index) % count
  if draw.positionBit turn.1 (max index flip) then flip else index

def computeShuffledIndex (index count : Nat) (pivots : List Nat) : Option Nat :=
  if count = 0 ∨ count ≤ index then none
  else some (((List.range shuffleRoundCount).zip pivots).foldl (draw.swapOrNot count) index)

def aggregatorSelectionOutput (validatorIndex : Nat) : Digest :=
  draw.sha256 (domainAggProof ++ List.ofFn draw.seed ++ leBytes 8 draw.chunkId ++ leBytes 4 draw.round ++ leBytes 4 validatorIndex)

def passes (total index : Nat) (validator : Validator Hash Key) : Bool :=
  isActive validator && draw.isEligible (draw.aggregatorSelectionOutput index) validator.effectiveStake total draw.expected

def visit (total count : Nat) (pivots : List Nat) (sourceIndex : Nat) : Except VrfError (Option AggregatorSelection) := do
  let index ← required (draw.computeShuffledIndex sourceIndex count pivots) .panicked
  let validator ← required draw.activeSet[index]? .panicked
  return if draw.passes total index validator then some ⟨index,draw.aggregatorSelectionOutput index⟩ else none

def aggregatorCommittee : Except VrfError (List AggregatorSelection) := do
  let total ← totalActiveStake draw.activeSet
  let count ← indexedValidatorCount draw.activeSet
  let selected ← (List.range count).mapM (draw.visit total count draw.shufflePivots)
  return selected.reduceOption

def isAggregator (validatorIndex : Nat) : Except VrfError Bool := do
  let total ← totalActiveStake draw.activeSet
  let _ ← indexedValidatorCount draw.activeSet
  return draw.activeSet[validatorIndex]?.any (draw.passes total validatorIndex)

theorem mirror_mirror {pivot count index : Nat} (low : pivot < count) (below : index < count) :
    (pivot + count - (pivot + count - index) % count) % count = index := by
  by_cases before : index ≤ pivot
  · have once : (pivot + count - index) % count = pivot - index := by
      rw [show pivot + count - index = pivot - index + count by omega,Nat.add_mod_right,Nat.mod_eq_of_lt (by omega)]
    rw [once,show pivot + count - (pivot - index) = index + count by omega,Nat.add_mod_right,Nat.mod_eq_of_lt below]
  · have once : (pivot + count - index) % count = pivot + count - index := Nat.mod_eq_of_lt (by omega)
    rw [once,Nat.sub_sub_self (by omega),Nat.mod_eq_of_lt below]

theorem swapOrNot_lt (below : index < count) (turn : Nat × Nat) : draw.swapOrNot count index turn < count := by
  unfold swapOrNot
  dsimp only
  split
  · exact Nat.mod_lt _ (by omega)
  · exact below

-- Both members of a pair read the same bit, so a round undoes itself.
theorem swapOrNot_undoes (below : index < count) (turn : Nat × Nat) :
    draw.swapOrNot count (draw.swapOrNot count index turn) turn = index := by
  have back := mirror_mirror (Nat.mod_lt turn.2 (by omega)) below
  by_cases bit : draw.positionBit turn.1 (max index ((turn.2 % count + count - index) % count)) = true
  · simp only [swapOrNot,if_pos bit,back,Nat.max_comm _ index]
  · simp only [swapOrNot,if_neg bit]

theorem rounds_permute (count : Nat) (turns : List (Nat × Nat)) : ∃ shuffle : Equiv.Perm (Fin count),
    ∀ index : Fin count, turns.foldl (draw.swapOrNot count) index = (shuffle index).val := by
  induction turns with
  | nil => exact ⟨.refl _,fun _ => rfl⟩
  | cons turn turns ih =>
    obtain ⟨shuffle,same⟩ := ih
    let swap (index : Fin count) : Fin count := ⟨_,draw.swapOrNot_lt index.isLt turn⟩
    have undoes (index : Fin count) : swap (swap index) = index := Fin.ext (draw.swapOrNot_undoes index.isLt turn)
    exact ⟨(Equiv.mk swap swap undoes undoes).trans shuffle,fun index => same (swap index)⟩

theorem shuffle_permutes (count : Nat) (pivots : List Nat) : ∃ shuffle : Equiv.Perm (Fin count),
    ∀ index : Fin count, draw.computeShuffledIndex index count pivots = some (shuffle index).val := by
  obtain ⟨shuffle,same⟩ := draw.rounds_permute count ((List.range shuffleRoundCount).zip pivots)
  refine ⟨shuffle,fun index => ?_⟩
  rw [computeShuffledIndex,if_neg (by have := index.isLt; omega),same]

theorem picked_indices (output : Nat → Digest) (member : Nat → Bool) (indices : List Nat) :
    (indices.map fun index => if member index then some (AggregatorSelection.mk index (output index)) else none).reduceOption.map
      (·.validatorIndex) = indices.filter member := by
  induction indices with
  | nil => rfl
  | cons index rest ih => by_cases chosen : member index = true <;> simp_all

theorem committee_indices (summed : totalActiveStake draw.activeSet = .ok total)
    (counted : indexedValidatorCount draw.activeSet = .ok count) : ∃ (indices : List Nat) (selected : _),
      indices.Nodup ∧ (∀ index, index ∈ indices ↔ index < draw.activeSet.length) ∧ draw.aggregatorCommittee = .ok selected ∧
      selected.map (·.validatorIndex) = indices.filter fun index => draw.activeSet[index]?.any (draw.passes total index) := by
  have size : count = draw.activeSet.length := by
    simp only [indexedValidatorCount,bind_ok,pure_ok] at counted
    obtain ⟨_,_,same⟩ := counted
    exact same.symm
  obtain ⟨shuffle,permutes⟩ := draw.shuffle_permutes count draw.shufflePivots
  refine ⟨(List.finRange count).map fun source => (shuffle source).val,_,?_,fun index => ?_,?_,
    picked_indices draw.aggregatorSelectionOutput _ _⟩
  · exact (List.nodup_finRange count).map (Fin.val_injective.comp shuffle.injective)
  · rw [← size]
    constructor
    · intro listed
      obtain ⟨source,_,rfl⟩ := List.mem_map.mp listed
      exact (shuffle source).isLt
    · intro below
      exact List.mem_map.mpr ⟨shuffle.symm ⟨index,below⟩,List.mem_finRange _,by simp⟩
  · have visited (source : Fin count) : draw.visit total count draw.shufflePivots source =
        .ok (if draw.activeSet[(shuffle source).val]?.any (draw.passes total (shuffle source)) then
          some ⟨(shuffle source).val,draw.aggregatorSelectionOutput (shuffle source)⟩ else none) := by
      have inside : (shuffle source).val < draw.activeSet.length := size ▸ (shuffle source).isLt
      rw [visit,permutes,required_some,ok_bind,List.getElem?_eq_getElem inside,required_some,ok_bind,Option.any_some]
      rfl
    rw [aggregatorCommittee,summed,ok_bind,counted,ok_bind,← List.map_coe_finRange_eq_range,List.mapM_map,
      Function.comp_def,mapM_ok fun source _ => visited source,List.map_map]
    rfl

theorem committee_exact :
    (∀ count pivots, ∃ shuffle : Equiv.Perm (Fin count), ∀ index : Fin count,
      draw.computeShuffledIndex index count pivots = some (shuffle index).val) ∧
    (∀ index reason, draw.aggregatorCommittee = .error reason ↔ draw.isAggregator index = .error reason) ∧
    ∀ selected, draw.aggregatorCommittee = .ok selected → (selected.map (·.validatorIndex)).Nodup ∧
      ∀ index, index ∈ selected.map (·.validatorIndex) ↔ draw.isAggregator index = .ok true := by
  refine ⟨draw.shuffle_permutes,?_⟩
  unfold isAggregator
  cases summed : totalActiveStake draw.activeSet with
  | error reason => simp [aggregatorCommittee,summed,bind,Except.bind]
  | ok total =>
    cases counted : indexedValidatorCount draw.activeSet with
    | error reason => simp [aggregatorCommittee,summed,counted,bind,Except.bind]
    | ok count =>
      obtain ⟨indices,selected,distinct,complete,ran,same⟩ := draw.committee_indices summed counted
      rw [ran]
      refine ⟨fun _ _ => ⟨nofun,nofun⟩,?_⟩
      rintro _ ⟨⟩
      rw [same]
      refine ⟨distinct.filter _,fun index => ?_⟩
      rw [List.mem_filter,complete]
      simp only [ok_bind,pure_ok,and_iff_right_iff_imp]
      refine fun member => Nat.lt_of_not_le fun past => ?_
      simp [List.getElem?_eq_none past] at member
end Draw
end Neutrino.Committee
