import Neutrino.Consensus.Stake

-- Signed claims behind a bitmap: coverage, merging, and unions of bitmaps.

namespace Neutrino.Consensus
open Checks
variable {Hash Key Sig : Type} {count : Nat}

-- A prevote lists no block proofs, a precommit one for every block.
def proofsListed (phase : FinalityVotePhase) (count : Nat) (claim : VoteAttestation Hash Sig) : Bool :=
  match phase with
  | .prevote => claim.proofHashes.isEmpty
  | .precommit => decide (claim.proofHashes.length = count)

section
variable [DecidableEq Hash] {claims : List (VoteAttestation Hash Sig)}

theorem coverage_cons (claim : VoteAttestation Hash Sig) : attestationCoverage data bits count seen (claim::claims) =
    if claim.vote = data ∧ bits.get claim.validatorIndex = some true ∧ claim.validatorIndex ∉ seen ∧
        proofsListed data.phase count claim = true then attestationCoverage data bits count (claim.validatorIndex::seen) claims
    else none := rfl

theorem coverage_from (once : seen.Nodup) : attestationCoverage data bits count seen claims = some result ↔
    (∀ claim ∈ claims, claim.vote = data ∧ proofsListed data.phase count claim = true ∧ claim.validatorIndex ∈ bits.marked) ∧
    result = (claims.map (·.validatorIndex)).reverse++seen ∧ result.Nodup := by
  induction claims generalizing seen with
  | nil =>
    simp only [attestationCoverage,Option.some.injEq,List.map_nil,List.reverse_nil,List.nil_append]
    constructor
    · rintro rfl
      exact ⟨by simp,rfl,once⟩
    · rintro ⟨-,rfl,-⟩
      rfl
  | cons claim rest ih =>
    have spread : ((claim::rest).map (·.validatorIndex)).reverse++seen =
        (rest.map (·.validatorIndex)).reverse++claim.validatorIndex::seen := by simp
    rw [coverage_cons,spread]
    by_cases accepted : claim.vote = data ∧ bits.get claim.validatorIndex = some true ∧ claim.validatorIndex ∉ seen ∧
        proofsListed data.phase count claim = true
    · obtain ⟨vote,set,fresh,proofs⟩ := accepted
      rw [if_pos ⟨vote,set,fresh,proofs⟩,ih (List.nodup_cons.mpr ⟨fresh,once⟩)]
      simp only [List.forall_mem_cons]
      exact ⟨fun ⟨others,rest⟩ => ⟨⟨⟨vote,proofs,mem_marked.mpr set⟩,others⟩,rest⟩, fun ⟨⟨_,others⟩,rest⟩ => ⟨others,rest⟩⟩
    · rw [if_neg accepted]
      simp only [reduceCtorEq,false_iff]
      rintro ⟨all,rfl,nodup⟩
      obtain ⟨vote,proofs,set⟩ := all claim (by simp)
      exact accepted ⟨vote,mem_marked.mp set,(List.nodup_cons.mp (List.nodup_append.mp nodup).2.1).1,proofs⟩

theorem coverage_ok : attestationCoverageValid data bits claims count = true ↔ count ≠ 0 ∧ claims ≠ [] ∧
    (∀ claim ∈ claims, claim.vote = data ∧ proofsListed data.phase count claim = true) ∧
    (claims.map (·.validatorIndex)).Perm bits.marked := by
  unfold attestationCoverageValid
  split
  · rename_i trivial
    simp only [Bool.false_eq_true,false_iff]
    rintro ⟨counted,nonempty,_⟩
    rcases trivial with zero | empty
    · exact counted zero
    · exact nonempty (List.isEmpty_iff.mp empty)
  · rename_i proper
    rw [not_or,List.isEmpty_iff] at proper
    simp only [proper.1,proper.2,ne_eq,not_false_eq_true,true_and]
    cases read : attestationCoverage data bits count [] claims with
    | none =>
      simp only [Bool.false_eq_true,false_iff]
      rintro ⟨all,same⟩
      have accepted : attestationCoverage data bits count [] claims = some ((claims.map (·.validatorIndex)).reverse++[]) :=
        (coverage_from List.nodup_nil).mpr ⟨fun claim listed =>
          ⟨(all claim listed).1,(all claim listed).2,same.subset (List.mem_map_of_mem listed)⟩,rfl,
          by simpa using same.nodup_iff.mpr (marked_nodup bits)⟩
      rw [read] at accepted
      cases accepted
    | some seen =>
      obtain ⟨all,rfl,nodup⟩ := (coverage_from List.nodup_nil).mp read
      rw [List.append_nil,List.nodup_reverse] at nodup
      have inside : claims.map (·.validatorIndex) ⊆ bits.marked := fun index listed => by
        obtain ⟨claim,member,rfl⟩ := List.mem_map.mp listed
        exact (all claim member).2.2
      simp only [List.append_nil,beq_iff_eq,List.length_reverse]
      exact ⟨fun full => ⟨fun claim listed => ⟨(all claim listed).1,(all claim listed).2.1⟩,
        (nodup.subperm inside).perm_of_length_le full.le⟩,fun ⟨_,same⟩ => same.length_eq.symm⟩
end
section
variable {α : Type} [DecidableEq Sig] {signer : α → Nat × Sig}

theorem lookup_none {signatures : List (Nat × Sig)} : signatures.lookup index = none ↔ index ∉ signatures.map Prod.fst := by
  rw [List.lookup_eq_none_iff,List.mem_map]
  constructor
  · rintro apart ⟨entry,listed,rfl⟩
    simpa using apart entry listed
  · intro absent entry listed
    simp only [bne_iff_ne]
    rintro rfl
    exact absent ⟨entry,listed,rfl⟩

theorem merge_from {signatures : List (Nat × Sig)}
    (known : ∀ index, index ∈ signatures.map Prod.fst ↔ index ∈ claims.map fun claim => (signer claim).1)
    (once : (claims.map fun claim => (signer claim).1).Nodup) (accepted : mergeClaimsFrom signer signatures claims incoming = .ok merged) :
    ∃ fresh, merged = claims++fresh ∧ (∀ claim ∈ fresh, claim ∈ incoming) ∧ (merged.map fun claim => (signer claim).1).Nodup ∧
      ∀ claim ∈ incoming, (signer claim).1 ∈ merged.map fun claim => (signer claim).1 := by
  induction incoming generalizing signatures claims with
  | nil =>
    cases accepted
    exact ⟨[],by simp,by simp,once,by simp⟩
  | cons claim rest ih =>
    rw [mergeClaimsFrom] at accepted
    cases found : signatures.lookup (signer claim).1 with
    | some prior =>
      simp only [found] at accepted
      split at accepted
      · obtain ⟨fresh,rfl,inside,nodup,covered⟩ := ih known once accepted
        have present : (signer claim).1 ∈ claims.map fun claim => (signer claim).1 := by
          rw [← known]
          by_contra absent
          rw [lookup_none.mpr absent] at found
          cases found
        refine ⟨fresh,rfl,fun other listed => List.mem_cons_of_mem _ (inside other listed),nodup,?_⟩
        simp only [List.forall_mem_cons,List.map_append,List.mem_append] at covered ⊢
        exact ⟨.inl present,covered⟩
      · cases accepted
    | none =>
      simp only [found] at accepted
      have absent : (signer claim).1 ∉ claims.map fun claim => (signer claim).1 := by
        rw [← known]
        exact lookup_none.mp found
      obtain ⟨fresh,rfl,inside,nodup,covered⟩ := ih (fun index => by simp [← known,or_comm]) (by
          rw [List.map_append,List.nodup_append]
          refine ⟨once,by simp,?_⟩
          rintro index before _ added rfl
          simp only [List.map_cons,List.map_nil,List.mem_singleton] at added
          exact absent (added ▸ before)) accepted
      refine ⟨claim::fresh,by simp,?_,nodup,?_⟩
      · exact List.forall_mem_cons.mpr ⟨by simp,fun other listed => List.mem_cons_of_mem _ (inside other listed)⟩
      · simp only [List.forall_mem_cons]
        exact ⟨by simp,covered⟩
end

theorem union_bitLen (left right : BitVec) : (unionBitVecs left right).bitLen = left.bitLen := by
  simp [unionBitVecs,BitVec.bitLen]

theorem union_marked (same : left.bitLen = right.bitLen) :
    index ∈ (unionBitVecs left right).marked ↔ index ∈ left.marked ∨ index ∈ right.marked := by
  have value (bitmap : BitVec) : ((bitmap.get index).getD false = true) ↔ bitmap.get index = some true := by
    cases bitmap.get index <;> simp
  simp only [mem_marked]
  by_cases inside : index < left.bitLen
  · simp only [unionBitVecs,BitVec.get,List.getElem?_map,List.getElem?_range inside,Option.map_some,Option.some.injEq, Bool.or_eq_true]
    exact or_congr (value left) (value right)
  · have outside (bitmap : BitVec) (long : bitmap.bitLen = left.bitLen) : bitmap.get index = none := List.getElem?_eq_none (by
        change bitmap.bitLen ≤ index
        omega)
    rw [outside _ (union_bitLen left right),outside left rfl,outside right same.symm]
    simp
end Neutrino.Consensus
