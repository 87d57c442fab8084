import Mathlib

-- Intersection of weighted quorums, each of two thirds of the electorate's weight.
namespace WeightedQuorum
variable {I : Type} (weight : I → Nat)

def total (members : Finset I) : Nat := ∑ member ∈ members, weight member
def Supermajority (electorate quorum : Finset I) : Prop := quorum ⊆ electorate ∧ 2 * total weight electorate ≤ 3 * total weight quorum
def Minority (electorate faulty : Finset I) : Prop := 3 * total weight faulty < total weight electorate

theorem two_thirds (positive : 0 < denominator)
    (fraction : 2 * denominator ≤ 3 * numerator) (reached : whole * numerator ≤ stake * denominator) : 2 * whole ≤ 3 * stake := by
  have scaled : (2 * whole) * denominator ≤ (3 * stake) * denominator := by
    calc (2 * whole) * denominator = whole * (2 * denominator) := by ring
      _ ≤ whole * (3 * numerator) := Nat.mul_le_mul_left _ fraction
      _ = 3 * (whole * numerator) := by ring
      _ ≤ 3 * (stake * denominator) := Nat.mul_le_mul_left _ reached
      _ = (3 * stake) * denominator := by ring
  exact Nat.le_of_mul_le_mul_right scaled positive

theorem total_mono (included : smaller ⊆ larger) : total weight smaller ≤ total weight larger := Finset.sum_le_sum_of_subset included

theorem correct_in_both [DecidableEq I] (one : Supermajority weight electorate first) (two : Supermajority weight electorate second)
    (few : Minority weight electorate faulty) : ∃ member ∈ first, member ∈ second ∧ member ∉ faulty := by
  by_contra none
  have inside : first ∩ second ⊆ faulty := by
    intro member both
    obtain ⟨inFirst,inSecond⟩ := Finset.mem_inter.mp both
    by_contra correct
    exact none ⟨member,inFirst,inSecond,correct⟩
  have union : total weight (first ∪ second) ≤ total weight electorate := total_mono weight (Finset.union_subset one.1 two.1)
  have shared := total_mono weight inside
  have counted : total weight (first ∪ second) + total weight (first ∩ second) =
      total weight first + total weight second := Finset.sum_union_inter
  have := one.2
  have := two.2
  unfold Minority at few
  omega
end WeightedQuorum
