import Neutrino.Library.WeightedQuorum
import Neutrino.Consensus.Verification

-- The active set as a weighted electorate; one key may hold several seats.
namespace Neutrino.Consensus
open WeightedQuorum
variable {Hash Key Sig : Type} (validators : List (Validator Hash Key))

def seatStake (seat : Fin validators.length) : Nat := (validators.get seat).effectiveStake
def seatKey (seat : Fin validators.length) : Key := (validators.get seat).pubkey
def unslashedSeats : Finset (Fin validators.length) := Finset.univ.filter fun seat => (validators.get seat).slashed = false
def markedSeats (bits : BitVec) : Finset (Fin validators.length) := Finset.univ.filter fun seat => bits.get seat = some true

def byzantineSeats (honest : Key → Prop) [DecidablePred honest] : Finset (Fin validators.length) :=
  (unslashedSeats validators).filter fun seat => ¬honest (seatKey validators seat)

def byzantineStake (honest : Key → Prop) [DecidablePred honest] : Nat :=
  unslashedStake (validators.filter fun validator => ¬honest validator.pubkey)

theorem sum_seats (measure : Validator Hash Key → Nat) :
    ∑ seat : Fin validators.length, measure (validators.get seat) = (validators.map measure).sum := by
  simp

theorem sum_filter_map (keep : Validator Hash Key → Bool) : ((validators.filter keep).map (·.effectiveStake)).sum =
    (validators.map fun validator => if keep validator then validator.effectiveStake else 0).sum := by
  induction validators with
  | nil => rfl
  | cons validator rest ih => by_cases kept : keep validator <;> simp [kept,ih]

theorem total_unslashed : total (seatStake validators) (unslashedSeats validators) = unslashedStake validators := by
  unfold total unslashedSeats unslashedStake
  rw [Finset.sum_filter,sum_filter_map,← sum_seats]
  simp [seatStake]

theorem total_byzantine (honest : Key → Prop) [DecidablePred honest] :
    total (seatStake validators) (byzantineSeats validators honest) = byzantineStake validators honest := by
  unfold total byzantineSeats unslashedSeats byzantineStake unslashedStake
  rw [List.filter_filter,Finset.filter_filter,Finset.sum_filter,sum_filter_map,← sum_seats]
  refine Finset.sum_congr rfl (fun seat _ => ?_)
  cases slashed : (validators.get seat).slashed <;> by_cases right : honest (validators.get seat).pubkey <;>
    simp_all [seatStake,seatKey]

theorem signers_from_cons (counted : signersFrom bits ((validator,index)::rest) = some (keys,stake)) :
    (bits.get index = some true ∧ isActive validator = true ∧ ∃ keys' stake', signersFrom bits rest = some (keys',stake') ∧
      keys = validator.pubkey::keys' ∧ stake = validator.effectiveStake+stake') ∨
    (bits.get index ≠ some true ∧ signersFrom bits rest = some (keys,stake)) := by
  unfold signersFrom at counted
  split at counted
  · cases counted
  · split at counted
    · rename_i marked
      split at counted
      · rename_i active
        obtain ⟨⟨keys',stake'⟩,found,same⟩ := Option.map_eq_some_iff.mp counted
        cases same
        exact .inl ⟨marked,active,keys',stake',found,rfl,rfl⟩
      · cases counted
    · rename_i unmarked
      exact .inr ⟨unmarked,counted⟩

theorem signers_from_ok {seats : List (Validator Hash Key × Nat)} (counted : signersFrom bits seats = some (keys,stake)) :
    (∀ entry ∈ seats, bits.get entry.2 = some true → isActive entry.1 = true ∧ entry.1.pubkey ∈ keys) ∧
      stake = (seats.map fun entry => if bits.get entry.2 = some true then entry.1.effectiveStake else 0).sum := by
  induction seats generalizing keys stake with
  | nil => cases counted; exact ⟨by simp,rfl⟩
  | cons entry rest ih =>
    obtain ⟨validator,index⟩ := entry
    obtain ⟨marked,active,keys',stake',found,rfl,rfl⟩ | ⟨unmarked,found⟩ := signers_from_cons counted
    · obtain ⟨members,sum⟩ := ih found
      refine ⟨?_,by simp [marked,sum]⟩
      intro entry member set
      rcases List.mem_cons.mp member with rfl | later
      · exact ⟨active,List.mem_cons_self⟩
      · exact ⟨(members entry later set).1,List.mem_cons_of_mem _ (members entry later set).2⟩
    · obtain ⟨members,sum⟩ := ih found
      exact ⟨List.forall_mem_cons.mpr ⟨fun set => absurd set unmarked,members⟩,by simp [unmarked,sum]⟩

theorem sum_indexed (measure : Validator Hash Key × Nat → Nat) : (validators.zipIdx.map measure).sum =
    ∑ seat : Fin validators.length, measure (validators.get seat,seat) := by
  rw [← List.sum_ofFn]
  congr 1
  apply List.ext_getElem <;> simp

theorem signers_marked {validators : List (Validator Hash Key)} (counted : signers validators bits = some (keys,stake)) :
    stake = total (seatStake validators) (markedSeats validators bits) ∧ markedSeats validators bits ⊆ unslashedSeats validators ∧
      ∀ seat ∈ markedSeats validators bits, seatKey validators seat ∈ keys := by
  obtain ⟨members,sum⟩ := signers_from_ok counted
  have entry : ∀ seat ∈ markedSeats validators bits, isActive (validators.get seat) = true ∧ seatKey validators seat ∈ keys := by
    intro seat marked
    refine members (validators.get seat,seat) ?_ (Finset.mem_filter.mp marked).2
    simp [List.mem_zipIdx_iff_getElem?]
  refine ⟨?_,?_,fun seat marked => (entry seat marked).2⟩
  · rw [sum,sum_indexed]
    unfold total markedSeats
    rw [Finset.sum_filter]
    rfl
  · intro seat marked
    have active := (entry seat marked).1
    simp only [isActive,Bool.and_eq_true,Bool.not_eq_true'] at active
    exact Finset.mem_filter.mpr ⟨Finset.mem_univ _,active.1⟩

theorem QuorumSigned.supermajority {crypto : Crypto Hash Key Sig} {validators : List (Validator Hash Key)}
    (signed : QuorumSigned crypto domain validators fraction data aggregate)
    (authentic : Authentic crypto correct log aggregate.signature) :
    Supermajority (seatStake validators) (unslashedSeats validators) (markedSeats validators aggregate.aggregationBits) ∧
      ∀ seat ∈ markedSeats validators aggregate.aggregationBits, correct (seatKey validators seat) →
        (seatKey validators seat,.vote domain data) ∈ log := by
  obtain ⟨keys,stake,whole,counted,summed,valid,reached,joint⟩ := signed
  obtain ⟨rfl,inside,members⟩ := signers_marked counted
  refine ⟨⟨inside,?_⟩,fun seat marked honest => authentic.joint keys _ _ joint (members seat marked) honest⟩
  simp only [quorumFractionValid,Bool.and_eq_true,bne_iff_ne,decide_eq_true_eq] at valid
  simp only [quorumReached,decide_eq_true_eq] at reached
  unfold activeStakeTotal at summed
  split at summed
  · cases summed
    rw [total_unslashed]
    exact two_thirds (by omega) (by omega) reached
  · cases summed
end Neutrino.Consensus
