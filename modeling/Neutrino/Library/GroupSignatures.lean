import Mathlib

-- Same-message signature aggregation as a group sum.
namespace GroupSignatures

-- The checks a program calls, over encoded keys and signatures.
structure Scheme (Key Message Sig : Type) where
  verify : Key → Message → Sig → Bool
  aggregate : List Key → Message → Sig → Bool
  decodes : Sig → Bool
  sum : List Sig → Sig

def sumPoints [AddCommMonoid A] (decode : α → Option A) : List α → Option A
  | [] => some 0
  | item::rest => (decode item).bind fun point => (sumPoints decode rest).map (point + ·)

structure GroupSums (scheme : Scheme Key Message Sig) (K G : Type) [AddCommGroup K] [AddCommGroup G] where
  key : Key → Option K
  point : Sig → Option G
  encode : G → Sig
  share : Message → K →+ G
  verify_iff : scheme.verify signer message signature = true ↔
    ∃ place, key signer = some place ∧ point signature = some (share message place)
  aggregate_iff : scheme.aggregate signers message signature = true ↔
    signers ≠ [] ∧ ∃ place, sumPoints key signers = some place ∧ place ≠ 0 ∧ point signature = some (share message place)
  decodes_iff : scheme.decodes signature = true ↔ (point signature).isSome = true
  sum_eq : sumPoints point signatures = some total → scheme.sum signatures = encode total
  point_encode : total ≠ 0 → point (encode total) = some total
  -- The message point is a generator: only the identity key signs with the identity.
  share_zero : share message place = 0 → place = 0

section
variable [AddCommMonoid A] {decode : α → Option A}

theorem sumPoints_cons : sumPoints decode (item::rest) = some total ↔
    ∃ point others, decode item = some point ∧ sumPoints decode rest = some others ∧ point + others = total := by
  simp only [sumPoints,Option.bind_eq_some_iff,Option.map_eq_some_iff]
  exact ⟨fun ⟨point,found,others,summed,same⟩ => ⟨point,others,found,summed,same⟩,
    fun ⟨point,others,found,summed,same⟩ => ⟨point,found,others,summed,same⟩⟩

theorem sumPoints_append : sumPoints decode (left++right) = some total ↔
    ∃ one two, sumPoints decode left = some one ∧ sumPoints decode right = some two ∧ one + two = total := by
  induction left generalizing total with
  | nil => simp [sumPoints]
  | cons item rest ih =>
    simp only [List.cons_append,sumPoints_cons,ih]
    constructor
    · rintro ⟨point,_,found,⟨one,two,first,second,rfl⟩,rfl⟩
      exact ⟨_,two,⟨point,one,found,first,rfl⟩,second,add_assoc _ _ _⟩
    · rintro ⟨_,two,⟨point,one,found,first,rfl⟩,second,rfl⟩
      exact ⟨point,_,found,⟨one,two,first,second,rfl⟩,(add_assoc _ _ _).symm⟩

theorem sumPoints_perm (same : left.Perm right) : sumPoints decode left = sumPoints decode right := by
  induction same with
  | nil => rfl
  | cons item _ ih => simp only [sumPoints,ih]
  | swap one two rest =>
    cases first : decode one <;> cases second : decode two <;> cases summed : sumPoints decode rest <;>
      simp [sumPoints,first,second,summed,add_left_comm]
  | trans _ _ ih ih' => exact ih.trans ih'
end
variable {scheme : Scheme Key Message Sig} {K G : Type} [AddCommGroup K] [AddCommGroup G]

namespace GroupSums
variable (group : GroupSums scheme K G)
include group

theorem aggregate_perm (same : left.Perm right) : scheme.aggregate left message signature = scheme.aggregate right message signature := by
  rw [Bool.eq_iff_iff,group.aggregate_iff,group.aggregate_iff,sumPoints_perm same]
  simp only [ne_eq,← List.length_eq_zero_iff,same.length_eq]

theorem shares_sum {signed : List (Key × Sig)} (verified : ∀ pair ∈ signed, scheme.verify pair.1 message pair.2 = true) :
    ∃ place, sumPoints group.key (signed.map Prod.fst) = some place ∧
      sumPoints group.point (signed.map Prod.snd) = some (group.share message place) := by
  induction signed with
  | nil => exact ⟨0,rfl,by simp [sumPoints]⟩
  | cons pair rest ih =>
    obtain ⟨place,found,held⟩ := group.verify_iff.mp (verified pair (by simp))
    obtain ⟨others,places,points⟩ := ih fun other listed => verified other (by simp [listed])
    refine ⟨place + others,sumPoints_cons.mpr ⟨_,_,found,places,rfl⟩,?_⟩
    exact sumPoints_cons.mpr ⟨_,_,held,points,(map_add _ _ _).symm⟩

theorem aggregate_extend {signed : List (Key × Sig)} (joint : scheme.aggregate keys message existing = true)
    (verified : ∀ pair ∈ signed, scheme.verify pair.1 message pair.2 = true)
    (apart : ∀ place, sumPoints group.key (keys++signed.map Prod.fst) = some place → place ≠ 0) :
    scheme.aggregate (keys++signed.map Prod.fst) message (scheme.sum (existing::signed.map Prod.snd)) = true := by
  obtain ⟨nonempty,place,summed,-,held⟩ := group.aggregate_iff.mp joint
  obtain ⟨others,places,points⟩ := group.shares_sum verified
  have whole : sumPoints group.key (keys++signed.map Prod.fst) = some (place + others) := sumPoints_append.mpr ⟨_,_,summed,places,rfl⟩
  have total : sumPoints group.point (existing::signed.map Prod.snd) = some (group.share message (place + others)) :=
    sumPoints_cons.mpr ⟨_,_,held,points,(map_add _ _ _).symm⟩
  have distinct := apart _ whole
  refine group.aggregate_iff.mpr ⟨by simp [nonempty],_,whole,distinct,?_⟩
  rw [group.sum_eq total,group.point_encode fun zero => distinct (group.share_zero zero)]

theorem aggregate_decodes (joint : scheme.aggregate keys message signature = true) : scheme.decodes signature = true := by
  obtain ⟨_,_,_,_,held⟩ := group.aggregate_iff.mp joint
  exact group.decodes_iff.mpr (by rw [held]; rfl)
end GroupSums
end GroupSignatures
