import Mathlib

-- The total size of a keyed store's rows, and what one written row does to it.

namespace Tally

variable {κ : Type} [DecidableEq κ] {ν : κ → Type} (size : ∀ key, ν key → Nat)

def tally (rows : AList ν) : Nat := (rows.entries.map fun row => size row.1 row.2).sum
def sizeAt (rows : AList ν) (key : κ) : Nat := (rows.lookup key).elim 0 (size key)

variable {size}

theorem sum_kerase (rows : List (Sigma ν)) (key : κ) : (rows.map fun row => size row.1 row.2).sum =
      (rows.dlookup key).elim 0 (size key) + ((rows.kerase key).map fun row => size row.1 row.2).sum := by
  induction rows with
  | nil => rfl
  | cons row rest ih =>
    by_cases same : key = row.1
    · subst same
      rw [List.kerase_cons_eq rfl,List.map_cons,List.sum_cons,List.dlookup_cons_eq]
      rfl
    · rw [List.kerase_cons_ne same,List.map_cons,List.map_cons,List.sum_cons,List.sum_cons, List.dlookup_cons_ne _ _ same,ih]
      omega

theorem tally_erase (rows : AList ν) (key : κ) : tally size rows = sizeAt size rows key + tally size (rows.erase key) :=
  sum_kerase rows.entries key

theorem tally_insert (rows : AList ν) (key : κ) (value : ν key) :
    tally size (rows.insert key value) = size key value + tally size (rows.erase key) := rfl

theorem tally_le {ι : Type} (name : κ → ι) {limit : ι → Nat} {all : List ι}
    (apart : ∀ one ∈ rows, ∀ two ∈ rows, name one = name two → one = two)
    (within : ∀ key value, rows.lookup key = some value → name key ∈ all ∧ size key value ≤ limit (name key)) :
    tally size rows ≤ (all.map limit).sum := by
  have present {row : Sigma ν} (listed : row ∈ rows.entries) : rows.lookup row.1 = some row.2 := AList.mem_lookup_iff.mpr listed
  have bounded : tally size rows ≤ ((rows.keys.map name).map limit).sum := by
    rw [AList.keys,List.keys,List.map_map,List.map_map]
    exact List.sum_le_sum fun row listed => (within row.1 row.2 (present listed)).2
  have once : (rows.keys.map name).Nodup := rows.keys_nodup.map_on apart
  have named : rows.keys.map name ⊆ all := by
    intro label listed
    obtain ⟨key,held,rfl⟩ := List.mem_map.mp listed
    obtain ⟨value,found⟩ := Option.isSome_iff_exists.mp (AList.lookup_isSome.mpr held)
    exact (within key value found).1
  obtain ⟨chosen,same,inside⟩ := once.subperm named
  exact bounded.trans ((same.map limit).sum_eq ▸ (inside.map limit).sum_le_sum (by simp))
end Tally
