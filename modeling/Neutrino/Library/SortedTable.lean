import Mathlib

-- Lists kept strictly sorted by a key, as a canonical record stores them.
structure SortedTable {A K : Type} [LinearOrder K] (key : A → K) where
  items : List A
  sorted : (items.map key).Pairwise (· < ·)

namespace SortedTable
variable {A K : Type} [LinearOrder K] {key : A → K}

instance [DecidableEq A] : DecidableEq (SortedTable key) := fun left right =>
  decidable_of_iff (left.items = right.items) ⟨fun same => by cases left; cases right; cases same; rfl,congrArg _⟩

def empty : SortedTable key := ⟨[],List.Pairwise.nil⟩
def get (table : SortedTable key) (wanted : K) : Option A := table.items.find? (key · = wanted)
def contains (table : SortedTable key) (wanted : K) : Bool := (table.get wanted).isSome

def place (key : A → K) (item : A) : List A → List A
  | [] => [item]
  | head::rest =>
    if key head < key item then head::place key item rest
    else if key head = key item then item::rest
    else item::head::rest

variable {item : A} {items : List A}

theorem mem_place (member : other ∈ place key item items) : other = item ∨ other ∈ items := by
  induction items with
  | nil => simpa [place] using member
  | cons head rest ih =>
    rw [place] at member
    split at member
    · rcases List.mem_cons.mp member with rfl | later
      · exact .inr (by simp)
      · rcases ih later with rfl | found
        · exact .inl rfl
        · exact .inr (List.mem_cons_of_mem _ found)
    · split at member
      · rcases List.mem_cons.mp member with rfl | later
        · exact .inl rfl
        · exact .inr (List.mem_cons_of_mem _ later)
      · simpa using member

theorem place_sorted (sorted : (items.map key).Pairwise (· < ·)) : ((place key item items).map key).Pairwise (· < ·) := by
  induction items with
  | nil => simp [place]
  | cons head rest ih =>
    rw [List.map_cons,List.pairwise_cons] at sorted
    obtain ⟨first,later⟩ := sorted
    rw [place]
    split
    · rename_i before
      rw [List.map_cons,List.pairwise_cons]
      refine ⟨fun wanted found => ?_,ih later⟩
      obtain ⟨other,member,rfl⟩ := List.mem_map.mp found
      rcases mem_place member with rfl | old
      · exact before
      · exact first _ (List.mem_map.mpr ⟨other,old,rfl⟩)
    · rename_i notBefore
      split
      · rename_i same
        rw [List.map_cons,List.pairwise_cons,← same]
        exact ⟨first,later⟩
      · rename_i apart
        have after : key item < key head := lt_of_le_of_ne (not_lt.mp notBefore) (Ne.symm apart)
        rw [List.map_cons,List.map_cons,List.pairwise_cons,List.pairwise_cons]
        refine ⟨fun wanted found => ?_,first,later⟩
        rcases List.mem_cons.mp found with rfl | old
        · exact after
        · exact lt_trans after (first wanted old)

def upsert (table : SortedTable key) (item : A) : SortedTable key := ⟨place key item table.items,place_sorted table.sorted⟩

def remove (table : SortedTable key) (wanted : K) : SortedTable key :=
  ⟨table.items.filter (key · ≠ wanted),table.sorted.sublist (List.Sublist.map _ List.filter_sublist)⟩

theorem find_place (sorted : (items.map key).Pairwise (· < ·)) : (place key item items).find? (key · = wanted) =
      if key item = wanted then some item else items.find? (key · = wanted) := by
  induction items with
  | nil => by_cases hit : key item = wanted <;> simp [place,hit]
  | cons head rest ih =>
    rw [List.map_cons,List.pairwise_cons] at sorted
    rw [place]
    split
    · rename_i before
      by_cases here : key head = wanted
      · have apart : key item ≠ wanted := fun same => absurd before (by rw [here,same]; exact lt_irrefl _)
        simp [here,apart]
      · rw [List.find?_cons_of_neg (by simpa using here),List.find?_cons_of_neg (by simpa using here)]
        exact ih sorted.2
    · split
      · rename_i same
        by_cases hit : key item = wanted
        · simp [hit]
        · have apart : key head ≠ wanted := same ▸ hit
          simp [hit,apart]
      · by_cases hit : key item = wanted <;> simp [hit]

theorem get_upsert (table : SortedTable key) (item : A) (wanted : K) :
    (table.upsert item).get wanted = if key item = wanted then some item else table.get wanted :=
  find_place table.sorted

theorem get_remove (table : SortedTable key) (gone wanted : K) :
    (table.remove gone).get wanted = if wanted = gone then none else table.get wanted := by
  rw [get,get,remove]
  simp only [List.find?_filter]
  by_cases same : wanted = gone
  · rw [if_pos same,List.find?_eq_none]
    intro item _
    subst same
    simp
  · rw [if_neg same]
    congr 1
    funext item
    by_cases hit : key item = wanted
    · simp [hit,same]
    · simp [hit]

theorem distinct (table : SortedTable key) : (table.items.map key).Nodup := table.sorted.imp fun less => ne_of_lt less
end SortedTable
