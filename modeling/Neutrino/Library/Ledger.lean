import Mathlib

-- Finite tables whose row type is decided by the key: the total worth moves by what
-- a written row gains or loses.
namespace Ledger
variable {K : Type} {Row : K → Type} [DecidableEq K]

abbrev Table (Row : K → Type) := AList Row

-- Reads outside a set of keys that may change give the same row.
def Frame (touched : K → Prop) (before after : Table Row) : Prop := ∀ key, ¬touched key → after.lookup key = before.lookup key

section
variable {touched wider : K → Prop}

theorem Frame.refl (table : Table Row) : Frame touched table table := fun _ _ => rfl

theorem Frame.trans (first : Frame touched before middle) (second : Frame touched middle after) : Frame touched before after :=
  fun key outside => (second key outside).trans (first key outside)

theorem Frame.widen (frame : Frame touched before after) (wide : ∀ key, touched key → wider key) : Frame wider before after :=
  fun key outside => frame key (outside ∘ wide key)

theorem Frame.insert (frame : Frame touched before after) (key : K) (inside : touched key) (row : Row key) :
    Frame touched before (after.insert key row) := by
  intro other outside
  have apart : other ≠ key := fun same => outside (same ▸ inside)
  rw [AList.lookup_insert_ne apart]
  exact frame other outside

theorem Frame.erase (frame : Frame touched before after) (key : K) (inside : touched key) : Frame touched before (after.erase key) := by
  intro other outside
  have apart : other ≠ key := fun same => outside (same ▸ inside)
  rw [AList.lookup_erase_ne apart]
  exact frame other outside
end
variable (worth : (key : K) → Row key → Nat)

def total (table : Table Row) : Nat := (table.entries.map fun entry => worth entry.1 entry.2).sum
def held (table : Table Row) (key : K) : Nat := ((table.lookup key).map (worth key)).getD 0

theorem total_split (entries : List (Sigma Row)) (distinct : entries.NodupKeys) (key : K) :
    ((entries.kerase key).map fun entry => worth entry.1 entry.2).sum + ((entries.dlookup key).map (worth key)).getD 0 =
      (entries.map fun entry => worth entry.1 entry.2).sum := by
  induction entries with
  | nil => rfl
  | cons entry rest ih =>
    obtain ⟨head,row⟩ := entry
    by_cases same : key = head
    · subst same
      simp [List.kerase_cons_eq,List.dlookup_cons_eq,Nat.add_comm]
    · have later := ih (List.nodupKeys_cons.mp distinct).2
      rw [List.kerase_cons_ne same,List.dlookup_cons_ne _ _ same]
      simp only [List.map_cons,List.sum_cons]
      omega

theorem total_insert (table : Table Row) (key : K) (row : Row key) :
    total worth (table.insert key row) + held worth table key = total worth table + worth key row := by
  have split := total_split worth table.entries table.nodupKeys key
  simp only [total,held,AList.lookup,AList.entries_insert,List.map_cons,List.sum_cons] at split ⊢
  omega

theorem total_erase (table : Table Row) (key : K) : total worth (table.erase key) + held worth table key = total worth table :=
  total_split worth table.entries table.nodupKeys key

-- What changes only rows of no worth keeps the total.
theorem total_frame {touched : K → Prop} (idle : ∀ key row, touched key → worth key row = 0) {before after : Table Row}
    (frame : Frame touched before after) : total worth after = total worth before := by
  let valued (entry : Sigma Row) : Bool := worth entry.1 entry.2 ≠ 0
  have only (entries : List (Sigma Row)) : ((entries.filter valued).map fun entry => worth entry.1 entry.2).sum =
      (entries.map fun entry => worth entry.1 entry.2).sum := by
    induction entries with
    | nil => rfl
    | cons entry rest ih =>
      by_cases none : worth entry.1 entry.2 = 0
      · rw [List.filter_cons_of_neg (by simp [valued,none]),ih,List.map_cons,none,List.sum_cons,Nat.zero_add]
      · rw [List.filter_cons_of_pos (by simp [valued,none]),List.map_cons,List.sum_cons,ih,List.map_cons,List.sum_cons]
  have same : (after.entries.filter valued).Perm (before.entries.filter valued) := by
    rw [List.perm_ext_iff_of_nodup (after.nodupKeys.nodup.filter _) (before.nodupKeys.nodup.filter _)]
    rintro ⟨key,row⟩
    simp only [List.mem_filter,← List.mem_dlookup_iff after.nodupKeys,← List.mem_dlookup_iff before.nodupKeys]
    refine and_congr_left fun some => ?_
    have agree := frame key fun inside => by simp [valued,idle key row inside] at some
    rw [AList.lookup,AList.lookup] at agree
    rw [agree]
  rw [total,total,← only,← only before.entries]
  exact (same.map _).sum_nat

theorem held_le_total (table : Table Row) (key : K) : held worth table key ≤ total worth table := by
  have split := total_erase worth table key
  omega
end Ledger
