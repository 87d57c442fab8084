import Mathlib

-- A database column whose row type is decided by the key, with atomic batches in
-- which a later operation on a key overrides an earlier one.
namespace ColumnStore
variable {K : Type} {Row : K → Type} [DecidableEq K]

abbrev Store (Row : K → Type) := (key : K) → Option (Row key)
def empty : Store Row := fun _ => none

inductive Op (Row : K → Type) where
  | put (key : K) (row : Row key)
  | delete (key : K)

abbrev Batch (Row : K → Type) := List (Op Row)

def Op.key : Op Row → K
  | .put key _ => key
  | .delete key => key

def Op.apply (store : Store Row) : Op Row → Store Row
  | .put key row => Function.update store key (some row)
  | .delete key => Function.update store key none

def write (store : Store Row) (batch : Batch Row) : Store Row := batch.foldl Op.apply store
def prune (keep : K → Bool) (store : Store Row) : Store Row := fun key => if keep key then store key else none
section
variable (store : Store Row)
include store

@[simp] theorem write_nil : write store [] = store := rfl

@[simp] theorem write_cons (op : Op Row) (rest : Batch Row) :
    write store (op::rest) = write (op.apply store) rest := rfl

theorem write_append (first second : Batch Row) : write store (first++second) = write (write store first) second := by
  simp [write]

@[simp] theorem put_apply_self (key : K) (row : Row key) :
    (Op.put key row).apply store key = some row := by simp [Op.apply]

theorem apply_other (op : Op Row) (different : key ≠ op.key) : op.apply store key = store key := by
  cases op <;> simpa [Op.apply,Op.key] using Function.update_of_ne different _ _

theorem write_untouched (batch : Batch Row) (untouched : ∀ op ∈ batch, key ≠ op.key) :
    write store batch key = store key := by
  induction batch generalizing store with
  | nil => rfl
  | cons op rest ih =>
    rw [write_cons,ih _ (fun other member => untouched other (List.mem_cons_of_mem _ member))]
    exact apply_other store op (untouched op (List.mem_cons_self ..))

theorem write_deletes (keys : List K) (key : K) :
    write store (keys.map .delete) key = if key ∈ keys then none else store key := by
  induction keys generalizing store with
  | nil => simp
  | cons head rest ih =>
    rw [List.map_cons,write_cons,ih]
    by_cases same : key = head
    · subst key; simp [Op.apply]
    · rw [apply_other store (.delete head) same]
      simp [same]
end

theorem write_mem {store : Store Row} (present : write store batch key = some row) : store key = some row ∨ .put key row ∈ batch := by
  induction batch generalizing store with
  | nil => exact .inl present
  | cons op rest ih =>
    rw [write_cons] at present
    rcases ih present with held | later
    · by_cases same : key = op.key
      · cases op with
        | put other placed =>
          obtain rfl : key = other := same
          rw [put_apply_self] at held
          obtain rfl := Option.some.inj held
          exact .inr (List.mem_cons_self ..)
        | delete other =>
          obtain rfl : key = other := same
          simp [Op.apply] at held
      · rw [apply_other store op same] at held
        exact .inl held
    · exact .inr (List.mem_cons_of_mem _ later)

theorem write_present {store : Store Row} (source : store key ≠ none ∨ ∃ row, .put key row ∈ batch) (kept : .delete key ∉ batch) :
    write store batch key ≠ none := by
  induction batch generalizing store with
  | nil => exact source.resolve_right (by simp)
  | cons op rest ih =>
    rw [write_cons]
    refine ih ?_ fun gone => kept (List.mem_cons_of_mem _ gone)
    by_cases same : key = op.key
    · cases op with
      | put other placed =>
        obtain rfl : key = other := same
        exact .inl (by simp)
      | delete other =>
        obtain rfl : key = other := same
        exact absurd (List.mem_cons_self ..) kept
    · rw [apply_other store op same]
      rcases source with held | ⟨row,listed⟩
      · exact .inl held
      · rcases List.mem_cons.mp listed with rfl | later
        · exact absurd rfl same
        · exact .inr ⟨row,later⟩

theorem write_put (store : Store Row) (before after : Batch Row) (key : K) (row : Row key)
    (untouched : ∀ op ∈ after, key ≠ op.key) : write store (before ++ .put key row::after) key = some row := by
  rw [write_append,write_cons,write_untouched _ _ untouched,put_apply_self]

-- Dropping some keys and then writing two rows: the shape of a reservation.
variable {dropped : List K} {first second : K}

theorem write_second : write store (dropped.map .delete ++ [.put first one,.put second two]) second = some two := by
  simp [write_append]

theorem write_first (distinct : first ≠ second) :
    write store (dropped.map .delete ++ [.put first one,.put second two]) first = some one := by
  simp only [write_append,write_cons,write_nil]
  rw [apply_other _ (.put second two) distinct]
  exact put_apply_self ..

theorem write_other (notFirst : key ≠ first) (notSecond : key ≠ second) :
    write store (dropped.map .delete ++ [.put first one,.put second two]) key = if key ∈ dropped then none else store key := by
  simp only [write_append,write_cons,write_nil]
  rw [apply_other _ (.put second two) notSecond,apply_other _ (.put first one) notFirst,write_deletes]

theorem write_kept (notFirst : key ≠ first) (notSecond : key ≠ second) (kept : key ∉ dropped) :
    write store (dropped.map .delete ++ [.put first one,.put second two]) key = store key :=
  (write_other notFirst notSecond).trans (if_neg kept)

theorem write_from (notFirst : key ≠ first) (notSecond : key ≠ second)
    (present : write store (dropped.map .delete ++ [.put first one,.put second two]) key = some row) :
    key ∉ dropped ∧ store key = some row := by
  rw [write_other notFirst notSecond] at present
  split at present
  · cases present
  · rename_i kept
    exact ⟨kept,present⟩
end ColumnStore
