import Mathlib

-- Validation in Except: a checker is a sequence of requirements with their errors,
-- and callers invert an accepted run into the requirements it met.
namespace Checks

def ensure (condition : Prop) [Decidable condition] (refusal : ε) : Except ε Unit :=
  if condition then .ok () else .error refusal

section
variable {condition : Prop} [Decidable condition] {refusal reason : ε}

@[simp] theorem ensure_ok : ensure condition refusal = .ok done ↔ condition := by
  unfold ensure
  split <;> simp_all

@[simp] theorem ensure_error : ensure condition refusal = .error reason ↔ ¬condition ∧ refusal = reason := by
  unfold ensure
  split <;> simp_all

theorem ensure_pos (holds : condition) : ensure condition refusal = .ok () := ensure_ok.mpr holds
theorem ensure_neg (fails : ¬condition) : ensure condition refusal = .error refusal := ensure_error.mpr ⟨fails,rfl⟩

theorem ensure_and [Decidable other] : ensure (condition ∧ other) refusal = (ensure condition refusal >>= fun _ => ensure other refusal) := by
  by_cases condition <;> simp_all [ensure,bind,Except.bind]
end

@[simp] theorem bind_ok {head : Except ε α} : (head >>= rest) = .ok result ↔ ∃ middle, head = .ok middle ∧ rest middle = .ok result := by
  cases head <;> simp [bind,Except.bind]

theorem ok_bind : (Except.ok value >>= rest) = rest value := rfl

theorem bind_error {head : Except ε α} : (head >>= rest) = .error reason ↔
      head = .error reason ∨ ∃ middle, head = .ok middle ∧ rest middle = .error reason := by
  cases head <;> simp [bind,Except.bind]

@[simp] theorem pure_ok : (pure value : Except ε α) = .ok result ↔ value = result := by
  simp [pure,Except.pure]

@[simp] theorem map_ok {checked : Except ε α} : checked.map wrap = .ok result ↔ ∃ inner, checked = .ok inner ∧ wrap inner = result := by
  cases checked <;> simp [Except.map]

theorem bind_map {head : Except ε α} : (head >>= rest).map wrap = head >>= fun value => (rest value).map wrap := by
  cases head <;> rfl

@[simp] theorem mapError_ok {checked : Except ε α} : checked.mapError wrap = .ok result ↔ checked = .ok result := by
  cases checked <;> simp [Except.mapError]

theorem isOk_iff {checked : Except ε α} : checked.isOk = true ↔ ∃ result, checked = .ok result := by
  cases checked <;> simp [Except.isOk,Except.toBool]

def required (found : Option α) (refusal : ε) : Except ε α :=
  match found with
  | some value => .ok value
  | none => .error refusal

theorem required_some {refusal : ε} : required (some value) refusal = .ok value := rfl

@[simp] theorem required_ok {refusal : ε} : required found refusal = .ok value ↔ found = some value := by
  cases found <;> simp [required]

def each (check : α → Except ε Unit) : List α → Except ε Unit
  | [] => .ok ()
  | item::rest => do
    check item
    each check rest

theorem each_ok {check : α → Except ε Unit} {items : List α} : each check items = .ok () ↔ ∀ item ∈ items, check item = .ok () := by
  induction items with
  | nil => simp [each]
  | cons item rest ih =>
    simp only [each,bind_ok,ih,List.forall_mem_cons]
    exact ⟨fun ⟨_,first,others⟩ => ⟨first,others⟩,fun ⟨first,others⟩ => ⟨(),first,others⟩⟩

theorem mapM_ok {step : α → Except ε β} {items : List α}
    (each : ∀ item ∈ items, step item = .ok (result item)) : items.mapM step = .ok (items.map result) := by
  induction items with
  | nil => rfl
  | cons item rest ih =>
    rw [List.mapM_cons,each item (by simp),ok_bind,ih fun other listed => each other (by simp [listed]),ok_bind]
    rfl

theorem foldlM_mem {α γ ε : Type} {items : List α} {before after : List γ} {step : List γ → α → Except ε (List γ)} {adds : α → γ → Prop}
    (each : ∀ before item after, step before item = .ok after → ∀ entry, entry ∈ after ↔ entry ∈ before ∨ adds item entry)
    (done : items.foldlM step before = .ok after) (entry : γ) : entry ∈ after ↔ entry ∈ before ∨ ∃ item ∈ items, adds item entry := by
  induction items generalizing before with
  | nil =>
    cases done
    simp
  | cons item rest ih =>
    obtain ⟨middle,first,later⟩ := bind_ok.mp done
    rw [ih later,each _ _ _ first]
    simp [or_assoc]

theorem completed_check {result : Except ε α} (holds : result.toOption.any check = true) :
    ∃ done, result = .ok done ∧ check done = true := by
  cases result with
  | error => exact nomatch holds
  | ok done => exact ⟨done,rfl,holds⟩

-- What holds of a check's value if it passes, and of its refusal if it fails.
def Ends (passes : α → Prop) (fails : ε → Prop) : Except ε α → Prop
  | .ok value => passes value
  | .error reason => fails reason

variable {passes : α → Prop} {fails : ε → Prop}

@[simp] theorem ends_ok : Ends passes fails (.ok value) ↔ passes value := Iff.rfl
@[simp] theorem ends_pure : Ends passes fails (pure value) ↔ passes value := Iff.rfl

@[simp] theorem ends_bind {head : Except ε β} :
    Ends passes fails (head >>= rest) ↔ Ends (fun value => Ends passes fails (rest value)) fails head := by
  cases head <;> exact Iff.rfl

@[simp] theorem ends_ensure {passes : Unit → Prop} [Decidable condition] :
    Ends passes fails (ensure condition refusal) ↔ (condition → passes ()) ∧ (¬condition → fails refusal) := by
  by_cases known : condition <;> simp [ensure,known,Ends]

@[simp] theorem ends_required : Ends passes fails (required found refusal) ↔
    (∀ value, found = some value → passes value) ∧ (found = none → fails refusal) := by
  cases found <;> simp [required,Ends]

@[simp] theorem ends_mapError {checked : Except δ α} :
    Ends passes fails (checked.mapError wrap) ↔ Ends passes (fun reason => fails (wrap reason)) checked := by
  cases checked <;> exact Iff.rfl

@[simp] theorem ends_true {checked : Except ε α} : Ends (fun _ => True) (fun _ => True) checked := by
  cases checked <;> trivial
end Checks
