import Mathlib

-- Stateful programs that may fail: an aborted program leaves the effects before it.
namespace Effects
variable {ε σ α β : Type}

def Triple (before : σ → Prop) (program : EStateM ε σ α) (after : α → σ → Prop) (aborted : ε → σ → Prop) : Prop :=
  ∀ state, before state → match program state with
    | .ok value next => after value next
    | .error reason next => aborted reason next

def attempt (result : Except ε α) : EStateM ε σ α := fun state =>
  match result with
  | .ok value => .ok value state
  | .error reason => .error reason state

section
variable {before : σ → Prop} {after : α → σ → Prop} {aborted : ε → σ → Prop}

theorem triple_bind {first : EStateM ε σ β} (head : Triple before first middle aborted) (tail : ∀ value, Triple (middle value) (rest value) after aborted) :
    Triple before (first >>= rest) after aborted := by
  intro state holds
  have entered := head state holds
  change match EStateM.bind first rest state with
    | .ok value next => after value next
    | .error reason next => aborted reason next
  unfold EStateM.bind
  cases ran : first state with
  | ok value next => rw [ran] at entered; exact tail value next entered
  | error reason next => rw [ran] at entered; exact entered

theorem triple_weaken (entry : ∀ state, before state → narrower state)
    (proved : Triple narrower program wider aborted) (exit : ∀ value state, wider value state → after value state) :
    Triple before program after aborted := by
  intro state holds
  have result := proved state (entry state holds)
  cases ran : program state with
  | ok value next => rw [ran] at result; exact exit value next result
  | error reason next => rw [ran] at result; exact result

theorem triple_attempt {result : Except ε α} (returned : ∀ value state, result = .ok value → before state → after value state)
    (refused : ∀ reason state, result = .error reason → before state → aborted reason state) : Triple before (attempt result) after aborted := by
  intro state holds
  cases result with
  | ok value => exact returned value state rfl holds
  | error reason => exact refused reason state rfl holds

theorem triple_get {after : σ → σ → Prop} (holds : ∀ state, before state → after state state) :
    Triple before (get : EStateM ε σ σ) after aborted := holds

theorem triple_modify {after : Unit → σ → Prop} (holds : ∀ state, before state → after () (change state)) :
    Triple before (modify change : EStateM ε σ Unit) after aborted := holds

theorem triple_fact (proved : fact → Triple before program after aborted) :
    Triple (fun state => before state ∧ fact) program after aborted :=
  fun state ⟨holds,known⟩ => proved known state holds
end

-- What a program hands back: its state if it ends, its refusal without the state it left.
def result (program : EStateM ε σ Unit) (state : σ) : Except ε σ :=
  match program state with
  | .ok _ next => .ok next
  | .error reason _ => .error reason

section
variable {change : σ → σ}

@[simp] theorem result_attempt {checked : Except ε α} :
    result (attempt checked >>= rest) state = checked >>= fun value => result (rest value) state := by
  cases checked <;> rfl

@[simp] theorem result_get {rest : σ → EStateM ε σ Unit} : result (get >>= rest) state = result (rest state) state := rfl
@[simp] theorem result_modify : result (modify change : EStateM ε σ Unit) state = pure (change state) := rfl

@[simp] theorem result_written {rest : Unit → EStateM ε σ Unit} :
    result (modify change >>= rest) state = result (rest ()) (change state) := rfl

@[simp] theorem result_ite [Decidable condition] {one other : EStateM ε σ Unit} :
    result (if condition then one else other) state = if condition then result one state else result other state := by
  split <;> rfl

-- Every write comes after the last check.
def Spares (program : EStateM ε σ Unit) : Prop := ∀ state reason next, program state = .error reason next → next = state

theorem spares_attempt {checked : Except ε α} (later : ∀ value, Spares (rest value)) : Spares (attempt checked >>= rest) := by
  intro state reason next refused
  cases checked with
  | ok value => exact later value state reason next refused
  | error => cases refused; rfl

theorem spares_get {rest : σ → EStateM ε σ Unit} (later : ∀ state, Spares (rest state)) : Spares (get >>= rest) :=
  fun state reason next refused => later state state reason next refused

theorem spares_writes {program : EStateM ε σ Unit} (ends : ∀ state, ∃ next, program state = .ok () next) : Spares program := by
  intro state reason next refused
  obtain ⟨written,ended⟩ := ends state
  rw [ended] at refused
  cases refused
end

def finalState (program : EStateM ε σ α) (state : σ) : σ :=
  match program state with
  | .ok _ next => next
  | .error _ next => next

def returns (program : EStateM ε σ α) (state : σ) : Bool :=
  match program state with
  | .ok _ _ => true
  | .error _ _ => false

theorem returns_final (done : returns program state = true) : ∃ value, program state = .ok value (finalState program state) := by
  unfold returns at done
  unfold finalState
  cases ran : program state with
  | ok value next => exact ⟨value,rfl⟩
  | error reason next => rw [ran] at done; cases done

theorem aborts_final (done : returns program state = false) : ∃ reason, program state = .error reason (finalState program state) := by
  unfold returns at done
  unfold finalState
  cases ran : program state with
  | ok value next => rw [ran] at done; cases done
  | error reason next => exact ⟨reason,rfl⟩
end Effects
