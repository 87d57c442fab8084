import Neutrino.Library.Checks

-- Programs that put questions to somebody else.
namespace Queries

inductive Query {Q : Type} (Answer : Q → Type) (ε α : Type) where
  | done (result : α)
  | fail (reason : ε)
  | ask (request : Q) (next : Answer request → Query Answer ε α)

variable {Q : Type} {Answer : Q → Type} {ε φ α β σ : Type}

namespace Query

def bind : Query Answer ε α → (α → Query Answer ε β) → Query Answer ε β
  | .done result,rest => rest result
  | .fail reason,_ => .fail reason
  | .ask request next,rest => .ask request fun answer => (next answer).bind rest

instance : Monad (Query Answer ε) where
  pure := .done
  bind := bind

def ofExcept : Except ε α → Query Answer ε α
  | .ok result => .done result
  | .error reason => .fail reason

def check (condition : Prop) [Decidable condition] (refusal : ε) : Query Answer ε Unit := ofExcept (Checks.ensure condition refusal)
def take (found : Option α) (refusal : ε) : Query Answer ε α := ofExcept (Checks.required found refusal)

def mapError (wrap : ε → φ) : Query Answer ε α → Query Answer φ α
  | .done result => .done result
  | .fail reason => .fail (wrap reason)
  | .ask request next => .ask request fun answer => (next answer).mapError wrap

def outcome : Query Answer ε α → Query Answer φ (Except ε α)
  | .done result => .done (.ok result)
  | .fail reason => .done (.error reason)
  | .ask request next => .ask request fun answer => (next answer).outcome

-- The same program with its questions worded for another audience.
def translate {P : Type} {AnswerP : P → Type} (send : P → Q)
    (receive : (request : P) → Answer (send request) → AnswerP request) : Query AnswerP ε α → Query Answer ε α
  | .done result => .done result
  | .fail reason => .fail reason
  | .ask request next => .ask (send request) fun answer => (next (receive request answer)).translate send receive

def query (request : Q) : Query Answer ε (Answer request) := .ask request .done

def eval (oracle : (request : Q) → Answer request) : Query Answer ε α → Except ε α
  | .done result => .ok result
  | .fail reason => .error reason
  | .ask request next => (next (oracle request)).eval oracle

def asked (oracle : (request : Q) → Answer request) : Query Answer ε α → List Q
  | .done _ => []
  | .fail _ => []
  | .ask request next => request::(next (oracle request)).asked oracle

def run (respond : σ → (request : Q) → Answer request × σ) : σ → Query Answer ε α → Except ε α × σ
  | state,.done result => (.ok result,state)
  | state,.fail reason => (.error reason,state)
  | state,.ask request next => (next (respond state request).1).run respond (respond state request).2

section
variable {oracle : (request : Q) → Answer request}

@[simp] theorem eval_pure : (pure result : Query Answer ε α).eval oracle = .ok result := rfl

@[simp] theorem eval_bind {program : Query Answer ε α} :
    (program >>= rest).eval oracle = program.eval oracle >>= fun middle => (rest middle).eval oracle := by
  induction program with
  | done result => rfl
  | fail reason => rfl
  | ask request next ih => exact ih (oracle request)

@[simp] theorem eval_ofExcept : (ofExcept checked : Query Answer ε α).eval oracle = checked := by
  cases checked <;> rfl

@[simp] theorem eval_check [Decidable condition] {refusal : ε} :
    (check condition refusal : Query Answer ε Unit).eval oracle = Checks.ensure condition refusal := eval_ofExcept

@[simp] theorem eval_outcome {program : Query Answer ε α} : (program.outcome : Query Answer φ _).eval oracle = .ok (program.eval oracle) := by
  induction program with
  | done result => rfl
  | fail reason => rfl
  | ask request next ih => exact ih (oracle request)

theorem eval_translate {P : Type} {AnswerP : P → Type} {send : P → Q} {receive : (request : P) → Answer (send request) → AnswerP request}
    {program : Query AnswerP ε α} :
    (program.translate send receive).eval oracle = program.eval fun request => receive request (oracle (send request)) := by
  induction program with
  | done result => rfl
  | fail reason => rfl
  | ask request next ih => exact ih _

@[simp] theorem eval_mapError {program : Query Answer ε α} : (program.mapError wrap).eval oracle = (program.eval oracle).mapError wrap := by
  induction program with
  | done result => rfl
  | fail reason => rfl
  | ask request next ih => exact ih (oracle request)
end
section
variable {respond : σ → (request : Q) → Answer request × σ} {oracle : (request : Q) → Answer request} (Holds Clean : σ → Prop)
variable {program : Query Answer ε α} {state : σ}

theorem run_trusted (keeps : ∀ state request, Holds state → Holds (respond state request).2)
    (vouches : ∀ state request, Holds state → Clean (respond state request).2 → Clean state ∧ (respond state request).1 = oracle request)
    (holds : Holds state) (clean : Clean (program.run respond state).2) :
    Clean state ∧ (program.run respond state).1 = program.eval oracle := by
  induction program generalizing state with
  | done result => exact ⟨clean,rfl⟩
  | fail reason => exact ⟨clean,rfl⟩
  | ask request next ih =>
    obtain ⟨still,same⟩ := ih _ (keeps state request holds) clean
    obtain ⟨before,answered⟩ := vouches state request holds still
    refine ⟨before,same.trans ?_⟩
    rw [answered]
    rfl

theorem run_complete (Covered : Q → Prop) (follows : ∀ state request, Holds state → Covered request →
      Holds (respond state request).2 ∧ (respond state request).1 = oracle request) (holds : Holds state)
    (covered : ∀ request ∈ program.asked oracle, Covered request) :
    Holds (program.run respond state).2 ∧ (program.run respond state).1 = program.eval oracle := by
  induction program generalizing state with
  | done result => exact ⟨holds,rfl⟩
  | fail reason => exact ⟨holds,rfl⟩
  | ask request next ih =>
    obtain ⟨onward,answered⟩ := follows state request holds (covered request (by simp [asked]))
    rw [run,answered]
    exact ih _ onward fun other listed => covered other (by simp [asked,listed])

theorem run_invariant (keeps : ∀ state request, Holds state → Holds (respond state request).2)
    (holds : Holds state) : Holds (program.run respond state).2 := by
  induction program generalizing state with
  | done result => exact holds
  | fail reason => exact holds
  | ask request next ih => exact ih _ (keeps state request holds)

theorem run_notes (Noted : σ → Q → Prop) (keeps : ∀ state request, Holds state → Holds (respond state request).2)
    (vouches : ∀ state request, Holds state → Clean (respond state request).2 → Clean state ∧ (respond state request).1 = oracle request)
    (notes : ∀ state request, Holds state → Noted (respond state request).2 request)
    (grows : ∀ state request other, Holds state → Noted state other → Noted (respond state request).2 other)
    (holds : Holds state) (clean : Clean (program.run respond state).2) :
    (∀ other, Noted state other → Noted (program.run respond state).2 other) ∧
      ∀ request ∈ program.asked oracle, Noted (program.run respond state).2 request := by
  induction program generalizing state with
  | done result | fail reason => exact ⟨fun _ noted => noted,by simp [asked]⟩
  | ask request next ih =>
    have onward := keeps state request holds
    obtain ⟨kept,all⟩ := ih _ onward clean
    have answered := (vouches state request holds (run_trusted Holds Clean keeps vouches onward clean).1).2
    refine ⟨fun other noted => kept other (grows state request other holds noted),fun other listed => ?_⟩
    rw [asked,← answered,List.mem_cons] at listed
    rcases listed with rfl | later
    · exact kept _ (notes state _ holds)
    · exact all other later
end
section
variable (wanted : (request : Q) → Answer request → Prop)

def Refuses (program : Query Answer ε α) : Prop := ∀ oracle, ∃ reason, program.eval oracle = .error reason

-- Every unwanted answer makes the program refuse, whatever comes after.
def Demanding : Query Answer ε α → Prop
  | .done _ => True
  | .fail _ => True
  | .ask request next => ∀ answer,
      (wanted request answer → (next answer).Demanding) ∧ (¬wanted request answer → (next answer).Refuses)

variable {wanted} {program : Query Answer ε α}

theorem Refuses.bind {rest : α → Query Answer ε β} (refuses : program.Refuses) : (program >>= rest).Refuses := by
  intro oracle
  obtain ⟨reason,refused⟩ := refuses oracle
  exact ⟨reason,by rw [eval_bind,refused]; rfl⟩

theorem Refuses.mapError {wrap : ε → φ} (refuses : program.Refuses) : (program.mapError wrap).Refuses := by
  intro oracle
  obtain ⟨reason,refused⟩ := refuses oracle
  exact ⟨wrap reason,by rw [eval_mapError,refused]; rfl⟩

theorem demanding_pure : (pure result : Query Answer ε α).Demanding wanted := trivial

theorem demanding_ofExcept : (ofExcept checked : Query Answer ε α).Demanding wanted := by
  cases checked <;> exact trivial

theorem demanding_bind {rest : α → Query Answer ε β} (first : program.Demanding wanted)
    (later : ∀ middle, (rest middle).Demanding wanted) : (program >>= rest).Demanding wanted := by
  induction program with
  | done result => exact later result
  | fail reason => exact trivial
  | ask request next ih =>
    exact fun answer => ⟨fun good => ih answer ((first answer).1 good),fun bad => ((first answer).2 bad).bind⟩

theorem demanding_mapError (demanding : program.Demanding wanted) : (program.mapError wrap).Demanding wanted := by
  induction program with
  | done result => exact trivial
  | fail reason => exact trivial
  | ask request next ih =>
    exact fun answer => ⟨fun good => ih answer ((demanding answer).1 good),fun bad => ((demanding answer).2 bad).mapError⟩

-- Programs that refuse every unwanted answer by construction.
structure Strict (wanted : (request : Q) → Answer request → Prop) (ε α : Type) where
  program : Query Answer ε α
  demanding : program.Demanding wanted

instance strictMonad : Monad (Strict wanted ε) where
  pure result := ⟨pure result,demanding_pure⟩
  bind first rest := ⟨first.program >>= fun middle => (rest middle).program,demanding_bind first.demanding fun middle => (rest middle).demanding⟩

namespace Strict
def ofExcept (checked : Except ε α) : Strict wanted ε α := ⟨.ofExcept checked,demanding_ofExcept⟩
abbrev check (condition : Prop) [Decidable condition] (refusal : ε) : Strict wanted ε Unit := ofExcept (Checks.ensure condition refusal)
abbrev take (found : Option α) (refusal : ε) : Strict wanted ε α := ofExcept (Checks.required found refusal)
def mapError (wrap : ε → φ) (strict : Strict wanted ε α) : Strict wanted φ α := ⟨strict.program.mapError wrap,demanding_mapError strict.demanding⟩
def eval (oracle : (request : Q) → Answer request) (strict : Strict wanted ε α) : Except ε α := strict.program.eval oracle

variable {oracle : (request : Q) → Answer request} {strict : Strict wanted ε α}

@[simp] theorem program_eval : strict.program.eval oracle = strict.eval oracle := rfl
@[simp] theorem eval_pure : (pure result : Strict wanted ε α).eval oracle = .ok result := rfl
@[simp] theorem eval_bind : (strict >>= rest).eval oracle = strict.eval oracle >>= fun middle => (rest middle).eval oracle := Query.eval_bind
@[simp] theorem eval_ofExcept : (ofExcept checked : Strict wanted ε α).eval oracle = checked := Query.eval_ofExcept
@[simp] theorem eval_mapError : (strict.mapError wrap).eval oracle = (strict.eval oracle).mapError wrap := Query.eval_mapError
end Strict

theorem demanding_asked (demanding : program.Demanding wanted) (accepted : program.eval oracle = .ok result) :
    ∀ request ∈ program.asked oracle, wanted request (oracle request) := by
  induction program with
  | done result => simp [asked]
  | fail reason => simp [asked]
  | ask request next ih =>
    have good : wanted request (oracle request) := by
      by_contra bad
      obtain ⟨reason,refused⟩ := (demanding (oracle request)).2 bad oracle
      rw [eval,refused] at accepted
      cases accepted
    intro other listed
    rw [asked,List.mem_cons] at listed
    rcases listed with rfl | later
    · exact good
    · exact ih (oracle request) ((demanding (oracle request)).1 good) accepted other later
end
section
-- Every result the program can return satisfies the condition, whatever it is answered.
def Ensures (post : α → Prop) : Query Answer ε α → Prop
  | .done result => post result
  | .fail _ => True
  | .ask _ next => ∀ answer, (next answer).Ensures post

variable {program : Query Answer ε α}

theorem ensures_any : program.Ensures fun _ => True := by
  induction program with
  | done result => exact trivial
  | fail reason => exact trivial
  | ask request next ih => exact ih

theorem ensures_ofExcept (holds : ∀ result, checked = .ok result → post result) : (ofExcept checked : Query Answer ε α).Ensures post := by
  cases checked with
  | error reason => exact trivial
  | ok result => exact holds result rfl

theorem ensures_bind {middle : α → Prop} {post : β → Prop}
    (first : program.Ensures middle) (later : ∀ value, middle value → (rest value).Ensures post) : (program >>= rest).Ensures post := by
  induction program with
  | done result => exact later result first
  | fail reason => exact trivial
  | ask request next ih => exact fun answer => ih answer (first answer)

theorem ensures_run (ensured : program.Ensures post) (returned : (program.run respond state).1 = .ok result) : post result := by
  induction program generalizing state with
  | done value => cases returned; exact ensured
  | fail reason => cases returned
  | ask request next ih => exact ih _ (ensured _) returned
end

def collect (step : β → Query Answer ε α) : List β → Query Answer ε (List α)
  | [] => pure []
  | item::rest => do
    let first ← step item
    let others ← collect step rest
    pure (first::others)

theorem eval_collect {oracle : (request : Q) → Answer request} {items : List β}
    (accepted : (collect step items).eval oracle = .ok results) :
    List.Forall₂ (fun item result => (step item).eval oracle = .ok result) items results := by
  induction items generalizing results with
  | nil =>
    cases accepted
    exact .nil
  | cons item rest ih =>
    simp only [collect,eval_bind,eval_pure,Checks.bind_ok] at accepted
    obtain ⟨first,head,others,tail,same⟩ := accepted
    cases same
    exact .cons head (ih tail)
end Query
end Queries
