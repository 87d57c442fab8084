import Neutrino.Library.Checks

-- Two runs in step.
namespace Lockstep
open Checks

def Follows (lost : ε → Prop) (related : α → γ → Prop) (here : Except ε α) (there : Except ε γ) : Prop :=
  (∃ reason, here = .error reason ∧ (lost reason ∨ there = .error reason)) ∨ ∃ one two, here = .ok one ∧ there = .ok two ∧ related one two

variable {lost : ε → Prop} {related : α → γ → Prop}

theorem Follows.done (both : related one two) : Follows lost related (.ok one) (.ok two) := .inr ⟨one,two,rfl,rfl,both⟩

theorem Follows.stop (reason : ε) : Follows lost related (.error reason : Except ε α) (.error reason : Except ε γ) :=
  .inl ⟨reason,rfl,.inr rfl⟩

theorem Follows.lack (lacking : lost reason) (there : Except ε γ) : Follows lost related (.error reason : Except ε α) there :=
  .inl ⟨reason,rfl,.inl lacking⟩

theorem Follows.bind (first : Follows lost related here there)
    (rest : ∀ one two, related one two → Follows lost further (next one) (next' two)) :
    Follows lost further (here >>= next) (there >>= next') := by
  obtain ⟨reason,rfl,lacking | rfl⟩ | ⟨one,two,rfl,rfl,both⟩ := first
  · exact .lack lacking _
  · exact .stop reason
  · exact rest one two both

theorem Follows.after (run : Except ε β) (rest : ∀ result, run = .ok result → Follows lost further (next result) (next' result)) :
    Follows lost further (run >>= next) (run >>= next') := by
  cases run with
  | error reason => exact .stop reason
  | ok result => exact rest result rfl

theorem Follows.weaken (first : Follows lost related here there) (more : ∀ one two, related one two → further one two) :
    Follows lost further here there := by
  obtain stopped | ⟨one,two,ran,follows,both⟩ := first
  · exact .inl stopped
  · exact .inr ⟨one,two,ran,follows,more one two both⟩

theorem Follows.ran (first : Follows lost related (.ok one) there) : ∃ two, there = .ok two ∧ related one two := by
  obtain ⟨_,stopped,_⟩ | ⟨_,two,ran,follows,both⟩ := first
  · cases stopped
  · cases ran
    exact ⟨two,follows,both⟩

theorem Follows.back (first : Follows lost related here (.ok two)) (complete : ∀ reason, here = .error reason → ¬lost reason) :
    ∃ one, here = .ok one ∧ related one two := by
  obtain ⟨reason,stopped,lacking | failed⟩ | ⟨one,_,ran,follows,both⟩ := first
  · exact absurd lacking (complete reason stopped)
  · cases failed
  · cases follows
    exact ⟨one,ran,both⟩

theorem Follows.reworded {there : Except ε γ} (first : Follows (fun _ => False) related here there) (wrap : ε → φ) :
    Follows (fun _ => False) related (here.mapError wrap) (there.mapError wrap) := by
  obtain ⟨reason,rfl,lacking | rfl⟩ | ⟨one,two,rfl,rfl,both⟩ := first
  · exact lacking.elim
  · exact .stop _
  · exact .done both

theorem Follows.equal {there : Except ε α} (first : Follows (fun _ => False) Eq here there) : here = there := by
  obtain ⟨reason,rfl,lacking | rfl⟩ | ⟨one,two,rfl,rfl,rfl⟩ := first
  · exact lacking.elim
  · rfl
  · rfl

theorem Follows.forget {there : Except ε γ} {holds : α → Prop} (first : Follows (fun _ => False) related here there)
    (kept : ∀ one two, related one two → holds one) : Follows (fun _ => False) (fun one _ => holds one) here (there.map fun _ => ()) := by
  obtain ⟨reason,rfl,lacking | rfl⟩ | ⟨one,two,rfl,rfl,both⟩ := first
  · exact lacking.elim
  · exact .stop reason
  · exact .done (kept one two both)

theorem Follows.drop {there : Except ε Unit} {related : α → Unit → Prop} (first : Follows (fun _ => False) related here there) :
    Follows (fun _ => False) Eq (here >>= fun _ => pure ()) there := by
  obtain ⟨reason,rfl,lacking | rfl⟩ | ⟨one,two,rfl,rfl,both⟩ := first
  · exact lacking.elim
  · exact .stop reason
  · exact .done rfl

-- A loop that carries what it has accepted, and one that does not.
theorem Follows.fold {step : β → α → Except ε β} {check : α → Except ε Unit} (holds : β → Prop)
    (each : ∀ state item, holds state → Follows (fun _ => False) (fun next _ => holds next) (step state item) (check item))
    (items : List α) (start : holds state) :
    Follows (fun _ => False) (fun next _ => holds next) (items.foldlM step state) (Checks.each check items) := by
  induction items generalizing state with
  | nil => exact .done start
  | cons item rest ih => exact (each state item start).bind fun _ _ kept => ih kept
end Lockstep
