import Mathlib

-- Finite labelled runs of a step relation, so an invariant may speak of the history.
inductive Runs (step : S → L → S → Prop) : S → List L → S → Prop where
  | nil : Runs step before [] before
  | snoc : Runs step before labels middle → step middle label after → Runs step before (labels++[label]) after

namespace Runs
variable {S L : Type} {step : S → L → S → Prop}

theorem invariant (holds : List L → S → Prop) (initial : holds [] before)
    (preserved : ∀ labels middle label after, Runs step before labels middle → holds labels middle →
      step middle label after → holds (labels++[label]) after) (path : Runs step before labels after) : holds labels after := by
  induction path with
  | nil => exact initial
  | snoc prior taken ih => exact preserved _ _ _ _ prior ih taken

theorem append (left : Runs step before earlier middle) (right : Runs step middle later after) :
    Runs step before (earlier++later) after := by
  induction right with
  | nil => simpa using left
  | snoc prior taken ih => simpa only [List.append_assoc] using Runs.snoc ih taken

theorem snoc_inv (path : Runs step before (labels++[label]) after) :
    ∃ middle, Runs step before labels middle ∧ step middle label after := by
  generalize whole : labels++[label] = observed at path
  cases path with
  | nil => simp at whole
  | snoc prior taken =>
    obtain ⟨rfl,same⟩ := List.append_inj' whole rfl
    cases same
    exact ⟨_,prior,taken⟩

theorem nil_inv (path : Runs step before [] after) : after = before := by
  generalize empty : ([] : List L) = observed at path
  cases path with
  | nil => rfl
  | snoc prior taken => simp at empty

theorem split (path : Runs step before (earlier++later) after) :
    ∃ middle, Runs step before earlier middle ∧ Runs step middle later after := by
  induction later using List.reverseRecOn generalizing after with
  | nil => exact ⟨after,by simpa using path,.nil⟩
  | append_singleton later label ih =>
    rw [← List.append_assoc] at path
    obtain ⟨last,prior,taken⟩ := path.snoc_inv
    obtain ⟨middle,left,right⟩ := ih prior
    exact ⟨middle,left,.snoc right taken⟩

theorem at_label (path : Runs step before (earlier++label::later) after) :
    ∃ middle next, Runs step before earlier middle ∧ step middle label next ∧ Runs step next later after := by
  rw [← List.singleton_append] at path
  obtain ⟨middle,left,right⟩ := path.split
  obtain ⟨next,single,rest⟩ := right.split
  rw [← List.nil_append [label]] at single
  obtain ⟨start,empty,taken⟩ := single.snoc_inv
  rw [empty.nil_inv] at taken
  exact ⟨middle,next,left,taken,rest⟩

theorem labelled {holds : L → Prop} (each : ∀ label ∈ labels, holds label) (path : Runs step before labels after) :
    Runs (fun s l t => step s l t ∧ holds l) before labels after := by
  induction path with
  | nil => exact .nil
  | snoc prior taken ih =>
    exact .snoc (ih fun label member => each label (List.mem_append_left _ member)) ⟨taken,each _ (by simp)⟩

theorem at_member (path : Runs step before labels after) (member : label ∈ labels) :
    ∃ earlier middle next, Runs step before earlier middle ∧ step middle label next := by
  obtain ⟨earlier,later,rfl⟩ := List.append_of_mem member
  obtain ⟨middle,next,left,taken,-⟩ := path.at_label
  exact ⟨earlier,middle,next,left,taken⟩

theorem mono (weaken : ∀ s l t, stronger s l t → weaker s l t)
    (path : Runs stronger before labels after) : Runs weaker before labels after := by
  induction path with
  | nil => exact .nil
  | snoc prior taken ih => exact .snoc ih (weaken _ _ _ taken)
end Runs
