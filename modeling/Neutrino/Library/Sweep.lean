import Neutrino.Library.Checks

-- A worklist that expands each item once: what it has visited at its end is closed
-- under expansion, and it ends when the items come from a finite list.
namespace Sweep
open Checks
variable {α σ ε : Type} [DecidableEq α] (skip : α → Prop) [DecidablePred skip]
variable (expand : α → σ → Except ε (List α × σ)) (exhausted : ε)

def sweep : Nat → List α → List α → σ → Except ε (List α × σ)
  | _,[],visited,gathered => .ok (visited,gathered)
  | 0,_::_,_,_ => .error exhausted
  | fuel+1,next::stack,visited,gathered =>
    if skip next ∨ next ∈ visited then sweep fuel stack visited gathered
    else do
      let (more,gathered) ← expand next gathered
      sweep fuel (more ++ stack) (next::visited) gathered

variable {skip expand exhausted} {gathered last : σ}

theorem sweep_closed {Done : α → List α → σ → Prop} (expands : ∀ item gathered more after, expand item gathered = .ok (more,after) →
      Done item more after ∧ ∀ other children, Done other children gathered → Done other children after)
    (run : sweep skip expand exhausted fuel stack visited gathered = .ok (final,last))
    (closed : ∀ item ∈ visited, ∃ more, Done item more gathered ∧ ∀ child ∈ more, skip child ∨ child ∈ visited ∨ child ∈ stack) :
    (∀ item, item ∈ visited ∨ item ∈ stack → skip item ∨ item ∈ final) ∧
      ∀ item ∈ final, ∃ more, Done item more last ∧ ∀ child ∈ more, skip child ∨ child ∈ final := by
  induction fuel generalizing stack visited gathered with
  | zero =>
    cases stack with
    | cons next stack => cases run
    | nil =>
      cases run
      simp only [List.not_mem_nil,or_false] at closed ⊢
      exact ⟨fun item met => .inr met,closed⟩
  | succ fuel ih =>
    cases stack with
    | nil =>
      cases run
      simp only [List.not_mem_nil,or_false] at closed ⊢
      exact ⟨fun item met => .inr met,closed⟩
    | cons next stack =>
      rw [sweep] at run
      split at run
      next known =>
        obtain ⟨met,done⟩ := ih run fun item old => by
          obtain ⟨more,made,placed⟩ := closed item old
          refine ⟨more,made,fun child among => ?_⟩
          rcases placed child among with out | seen | waits
          · exact .inl out
          · exact .inr (.inl seen)
          · rcases List.mem_cons.mp waits with rfl | later
            · exact known.imp id .inl
            · exact .inr (.inr later)
        refine ⟨fun item among => ?_,done⟩
        rcases among with old | waits
        · exact met item (.inl old)
        · rcases List.mem_cons.mp waits with rfl | later
          · exact known.elim .inl fun old => met item (.inl old)
          · exact met item (.inr later)
      next fresh =>
        rw [bind_ok] at run
        obtain ⟨⟨more,after⟩,expanded,rest⟩ := run
        obtain ⟨own,others⟩ := expands _ _ _ _ expanded
        obtain ⟨met,done⟩ := ih rest fun item old => by
          rcases List.mem_cons.mp old with rfl | old
          · exact ⟨more,own,fun child among => .inr (.inr (List.mem_append_left _ among))⟩
          · obtain ⟨children,made,placed⟩ := closed item old
            refine ⟨children,others _ _ made,fun child among => ?_⟩
            rcases placed child among with out | seen | waits
            · exact .inl out
            · exact .inr (.inl (List.mem_cons_of_mem _ seen))
            · rcases List.mem_cons.mp waits with rfl | later
              · exact .inr (.inl List.mem_cons_self)
              · exact .inr (.inr (List.mem_append_right _ later))
        refine ⟨fun item among => met item ?_,done⟩
        rcases among with old | waits
        · exact .inl (List.mem_cons_of_mem _ old)
        · rcases List.mem_cons.mp waits with rfl | later
          · exact .inl List.mem_cons_self
          · exact .inr (List.mem_append_right _ later)

theorem sweep_sound (Met Sure : α → Prop) (Good : σ → Prop)
    (expands : ∀ item gathered more after, Met item → ¬skip item → Good gathered → expand item gathered = .ok (more,after) →
      Sure item ∧ Good after ∧ ∀ child ∈ more, Met child) (run : sweep skip expand exhausted fuel stack visited gathered = .ok (final,last))
    (stacked : ∀ item ∈ stack, Met item) (seen : ∀ item ∈ visited, Sure item) (good : Good gathered) :
    (∀ item ∈ final, Sure item) ∧ Good last := by
  induction fuel generalizing stack visited gathered with
  | zero =>
    cases stack with
    | cons next stack => cases run
    | nil =>
      cases run
      exact ⟨seen,good⟩
  | succ fuel ih =>
    cases stack with
    | nil =>
      cases run
      exact ⟨seen,good⟩
    | cons next stack =>
      rw [List.forall_mem_cons] at stacked
      rw [sweep] at run
      split at run
      next => exact ih run stacked.2 seen good
      next fresh =>
        rw [bind_ok] at run
        obtain ⟨⟨more,after⟩,expanded,rest⟩ := run
        obtain ⟨sure,later,below⟩ := expands _ _ _ _ stacked.1 (not_or.mp fresh).1 good expanded
        exact ih rest (List.forall_mem_append.mpr ⟨below,stacked.2⟩) (List.forall_mem_cons.mpr ⟨sure,seen⟩) later

theorem sweep_total {Fine : α → Prop} (known : ∀ item, Fine item → item ∈ bound)
    (expands : ∀ item gathered, Fine item → ∃ more after, expand item gathered = .ok (more,after) ∧ more.length ≤ 2 ∧
      ∀ child ∈ more, skip child ∨ Fine child)
    (fine : ∀ item ∈ stack, skip item ∨ Fine item) (apart : visited.Nodup) (inside : visited ⊆ bound)
    (enough : stack.length + 2 * (bound.length - visited.length) ≤ fuel) :
    ∃ result, sweep skip expand exhausted fuel stack visited gathered = .ok result := by
  induction fuel generalizing stack visited gathered with
  | zero =>
    obtain rfl : stack = [] := List.eq_nil_of_length_eq_zero (by omega)
    exact ⟨_,rfl⟩
  | succ fuel ih =>
    cases stack with
    | nil => exact ⟨_,rfl⟩
    | cons next stack =>
      rw [List.length_cons] at enough
      have rest : ∀ item ∈ stack, skip item ∨ Fine item := fun item later => fine item (List.mem_cons_of_mem _ later)
      rw [sweep]
      split
      next => exact ih rest apart inside (by omega)
      next fresh =>
        obtain ⟨new,unseen⟩ := not_or.mp fresh
        have good := (fine next List.mem_cons_self).resolve_left new
        obtain ⟨more,after,expanded,few,below⟩ := expands next gathered good
        have distinct : (next::visited).Nodup := List.nodup_cons.mpr ⟨unseen,apart⟩
        have within : next::visited ⊆ bound := List.cons_subset.mpr ⟨known next good,inside⟩
        have room := (List.subperm_of_subset distinct within).length_le
        rw [List.length_cons] at room
        rw [expanded,ok_bind]
        refine ih (fun item among => ?_) distinct within ?_
        · exact (List.mem_append.mp among).elim (below item) (rest item)
        · rw [List.length_append,List.length_cons]
          omega
end Sweep
