import Mathlib

-- Bisection for the least number a monotone test accepts.
namespace Bisection
variable (fits : Nat → Bool)

def bisect : Nat → Nat → Nat → Nat
  | 0,low,_ => low
  | fuel+1,low,high =>
    if low < high then
      let middle := (low + high) / 2
      if fits middle then bisect fuel low middle else bisect fuel (middle+1) high
    else low

structure Least (result : Nat) : Prop where
  accepted : fits result = true
  minimal : ∀ smaller, smaller < result → fits smaller = false

variable {fits : Nat → Bool}

theorem bisect_least (monotone : ∀ small large, small ≤ large → fits small = true → fits large = true)
    (enough : high - low ≤ fuel) (ordered : low ≤ high) (upper : fits high = true)
    (below : ∀ smaller, smaller < low → fits smaller = false) : Least fits (bisect fits fuel low high) := by
  induction fuel generalizing low high with
  | zero =>
    have closed : low = high := by omega
    subst closed
    exact ⟨upper,below⟩
  | succ fuel ih =>
    rw [bisect]
    split
    · rename_i wide
      simp only
      split
      · rename_i taken
        exact ih (by omega) (by omega) taken below
      · rename_i refused
        refine ih (by omega) (by omega) upper fun smaller less => ?_
        cases known : fits smaller with
        | false => rfl
        | true => exact absurd (monotone smaller _ (by omega) known) refused
    · have closed : low = high := by omega
      subst closed
      exact ⟨upper,below⟩
end Bisection
