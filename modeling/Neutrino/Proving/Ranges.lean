import Neutrino.Library.Effects
import Neutrino.Chain.Checkpoint

-- History proofs over ranges of chunks (node, chain_backend/history.rs).
namespace Neutrino.Proving
open Checks Effects
open Chain (maxFoldChunks)

-- Either checked operation overflows only if the split point is beyond 64 bits.
def rangeSplit (start finish : Nat) : Except String Nat := do
  let last := finish - 1
  ensure (start < last) "range cannot be split"
  let width := 2 ^ (start ^^^ last).log2
  let split := (start / width + 1) * width
  ensure (split < 2 ^ 64) "range split overflow"
  ensure (start < split ∧ split < finish) "invalid range split"
  return split

def Foldable (start finish : Nat) : Prop := start < finish ∧ finish - start ≤ maxFoldChunks

instance : Decidable (Foldable start finish) := inferInstanceAs (Decidable (_ ∧ _))

-- What else a worker does at a range, each of which may fail: the pause and expiry
-- checks, the store, the prover, and the endpoint check with the commit.
structure HistoryWorker (Proof : Type) where
  ready : Nat → Nat → Except String Unit
  cached : Nat → Nat → Except String (Option Proof)
  verify : Proof → Except String Proof
  fold : Nat → Nat → Except String Proof
  merge : Proof → Proof → Except String Proof
  settle : Nat → Nat → Proof → Except String Unit

inductive RangeError where
  | worker (reason : String)
  | split (reason : String)

theorem rangeSplit_ok (split : rangeSplit start finish = .ok middle) : start < middle ∧ middle < finish := by
  simp only [rangeSplit,bind_ok,ensure_ok,pure_ok] at split
  obtain ⟨_,_,_,_,_,between,rfl⟩ := split
  exact between

-- A call of the worker in a run that notes every range it comes to.
def ask (call : Except String α) : EStateM RangeError (List (Nat × Nat)) α := attempt (call.mapError .worker)

-- The proof with the ranges at the leaves. The thread for the outer left half
-- changes neither the result nor the error, so the halves run in order.
def proveRange (worker : HistoryWorker Proof) (start finish : Nat) : EStateM RangeError (List (Nat × Nat)) (Proof × List (Nat × Nat)) := do
  modify ((start,finish)::·)
  ask (worker.ready start finish)
  let (proof,leaves) ←
    match ← ask (worker.cached start finish) with
    | some proof => do
      let proof ← ask (worker.verify proof)
      pure (proof,[(start,finish)])
    | none =>
      if Foldable start finish then do
        let proof ← ask (worker.fold start finish)
        pure (proof,[(start,finish)])
      else
        match _parted : rangeSplit start finish with
        | .error reason => throw (.split reason)
        | .ok middle => do
          let (left,before) ← proveRange worker start middle
          let (right,after) ← proveRange worker middle finish
          let proof ← ask (worker.merge left right)
          pure (proof,before ++ after)
  ask (worker.settle start finish proof)
  return (proof,leaves)
termination_by finish - start
decreasing_by all_goals obtain ⟨_,_⟩ := rangeSplit_ok _parted; omega

theorem differing_bit (below : start < last) : last / 2 ^ (start ^^^ last).log2 = start / 2 ^ (start ^^^ last).log2 + 1 := by
  generalize highest : (start ^^^ last).log2 = bit
  have differ : start ^^^ last ≠ 0 := by simpa using Nat.ne_of_lt below
  have one : (start ^^^ last) >>> bit = 1 := by
    rw [Nat.shiftRight_eq_div_pow,← highest]
    exact Nat.div_eq_of_lt_le (by simpa using Nat.log2_self_le differ) (by simpa [Nat.pow_succ,Nat.mul_comm] using Nat.lt_log2_self)
  have above := congrArg (· >>> 1) one
  simp only [Nat.shiftRight_xor_distrib] at one above
  have equal : (start >>> bit) / 2 = (last >>> bit) / 2 := by simpa [Nat.shiftRight_succ] using above
  have apart : start >>> bit ≠ last >>> bit := fun same => by simp [same] at one
  have order : start / 2 ^ bit ≤ last / 2 ^ bit := Nat.div_le_div_right (by omega)
  simp only [Nat.shiftRight_eq_div_pow] at equal apart
  omega

theorem rangeSplit_runs (wide : start + 2 ≤ finish) (fits : finish < 2 ^ 64) : ∃ middle, rangeSplit start finish = .ok middle := by
  have below : start < finish - 1 := by omega
  have next := differing_bit below
  have positive := Nat.two_pow_pos (start ^^^ (finish - 1)).log2
  simp only [rangeSplit]
  generalize 2 ^ (start ^^^ (finish - 1)).log2 = width at *
  have most := Nat.div_mul_le_self (finish - 1) width
  have least := Nat.lt_mul_div_succ start positive
  rw [next] at most
  rw [Nat.mul_comm] at least
  exact ⟨_,by rw [ensure_pos below,ok_bind,ensure_pos (by omega),ok_bind,ensure_pos ⟨least,by omega⟩,ok_bind]; rfl⟩

def Tiles (start : Nat) : List (Nat × Nat) → Nat → Prop
  | [],finish => start = finish
  | leaf::rest,finish => leaf.1 = start ∧ start < leaf.2 ∧ Tiles leaf.2 rest finish

theorem Tiles.append (before : Tiles start leaves middle) (after : Tiles middle rest finish) : Tiles start (leaves ++ rest) finish := by
  induction leaves generalizing start with
  | nil => exact before ▸ after
  | cons leaf leaves ih => exact ⟨before.1,before.2.1,ih before.2.2⟩

-- A range found in the store, or a fold of few chunks.
def HistoryWorker.Leaf (worker : HistoryWorker Proof) (leaf : Nat × Nat) : Prop :=
  (∃ proof, worker.cached leaf.1 leaf.2 = .ok (some proof)) ∨ leaf.2 - leaf.1 ≤ maxFoldChunks

-- Inside an aligned block, and up to its ends but for the request's own.
def Framed (start finish low high : Nat) : Prop := low < high ∧ ∃ bit index, index * 2 ^ bit ≤ low ∧ high ≤ (index + 1) * 2 ^ bit ∧
  (low = start ∨ low = index * 2 ^ bit) ∧ (high = finish ∨ high = (index + 1) * 2 ^ bit)

theorem Framed.split (framed : Framed start finish low high) (split : rangeSplit low high = .ok middle) :
    Framed start finish low middle ∧ Framed start finish middle high := by
  obtain ⟨_,bit,index,inside,reach,first,last⟩ := framed
  simp only [rangeSplit,bind_ok,ensure_ok,pure_ok] at split
  obtain ⟨_,wide,_,_,_,⟨above,below⟩,rfl⟩ := split
  have next := differing_bit wide
  generalize (low ^^^ (high - 1)).log2 = width at *
  -- Both ends lie in one block of the wider kind, so the split's blocks are finer.
  have finer : 2 ^ width ∣ 2 ^ bit := by
    refine Nat.pow_dvd_pow 2 (Nat.le_of_not_lt fun coarser => ?_)
    have one : low / 2 ^ bit = index := Nat.div_eq_of_lt_le inside (by omega)
    have two : (high - 1) / 2 ^ bit = index := Nat.div_eq_of_lt_le (by omega) (by omega)
    rw [← Nat.add_sub_cancel' coarser.le,Nat.pow_add,← Nat.div_div_eq_div_mul,← Nat.div_div_eq_div_mul,one,two] at next
    omega
  have least := Nat.div_mul_le_self low (2 ^ width)
  have most := Nat.lt_mul_div_succ (high - 1) (Nat.two_pow_pos width)
  rw [next] at most
  refine ⟨⟨above,width,low / 2 ^ width,least,Nat.le_refl _,first.imp_right fun opens => ?_,.inr rfl⟩,
    below,width,low / 2 ^ width + 1,Nat.le_refl _,by rw [Nat.mul_comm]; omega,.inr rfl,last.imp_right fun closes => ?_⟩
  · exact (Nat.div_mul_cancel (opens ▸ finer.mul_left index)).symm
  · obtain ⟨count,rfl⟩ : 2 ^ width ∣ high := closes ▸ finer.mul_left (index + 1)
    rw [Nat.mul_comm] at below
    have more := Nat.lt_of_mul_lt_mul_left below
    have less : count ≤ low / 2 ^ width + 1 + 1 := Nat.le_of_mul_le_mul_left (by omega) (Nat.two_pow_pos width)
    rw [Nat.mul_comm,show count = low / 2 ^ width + 1 + 1 by omega]

-- A reason some call of the worker gives.
inductive HistoryWorker.Reports (worker : HistoryWorker Proof) (reason : String) : Prop where
  | ready (failed : worker.ready start finish = .error reason)
  | cached (failed : worker.cached start finish = .error reason)
  | verify (failed : worker.verify proof = .error reason)
  | fold (failed : worker.fold start finish = .error reason)
  | merge (failed : worker.merge left right = .error reason)
  | settle (failed : worker.settle start finish proof = .error reason)

section
variable {worker : HistoryWorker Proof} {start finish : Nat}

abbrev AllFramed (start finish : Nat) (visited : List (Nat × Nat)) : Prop := ∀ range ∈ visited, Framed start finish range.1 range.2

-- The ranges come to are framed, a result passes, and a refusal is the worker's own.
def Proves (worker : HistoryWorker Proof) (start finish : Nat) (passes : α → Prop) (program : EStateM RangeError (List (Nat × Nat)) α) : Prop :=
  Triple (AllFramed start finish) program (fun value visited => AllFramed start finish visited ∧ passes value)
    fun halt visited => AllFramed start finish visited ∧ ∃ reason, halt = .worker reason ∧ worker.Reports reason

theorem proves_ask {call : Except String α} (failed : ∀ reason, call = .error reason → worker.Reports reason)
    (passed : ∀ value, call = .ok value → passes value) : Proves worker start finish passes (ask call) := by
  refine triple_attempt (fun value _ ran framed => ⟨framed,passed value (mapError_ok.mp ran)⟩) fun halt _ refused framed => ⟨framed,?_⟩
  cases call with
  | ok => cases refused
  | error reason => cases refused; exact ⟨reason,rfl,failed reason rfl⟩

theorem proves_bind {first : EStateM RangeError (List (Nat × Nat)) α} (middle : α → Prop) (head : Proves worker start finish middle first)
    (tail : ∀ value, middle value → Proves worker start finish passes (rest value)) : Proves worker start finish passes (first >>= rest) :=
  triple_bind head fun value => triple_fact (tail value)

theorem proves_pure (holds : passes value) : Proves worker start finish passes (pure value) := fun _ framed => ⟨framed,holds⟩

theorem proves_note (here : Framed start finish low high) (later : Proves worker start finish passes program) :
    Proves worker start finish passes (modify ((low,high)::·) >>= fun _ => program) :=
  triple_bind (triple_modify fun visited framed =>
    show AllFramed start finish ((low,high)::visited) from List.forall_mem_cons.mpr ⟨here,framed⟩) fun _ => later

theorem proveRange_proves (worker : HistoryWorker Proof) (fits : high < 2 ^ 64) (here : Framed start finish low high) :
    Proves worker start finish (fun result => Tiles low result.2 high ∧ ∀ leaf ∈ result.2, worker.Leaf leaf) (proveRange worker low high) := by
  induction size : high - low using Nat.strong_induction_on generalizing low high with
  | _ size ih =>
    have single (leaf : worker.Leaf (low,high)) :
        Tiles low [(low,high)] high ∧ ∀ leaf ∈ [(low,high)], worker.Leaf leaf := ⟨⟨rfl,here.1,rfl⟩,by simpa using leaf⟩
    rw [proveRange]
    refine proves_note here (proves_bind _ (proves_ask (fun _ => .ready) fun _ _ => trivial) fun _ _ => ?_)
    refine proves_bind _ (proves_ask (fun _ => .cached) fun _ found => found) fun found stored => ?_
    have settles (result : Proof × List (Nat × Nat)) (tiled : Tiles low result.2 high ∧ ∀ leaf ∈ result.2, worker.Leaf leaf) :
        Proves worker start finish (fun result => Tiles low result.2 high ∧ ∀ leaf ∈ result.2, worker.Leaf leaf)
          (ask (worker.settle low high result.1) >>= fun _ => pure (result.1,result.2)) :=
      proves_bind _ (proves_ask (fun _ => .settle) fun _ _ => trivial) fun _ _ => proves_pure tiled
    cases found with
    | some proof =>
      exact proves_bind _ (proves_ask (fun _ => .verify) fun _ _ => trivial) fun proof _ => settles (proof,_) (single (.inl ⟨_,stored⟩))
    | none =>
      by_cases fold : Foldable low high
      · simp only [if_pos fold]
        exact proves_bind _ (proves_ask (fun _ => .fold) fun _ _ => trivial) fun proof _ => settles (proof,_) (single (.inr fold.2))
      · have wide : low + 2 ≤ high := by
          have below := here.1
          unfold Foldable maxFoldChunks at fold
          omega
        simp only [if_neg fold]
        split
        · rename_i failed
          obtain ⟨middle,parted⟩ := rangeSplit_runs wide fits
          cases parted.symm.trans failed
        · rename_i middle parted
          obtain ⟨above,below⟩ := rangeSplit_ok parted
          obtain ⟨left,right⟩ := here.split parted
          refine proves_bind _ (ih (middle - low) (by omega) (by omega) left rfl) fun before first => ?_
          refine proves_bind _ (ih (high - middle) (by omega) fits right rfl) fun after second => ?_
          refine proves_bind _ (proves_ask (fun _ => .merge) fun _ _ => trivial) fun proof _ => settles (proof,_) ?_
          exact ⟨first.1.append second.1,List.forall_mem_append.mpr ⟨first.2,second.2⟩⟩
end

def tirelessWorker : HistoryWorker Nat where
  ready _ _ := .ok ()
  cached _ _ := .ok none
  verify proof := .ok proof
  fold start finish := .ok (finish - start)
  merge left right := .ok (left + right)
  settle _ _ _ := .ok ()

end Neutrino.Proving
