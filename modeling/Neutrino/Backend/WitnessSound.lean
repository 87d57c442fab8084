import Neutrino.Backend.States
import Neutrino.Trie.Shadow

-- A witness is only ever incomplete: a replay over it reads and ends as the full
-- trie does, or stops because something was left out.

namespace Neutrino.Backend
open Checks Bits StateTrie Lockstep
variable {β : Type} [Alphabet β] [DecidableEq β] {hasher : Hasher β}

def LostHalt : Halt → Prop
  | .unwitnessed _ => True
  | .trie reason => Lost reason

theorem inTrie_follows (follows : Follows Lost related here there) : Follows LostHalt related (inTrie here) (inTrie there) := by
  obtain ⟨reason,rfl,lacking | rfl⟩ | ⟨one,two,rfl,rfl,both⟩ := follows
  · exact Follows.lack (show LostHalt (.trie reason) from lacking) _
  · exact .stop _
  · exact .done both

section
variable (injective : hasher.Injective)
include injective

theorem call_follows (tracks : Tracks hasher state.trie full) (call : StateCall) :
    Follows LostHalt (fun one two => one.2 = two.2 ∧ Tracks hasher one.1.trie two.1)
      ((witnessBackend hasher).call state call) ((liveBackend hasher).call full call) := by
  cases call with
  | read key =>
    by_cases listed : key ∈ state.witnessed
    · simp only [StateBackend.call,witnessBackend,liveBackend,ensure_pos listed,ok_bind,bind_assoc]
      refine (inTrie_follows (get_follows injective tracks key)).bind ?_
      rintro value _ rfl
      exact .done ⟨rfl,tracks⟩
    · simp only [StateBackend.call,witnessBackend,ensure_neg listed]
      exact .lack trivial _
  | write key value =>
    simp only [StateBackend.call,witnessBackend,liveBackend,bind_assoc]
    refine (inTrie_follows (insert_follows injective tracks key value)).bind ?_
    intro one two next
    exact .done ⟨rfl,next⟩
  | delete key =>
    simp only [StateBackend.call,witnessBackend,liveBackend,bind_assoc]
    refine (inTrie_follows (remove_follows injective tracks key)).bind ?_
    intro one two next
    exact .done ⟨rfl,next⟩

theorem calls_follow (tracks : Tracks hasher state.trie full) (calls : List StateCall) :
    Follows LostHalt (fun one two => one.2 = two.2 ∧ Tracks hasher one.1.trie two.1)
      ((witnessBackend hasher).calls state calls) ((liveBackend hasher).calls full calls) := by
  induction calls generalizing state full with
  | nil => exact .done ⟨rfl,tracks⟩
  | cons call rest ih =>
    refine (call_follows injective tracks call).bind ?_
    rintro ⟨state,returned⟩ ⟨full,_⟩ ⟨rfl,next⟩
    refine (ih next).bind ?_
    rintro ⟨last,others⟩ ⟨final,_⟩ ⟨rfl,done⟩
    exact .done ⟨rfl,done⟩
end

theorem accepted_checked (accepted : WitnessState.new hasher witness = .ok state) :
    state.trie.Checked hasher ∧ state.trie.root = witness.preStateRoot := by
  simp only [WitnessState.new,bind_ok,ensure_ok,pure_ok] at accepted
  obtain ⟨_,nodes,_,values,_,_,rfl⟩ := accepted
  refine ⟨⟨fun hash text found => ?_,fun hash bytes found => ?_⟩,rfl⟩
  · exact ensure_ok.mp (each_ok.mp nodes _ (lookup_refill found))
  · exact ensure_ok.mp (each_ok.mp values _ (lookup_refill found))

-- Adversarial witnesses: a run that ends over an accepted witness is the full trie's.
theorem adversarial_witness_sound (injective : hasher.Injective) {full : Trie β} {map : StateMap}
    (represents : Represents hasher full map) {witness : StateWitness β} (named : witness.preStateRoot = full.root)
    {state : WitnessState β} (accepted : WitnessState.new hasher witness = .ok state) (calls : List StateCall)
    {last : WitnessState β} {reads : List (Option (Option (List Byte)))}
    (ran : (witnessBackend hasher).calls state calls = .ok (last,reads)) :
    ∃ after, (liveBackend hasher).calls full calls = .ok (after,reads) ∧ (witnessBackend hasher).postStateRoot last = after.root := by
  obtain ⟨checked,root⟩ := accepted_checked accepted
  obtain ⟨reach,closed,within⟩ := represents_closed represents
  have tracks : Tracks hasher state.trie full := ⟨root.trans named,reach,⟨checked,closed⟩,by rwa [root,named]⟩
  have follows := calls_follow injective tracks calls
  rw [ran] at follows
  obtain ⟨⟨after,_⟩,run,rfl,next⟩ := follows.ran
  exact ⟨after,run,next.1⟩

def leafWitness : StateWitness Symbol where
  preStateRoot := spelledHasher.root (.leaf (keyBits [0]) [1])
  nodes := [(spelledHasher.root (.leaf (keyBits [0]) [1]),(spelledHasher.leaf (keyBits [0]) [1]).encode)]
  values := [(spelledHasher.hashValue [1],[1])]
  witnessedKeys := [[0]]

def leafCalls : List StateCall := [.read [0],.write [1] [2],.read [1],.delete [1]]

theorem leaf_witness_sound : ∃ full state last, Represents spelledHasher full (StateMap.calls ∅ [.insert [0] [1]]).1 ∧
      WitnessState.new spelledHasher leafWitness = .ok state ∧
      (witnessBackend spelledHasher).calls state leafCalls = .ok (last,[some (some [1]),none,some (some [2]),none]) ∧
      ∃ after, (liveBackend spelledHasher).calls full leafCalls = .ok (after,[some (some [1]),none,some (some [2]),none]) ∧
        (witnessBackend spelledHasher).postStateRoot last = after.root := by
  have fit : ∀ call ∈ [StateTrie.Call.insert [0] [1]], KeyFits call.key := by decide
  obtain ⟨full,_,represents⟩ := calls_represent spelledHasher_injective spelledHasher_neverZero fit (new_represents _)
  have tree : canonicalTree (StateMap.calls ∅ [.insert [0] [1]]).1 = some (.leaf (keyBits [0]) [1]) := by decide +kernel
  have named : leafWitness.preStateRoot = full.root := by rw [represents.root,tree]; rfl
  obtain ⟨state,accepted⟩ : ∃ state, WitnessState.new spelledHasher leafWitness = .ok state := isOk_iff.mp (by decide +kernel)
  have reads : (do
      let state ← (WitnessState.new spelledHasher leafWitness).mapError fun _ => Halt.unwitnessed []
      (witnessBackend spelledHasher).calls state leafCalls).map Prod.snd =
        .ok [some (some [1]),none,some (some [2]),none] := by decide +kernel
  simp only [accepted,Except.mapError,ok_bind,map_ok,Prod.exists,exists_eq_right] at reads
  obtain ⟨last,ran⟩ := reads
  exact ⟨full,state,last,represents,accepted,ran, adversarial_witness_sound spelledHasher_injective represents named accepted leafCalls ran⟩
end Neutrino.Backend
