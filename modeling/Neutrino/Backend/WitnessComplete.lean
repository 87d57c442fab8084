import Neutrino.Backend.WitnessSound
import Neutrino.Trie.Collected

-- A traced witness replays its run, unless a key is removed that the run itself
-- had written beside the last bit of an extension of the pre-state.

namespace Neutrino.Backend
open Checks Bits StateTrie Patricia Lockstep
variable {β : Type} [Alphabet β] [DecidableEq β] {hasher : Hasher β}

def clipsKey (map : StateMap) (key : List Byte) : Bool := (canonicalTree map).elim false fun tree => tree.clips (keyBits key)

section
variable (injective : hasher.Injective) {live : Trie β} {map : StateMap} (represents : Represents hasher live map)
include injective represents
open Trie
variable {out : Collected β}

theorem collect_key (fit : KeyFits key) (checked : out.Checked hasher) :
    ∃ more, live.collectPathNodes key out = .ok more ∧ more.Checked hasher ∧ out.Grows more ∧
      ∀ view : Trie β, view.Has more → view.root = live.root → CoversKey hasher view (clipsKey map key = false) key := by
  obtain ⟨fits,root,held⟩ := represents
  have enough := budget_enough live fit
  rw [Trie.collectPathNodes,forKey_ofBits fit,ok_bind,root]
  unfold clipsKey
  cases whole : canonicalTree map with
  | none =>
    obtain ⟨budget,more⟩ : ∃ less, live.budget = less + 1 := ⟨live.budget - 1,by omega⟩
    refine ⟨out,?_,checked,.refl,fun view _ same => ⟨fit,?_⟩⟩
    · rw [more,Trie.collectFrom,Hasher.rootOf,Option.elim_none,if_pos rfl]
      rfl
    · rw [same]
      exact .empty _
  | some tree =>
    obtain ⟨more,run,last,grows,covers⟩ := collectFrom_collects injective fit.short tree live.budget 0 out
      (held tree whole) (fits_tree fits whole) (by omega) (by omega) checked
    exact ⟨more,run,last,grows,fun view has same => ⟨fit,by rw [same]; exact covers view has⟩⟩

theorem collect_keys {keys : List (List Byte)} (fit : ∀ key ∈ keys, KeyFits key) (checked : out.Checked hasher) :
    ∃ more, keys.foldlM (fun out key => live.collectPathNodes key out) out = .ok more ∧ more.Checked hasher ∧
      out.Grows more ∧ ∀ view : Trie β, view.Has more → view.root = live.root →
        ∀ key ∈ keys, CoversKey hasher view (clipsKey map key = false) key := by
  induction keys generalizing out with
  | nil => exact ⟨out,rfl,checked,.refl,by simp⟩
  | cons key rest ih =>
    obtain ⟨middle,first,fine,grows,covers⟩ := collect_key injective represents (fit key (by simp)) checked
    obtain ⟨more,others,last,onward,all⟩ := ih (fun other listed => fit other (by simp [listed])) fine
    refine ⟨more,by rw [List.foldlM_cons,first]; exact others,last,grows.trans onward,fun view has same => ?_⟩
    exact List.forall_mem_cons.mpr ⟨covers view (has.less onward) same,all view has same⟩

omit injective represents in
theorem collected_accepted {root : Hash β} (keys : List (List Byte)) (checked : out.Checked hasher)
    (rooted : root = zeroHash ∨ (out.nodes.lookup root).isSome) :
    WitnessState.new hasher (collectedWitness root out keys) = .ok (.ofWitness (collectedWitness root out keys)) ∧
      (WitnessState.ofWitness (collectedWitness root out keys)).trie.Has out := by
  have listed : root = zeroHash ∨ ∃ node ∈ (collectedWitness root out keys).nodes, node.1 = root := by
    refine rooted.imp id fun present => ?_
    obtain ⟨text,found⟩ := Option.isSome_iff_exists.mp present
    exact ⟨(root,text),mem_listed.mpr found,rfl⟩
  refine ⟨?_,fun hash text => lookup_relisted,fun hash bytes => lookup_relisted⟩
  simp only [WitnessState.new,bind_ok,pure_ok]
  exact ⟨(),each_ok.mpr fun node member => ensure_pos (checked.nodes _ _ (mem_listed.mp member)),(),
    each_ok.mpr fun value member => ensure_pos (checked.values _ _ (mem_listed.mp member)),(),ensure_pos listed,trivial⟩

theorem witness_made {accessed : KeySet} (fit : ∀ key ∈ accessed, KeyFits key) :
    ∃ witness state, witnessOf live accessed = .ok witness ∧ WitnessState.new hasher witness = .ok state ∧ Tracks hasher state.trie live ∧
      ∀ key ∈ accessed, key ∈ state.witnessed ∧ CoversKey hasher state.trie (clipsKey map key = false) key := by
  have none : (⟨∅,∅⟩ : Collected β).Checked hasher := ⟨by simp,by simp⟩
  obtain ⟨out,run,checked,_,covers⟩ := collect_keys injective represents
    (fun key listed => fit key (Std.ExtTreeSet.mem_toList.mp listed)) none
  obtain ⟨reach,closed,within⟩ := represents_closed represents
  obtain ⟨all,picked,fine,grows,rooted⟩ : ∃ all : Collected β,
      (if live.root = zeroHash ∨ (out.nodes.lookup live.root).isSome then out else out.addNode live live.root) = all ∧
      all.Checked hasher ∧ out.Grows all ∧ (live.root = zeroHash ∨ (all.nodes.lookup live.root).isSome) := by
    by_cases there : live.root = zeroHash ∨ (out.nodes.lookup live.root).isSome
    · exact ⟨out,if_pos there,checked,.refl,there⟩
    · obtain ⟨node,same,stored,_⟩ := closed live.root (within.resolve_left fun zero => there (.inl zero))
      obtain ⟨fine,grows,found⟩ := addNode_grows injective checked stored
      rw [same] at fine grows found
      exact ⟨_,if_neg there,fine,grows,.inr (by rw [found]; rfl)⟩
  obtain ⟨accepted,has⟩ := collected_accepted accessed.toList fine rooted
  refine ⟨_,_,?_,accepted,⟨rfl,reach,⟨(accepted_checked accepted).1,closed⟩,within⟩,fun key listed => ⟨?_,?_⟩⟩
  · rw [witnessOf,run,ok_bind]
    simp only [picked]
    rfl
  · exact Std.ExtTreeSet.mem_ofList.mpr (by simpa [collectedWitness] using listed)
  · exact covers _ (has.less grows) rfl key (Std.ExtTreeSet.mem_toList.mpr listed)
end

-- A witness state that is in step with a full trie and has what some keys need.
structure Ready (hasher : Hasher β) (map : StateMap) (keys : List Byte → Prop) (state : WitnessState β) (full : Trie β) : Prop where
  tracks : Tracks hasher state.trie full
  listed : ∀ key, keys key → key ∈ state.witnessed
  covers : ∀ key, keys key → CoversKey hasher state.trie (clipsKey map key = false) key

-- What a removal needs: the key is not there, or its coverage is strong.
def Removable (map : StateMap) (full : Trie β) (call : StateCall) : Prop :=
  ∀ key, call = .delete key → full.get key = .ok none ∨ clipsKey map key = false

theorem inTrie_ok : inTrie outcome = .ok result ↔ outcome = .ok result := mapError_ok

section
variable (injective : hasher.Injective) {map : StateMap} {keys : List Byte → Prop}
include injective
omit injective in
theorem inTrie_complete (complete : Complete outcome) : ∀ reason, inTrie outcome = .error reason → ¬LostHalt reason := by
  intro reason failed
  cases outcome with
  | ok result => cases failed
  | error cause =>
    cases failed
    exact complete cause rfl

variable {state : WitnessState β}

theorem call_carries (witnessed : call.key ∈ state.witnessed) (covers : CoversKey hasher state.trie strong call.key)
    (allowed : ∀ key, call = .delete key → state.trie.get key = .ok none ∨ strong) :
    (∀ reason, (witnessBackend hasher).call state call = .error reason → ¬LostHalt reason) ∧
    ∀ next returned, (witnessBackend hasher).call state call = .ok (next,returned) → (∀ key ∈ state.witnessed, key ∈ next.witnessed) ∧
      ∀ strong other, CoversKey hasher state.trie strong other → CoversKey hasher next.trie strong other := by
  cases call with
  | read key =>
    have there : key ∈ state.witnessed := witnessed
    have complete := inTrie_complete (get_complete covers)
    simp only [StateBackend.call,witnessBackend,ensure_pos there,ok_bind,bind_assoc]
    refine ⟨fun reason failed => ?_,fun next returned ran => ?_⟩
    · rcases bind_error.mp failed with early | ⟨_,_,late⟩
      · exact complete reason early
      · cases late
    · obtain ⟨value,_,last⟩ := bind_ok.mp ran
      cases last
      exact ⟨fun _ => id,fun _ _ => id⟩
  | write key value =>
    obtain ⟨complete,carried⟩ := insert_carries injective covers value
    simp only [StateBackend.call,witnessBackend,bind_assoc]
    refine ⟨fun reason failed => ?_,fun next returned ran => ?_⟩
    · rcases bind_error.mp failed with early | ⟨_,_,late⟩
      · exact inTrie_complete complete reason early
      · cases late
    · obtain ⟨trie,one,last⟩ := bind_ok.mp ran
      cases last
      exact ⟨fun other listed => Std.ExtTreeSet.mem_insert.mpr (.inr listed),carried trie (inTrie_ok.mp one)⟩
  | delete key =>
    obtain ⟨complete,carried⟩ := remove_carries injective covers (allowed key rfl)
    simp only [StateBackend.call,witnessBackend,bind_assoc]
    refine ⟨fun reason failed => ?_,fun next returned ran => ?_⟩
    · rcases bind_error.mp failed with early | ⟨_,_,late⟩
      · exact inTrie_complete complete reason early
      · cases late
    · obtain ⟨⟨trie,taken⟩,one,last⟩ := bind_ok.mp ran
      cases last
      exact ⟨fun other listed => Std.ExtTreeSet.mem_insert.mpr (.inr listed),carried trie taken (inTrie_ok.mp one)⟩

theorem call_replays (ready : Ready hasher map keys state full) (known : keys call.key)
    (removable : Removable map full call) (ran : (liveBackend hasher).call full call = .ok (after,returned)) :
    ∃ next, (witnessBackend hasher).call state call = .ok (next,returned) ∧ Ready hasher map keys next after := by
  obtain ⟨tracks,listed,covers⟩ := ready
  have allowed (key : List Byte) (delete : call = .delete key) : state.trie.get key = .ok none ∨ clipsKey map key = false := by
    refine (removable key delete).imp (fun absent => ?_) id
    have follows := get_follows injective tracks key
    rw [absent] at follows
    subst delete
    obtain ⟨_,read,rfl⟩ := follows.back (get_complete (covers key known))
    exact read
  have here : ∀ key, call = .delete key → state.trie.get key = .ok none ∨ clipsKey map call.key = false := by
    rintro key rfl
    exact allowed key rfl
  obtain ⟨complete,carried⟩ := call_carries injective (listed _ known) (covers _ known) here
  have follows := call_follows injective tracks call
  rw [ran] at follows
  obtain ⟨⟨next,_⟩,run,rfl,onward⟩ := follows.back complete
  obtain ⟨wider,kept⟩ := carried next _ run
  exact ⟨next,run,onward,fun key known => wider key (listed key known),fun key known => kept _ key (covers key known)⟩

omit injective in
def Replayable (hasher : Hasher β) (map : StateMap) : Trie β → List StateCall → Prop
  | _,[] => True
  | full,call::rest => Removable map full call ∧
      ∀ after returned, (liveBackend hasher).call full call = .ok (after,returned) → Replayable hasher map after rest

theorem calls_replay (ready : Ready hasher map keys state full)
    (known : ∀ call ∈ calls, keys call.key) (replayable : Replayable hasher map full calls)
    (ran : (liveBackend hasher).calls full calls = .ok (after,reads)) :
    ∃ last, (witnessBackend hasher).calls state calls = .ok (last,reads) ∧ Ready hasher map keys last after := by
  induction calls generalizing state full reads with
  | nil =>
    cases ran
    exact ⟨state,rfl,ready⟩
  | cons call rest ih =>
    obtain ⟨⟨middle,returned⟩,first,others⟩ := bind_ok.mp ran
    obtain ⟨⟨final,more⟩,second,done⟩ := bind_ok.mp others
    cases done
    obtain ⟨next,step,ready'⟩ := call_replays injective ready (known call (by simp)) replayable.1 first
    obtain ⟨last,steps,end_⟩ := ih ready' (fun other listed => known other (by simp [listed])) (replayable.2 _ _ first) second
    refine ⟨last,?_,end_⟩
    rw [StateBackend.calls,step,ok_bind]
    simp only
    rw [steps]
    rfl
end
section
variable {state next : TracingState β} {call : StateCall} {returned : Option (Option (List Byte))}
variable {trie : Trie β} {key : List Byte}

theorem get_fits (ran : trie.get key = .ok value) : KeyFits key := by
  obtain ⟨_,made,_⟩ := bind_ok.mp ran
  exact (forKey_packed made).1

theorem insert_fits (ran : trie.insert hasher key value = .ok after) : KeyFits key := by
  obtain ⟨_,made,_⟩ := bind_ok.mp ran
  exact (forKey_packed made).1

theorem remove_fits (ran : trie.remove hasher key = .ok result) : KeyFits key := by
  obtain ⟨_,made,_⟩ := bind_ok.mp ran
  exact (forKey_packed made).1

theorem tracing_call (ran : (tracingBackend hasher).call state call = .ok (next,returned)) :
    (liveBackend hasher).call state.ensureScratch call = .ok (next.ensureScratch,returned) ∧ next.live = state.live ∧
      next.preRoot = state.preRoot ∧ next.accessed = state.accessed.insert call.key ∧ KeyFits call.key := by
  cases call with
  | read key =>
    simp only [StateBackend.call,tracingBackend,bind_assoc] at ran
    obtain ⟨value,read,done⟩ := bind_ok.mp ran
    cases done
    have found := inTrie_ok.mp read
    refine ⟨?_,rfl,rfl,rfl,get_fits found⟩
    simp only [StateBackend.call,liveBackend,TracingState.ensureScratch,read]
    rfl
  | write key value =>
    simp only [StateBackend.call,tracingBackend,bind_assoc] at ran
    obtain ⟨trie,wrote,done⟩ := bind_ok.mp ran
    cases done
    refine ⟨?_,rfl,rfl,rfl,insert_fits (inTrie_ok.mp wrote)⟩
    simp only [StateBackend.call,liveBackend,wrote]
    rfl
  | delete key =>
    simp only [StateBackend.call,tracingBackend,bind_assoc] at ran
    obtain ⟨⟨trie,taken⟩,deleted,done⟩ := bind_ok.mp ran
    cases done
    refine ⟨?_,rfl,rfl,rfl,remove_fits (inTrie_ok.mp deleted)⟩
    simp only [StateBackend.call,liveBackend,deleted]
    rfl

theorem tracing_calls (ran : (tracingBackend hasher).calls state calls = .ok (last,reads)) :
    (liveBackend hasher).calls state.ensureScratch calls = .ok (last.ensureScratch,reads) ∧ last.live = state.live ∧
      last.preRoot = state.preRoot ∧ (∀ key, key ∈ last.accessed ↔ key ∈ state.accessed ∨ ∃ call ∈ calls, call.key = key) ∧
      ∀ call ∈ calls, KeyFits call.key := by
  induction calls generalizing state reads with
  | nil =>
    cases ran
    exact ⟨rfl,rfl,rfl,by simp,by simp⟩
  | cons call rest ih =>
    obtain ⟨⟨middle,returned⟩,first,others⟩ := bind_ok.mp ran
    obtain ⟨⟨final,more⟩,second,done⟩ := bind_ok.mp others
    cases done
    obtain ⟨step,live,root,keys,fit⟩ := tracing_call first
    obtain ⟨steps,live',root',keys',fits⟩ := ih second
    refine ⟨?_,live'.trans live,root'.trans root,fun key => ?_,?_⟩
    · rw [StateBackend.calls,step,ok_bind]
      simp only
      rw [steps]
      rfl
    · rw [keys' key,keys,Std.ExtTreeSet.mem_insert,Std.compare_eq_iff_eq]
      simp only [List.mem_cons,exists_eq_or_imp]
      tauto
    · exact List.forall_mem_cons.mpr ⟨fit,fits⟩
end

-- Witness completeness: calls traced on a canonical trie replay on the trace's
-- witness, if no removed key leaves an extension of the pre-state at its last bit.
theorem witness_replay_complete (injective : hasher.Injective) {live : Trie β} {map : StateMap}
    (represents : Represents hasher live map) (calls : List StateCall) (replayable : Replayable hasher map live calls)
    {last : TracingState β} {reads : List (Option (Option (List Byte)))}
    (traced : (tracingBackend hasher).calls (.new live) calls = .ok (last,reads)) :
    ∃ witness state final, last.intoWitness = .ok witness ∧ WitnessState.new hasher witness = .ok state ∧
      (witnessBackend hasher).calls state calls = .ok (final,reads) ∧
      (witnessBackend hasher).postStateRoot final = (tracingBackend hasher).postStateRoot last := by
  obtain ⟨run,same,root,accessed,fits⟩ := tracing_calls traced
  have known : ∀ call ∈ calls, call.key ∈ last.accessed := fun call listed => (accessed _).mpr (.inr ⟨call,listed,rfl⟩)
  have fit : ∀ key ∈ last.accessed, KeyFits key := by
    intro key listed
    rcases (accessed key).mp listed with none | ⟨call,member,rfl⟩
    · exact absurd none Std.ExtTreeSet.not_mem_empty
    · exact fits call member
  obtain ⟨witness,state,made,accepted,tracks,covers⟩ := witness_made injective represents fit
  have ready : Ready hasher map (· ∈ last.accessed) state live :=
    ⟨tracks,fun key listed => (covers key listed).1,fun key listed => (covers key listed).2⟩
  obtain ⟨final,replayed,done⟩ := calls_replay injective ready known replayable run
  refine ⟨witness,state,final,by rw [TracingState.intoWitness,same]; exact made,accepted,replayed,?_⟩
  have ended : (tracingBackend hasher).postStateRoot last = last.ensureScratch.root := by
    simp only [tracingBackend,TracingState.ensureScratch]
    cases last.scratch with
    | none => rw [root,Option.getD_none,same]; rfl
    | some trie => rfl
  rw [ended]
  exact done.tracks.1

-- Two keys below one extension, and a third that leaves it at its last bit.
def siblingCalls : List StateTrie.Call := [.insert [0x00] [1],.insert [0x40] [1]]

-- A trace's reads, and how the replay over its witness stops, if it does.
def tracedReplay (hasher : Hasher β) (live : Trie β) (calls : List StateCall) :
    Option (List (Option (Option (List Byte))) × Option Halt) := do
  let (last,reads) ← ((tracingBackend hasher).calls (.new live) calls).toOption
  let witness ← last.intoWitness.toOption
  let state ← (WitnessState.new hasher witness).toOption
  match (witnessBackend hasher).calls state calls with
  | .ok _ => return (reads,none)
  | .error reason => return (reads,some reason)

theorem toOption_some {outcome : Except ε α} : outcome.toOption = some result ↔ outcome = .ok result := by
  cases outcome <;> simp [Except.toOption]

-- Removing a key written beside an extension's last bit looks at the child, which
-- no walk collected.
theorem created_then_removed_panics : ∃ live last witness state, Represents spelledHasher live (StateMap.calls ∅ siblingCalls).1 ∧
      (tracingBackend spelledHasher).calls (.new live) [.write [0x80] [2],.delete [0x80]] = .ok (last,[none,none]) ∧
      last.intoWitness = .ok witness ∧ WitnessState.new spelledHasher witness = .ok state ∧
      (witnessBackend spelledHasher).calls state [.write [0x80] [2],.delete [0x80]] = .error (.trie (.panicked .missingNode)) := by
  have fit : ∀ call ∈ siblingCalls, KeyFits call.key := by decide
  obtain ⟨live,run,represents⟩ := calls_represent spelledHasher_injective spelledHasher_neverZero fit (new_represents _)
  have outcome : (do
      let (live,_) ← ((Trie.new : Trie Symbol).calls spelledHasher siblingCalls).toOption
      tracedReplay spelledHasher live [.write [0x80] [2],.delete [0x80]]) =
        some ([none,none],some (.trie (.panicked .missingNode))) := by decide +kernel
  rw [run] at outcome
  rw [Except.toOption,Option.bind_eq_bind,Option.bind_some] at outcome
  obtain ⟨⟨last,reads⟩,traced,outcome⟩ := Option.bind_eq_some_iff.mp outcome
  obtain ⟨witness,made,outcome⟩ := Option.bind_eq_some_iff.mp outcome
  obtain ⟨state,accepted,outcome⟩ := Option.bind_eq_some_iff.mp outcome
  cases ended : (witnessBackend spelledHasher).calls state [.write [0x80] [2],.delete [0x80]] with
  | ok result =>
    rw [ended] at outcome
    cases outcome
  | error reason =>
    rw [ended] at outcome
    cases outcome
    exact ⟨live,last,witness,state,represents,toOption_some.mp traced,toOption_some.mp made,toOption_some.mp accepted,ended⟩

theorem present_removal_replays : ∃ live last witness state final, Represents spelledHasher live (StateMap.calls ∅ siblingCalls).1 ∧
      (tracingBackend spelledHasher).calls (.new live) [.write [0x80] [2],.delete [0x40]] = .ok (last,[none,none]) ∧
      last.intoWitness = .ok witness ∧ WitnessState.new spelledHasher witness = .ok state ∧
      (witnessBackend spelledHasher).calls state [.write [0x80] [2],.delete [0x40]] = .ok (final,[none,none]) ∧
      (witnessBackend spelledHasher).postStateRoot final = (tracingBackend spelledHasher).postStateRoot last := by
  have fit : ∀ call ∈ siblingCalls, KeyFits call.key := by decide
  obtain ⟨live,run,represents⟩ := calls_represent spelledHasher_injective spelledHasher_neverZero fit (new_represents _)
  have whole : clipsKey (StateMap.calls ∅ siblingCalls).1 [0x40] = false := by decide +kernel
  have replayable : Replayable spelledHasher (StateMap.calls ∅ siblingCalls).1 live [.write [0x80] [2],.delete [0x40]] := by
    refine ⟨nofun,fun after returned _ => ⟨?_,fun _ _ _ => trivial⟩⟩
    rintro key ⟨⟩
    exact .inr whole
  have traced : (do
      let (live,_) ← ((Trie.new : Trie Symbol).calls spelledHasher siblingCalls).toOption
      let (_,reads) ← ((tracingBackend spelledHasher).calls (.new live) [.write [0x80] [2],.delete [0x40]]).toOption
      return reads) = some [none,none] := by decide +kernel
  rw [run] at traced
  rw [Except.toOption,Option.bind_eq_bind,Option.bind_some] at traced
  obtain ⟨⟨last,reads⟩,ran,same⟩ := Option.bind_eq_some_iff.mp traced
  cases same
  have ran := toOption_some.mp ran
  obtain ⟨witness,state,final,made,accepted,replayed,roots⟩ := witness_replay_complete spelledHasher_injective represents _ replayable ran
  exact ⟨live,last,witness,state,final,represents,ran,made,accepted,replayed,roots⟩
end Neutrino.Backend
